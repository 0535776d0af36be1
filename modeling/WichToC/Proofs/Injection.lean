import WichToC.Proofs.Lowering

/-!
# Injection by recursion

The walk that injects counts knows the slots of the blocks that it has lowered, by their scopes.
`Around` says that it knows those of the open blocks; scopes that it meets later have larger numbers
and do not disturb them.  With this, the walk makes of every built statement the code that recursion
gives: `BuiltStat.walks` goes through all statements, and `inject_eq_counted` states the result for
a whole script.
-/

namespace WichToC

open List Node Build Slot Counting
open Prod (fst snd)
open Setup (used ofStats fst_decls decls)

variable {outer slots : List String} {setup : Setup} {rest sweep ss code funcs : List Node}

/-- The scopes around a scope are numbered before it. -/
theorem Table.WellFormed.index_le_of_mem_chain {t : Table} (ht : t.WellFormed) {scope s : ScopeId}
    (hs : s ∈ t.chain scope) : s.index ≤ scope.index := by
  have hfrom : ∀ fuel (scope s : ScopeId), s ∈ t.chainFrom fuel scope → s.index ≤ scope.index := by
    intro fuel
    induction fuel with
    | zero => nofun
    | succ fuel ih =>
      intro scope s hs
      rw [chainFrom] at hs
      split at hs
      · rename_i parent hparent
        rcases mem_cons.mp hs with rfl | hs
        · exact Nat.le_refl _
        · exact Nat.le_trans (ih parent s hs) (Nat.le_of_lt (ht.parent hparent))
      · grind
  exact hfrom _ scope s hs

namespace Counting

variable {t : Table} {returns : Bool} {scope : ScopeId} {b : CBlock Node} {c n : Node}
  {known known' : Known} {fuel : Nat} {vars : List (String × Ty)} {start : Setup} {nest : Nest}
    (ns : List Node)

/-! ## What is known of the open blocks -/

/-- The slots that are known of the blocks from a scope outwards, in the order of their release. -/
def openSlots (t : Table) (known : KnownSlots) (scope : ScopeId) : List String :=
  ((t.chain scope).takeWhile fun s => t.kind? s = some .block).flatMap fun s =>
    ((known.lookup s).getD []).reverse

/-- The slots of the open blocks and the parameters are known; they matter where code returns. -/
def Around (t : Table) (returns : Bool) (scope : ScopeId) (outer : List String) (known : Known) :
    Prop :=
  returns = true → openSlots t known.slots scope ++ known.params.reverse = outer

/-- What the walk adds to what is known: slots of scopes with larger numbers. -/
structure Known.Grows (scope : ScopeId) (known known' : Known) : Prop where
  params : known'.params = known.params
  slots : ∃ extra, known'.slots = extra ++ known.slots ∧ ∀ p ∈ extra, scope.index < p.1.index

theorem Known.Grows.refl (scope : ScopeId) (known : Known) : known.Grows scope known :=
  ⟨rfl, [], rfl, nofun⟩

theorem Known.Grows.trans {a b c : Known} (h : a.Grows scope b)
    (h' : b.Grows scope c) : a.Grows scope c := by
  obtain ⟨extra, heq, hextra⟩ := h.slots
  obtain ⟨extra', heq', hextra'⟩ := h'.slots
  refine ⟨h'.params.trans h.params, extra' ++ extra, by rw [heq', heq, append_assoc], ?_⟩
  grind

theorem Known.Grows.mono {inner : ScopeId} {a b : Known} (h : a.Grows inner b)
    (hlt : scope.index < inner.index) : a.Grows scope b := by
  obtain ⟨extra, heq, hextra⟩ := h.slots
  exact ⟨h.params, extra, heq, fun p hp => Nat.lt_trans hlt (hextra p hp)⟩

theorem openSlots_extend (ht : t.WellFormed) {known extra : KnownSlots}
    (hextra : ∀ p ∈ extra, scope.index < p.1.index) :
    openSlots t (extra ++ known) scope = openSlots t known scope := by
  unfold openSlots
  refine flatMap_congr fun s hs => ?_
  have hle := ht.index_le_of_mem_chain ((takeWhile_sublist _).subset hs)
  grind

theorem Around.grow (ht : t.WellFormed) (h : Around t returns scope outer known)
    (hgrows : known.Grows scope known') : Around t returns scope outer known' := by
  intro hreturns
  obtain ⟨extra, heq, hextra⟩ := hgrows.slots
  rw [heq, openSlots_extend ht hextra, hgrows.params, h hreturns]

/-! ## Statements without blocks -/

theorem simple_of_child {e : Node} (hn : isSimple n = true) (hchildren : n.children = [e])
    (he : Filler e) : Simple n := by
  refine ⟨hn, fun c hc => ?_⟩
  grind

theorem Plain.simple (h : Plain n) : Simple n ∧ isReturn n = false := by
  cases h with
  | varDef _ settled | assign _ settled | printStat settled =>
    exact ⟨simple_of_child rfl rfl (filler_of_settled settled), rfl⟩
  | elementAssign place settled =>
    exact ⟨⟨rfl, forall_mem_pair.mpr ⟨filler_of_settled place,
      (filler_of_settled settled)⟩⟩, rfl⟩
  | printNothing => exact ⟨⟨rfl, nofun⟩, rfl⟩
  | callStat _ operation => exact ⟨simple_of_child rfl rfl (filler_of_operands operation), rfl⟩

/-- The nodes of a statement without blocks; only a function returns. -/
theorem Leaf.simple (h : Leaf t returns setup rest) :
    ∀ n ∈ rest, Simple n ∧ (returns = false → isReturn n = false) := by
  have hcount : ∀ kind slot, Simple (.count kind slot) ∧
      (returns = false → isReturn (.count kind slot) = false) := fun _ _ =>
        ⟨⟨rfl, nofun⟩, fun _ => rfl⟩
  have hreads : ∀ {n : Node} {holder : String} {ty : Ty}, isSimple n = true →
      n.children = [.temp holder ty] → Simple n :=
    fun hn hchildren => simple_of_child hn hchildren filler_temp
  have hreturn : returns = true → ∀ {n : Node}, returns = false → isReturn n = false :=
    fun allowed _ hnot => by cases allowed.symm.trans hnot
  cases h with
  | nothing => nofun
  | plain plain => exact forall_mem_singleton.mpr ⟨plain.simple.1, fun _ => plain.simple.2⟩
  | define _ _ operation _ =>
    exact forall_mem_pair.mpr
      ⟨⟨simple_of_child rfl rfl (filler_of_operands operation), fun _ => rfl⟩, (hcount _ _)⟩
  | assign =>
    exact forall_mem_cons.mpr ⟨hcount _ _, forall_mem_pair.mpr ⟨⟨hreads rfl rfl, fun _ => rfl⟩,
      (hcount _ _)⟩⟩
  | returnHeap allowed =>
    exact forall_mem_pair.mpr ⟨hcount _ _,
      ⟨hreads rfl rfl, hreturn allowed⟩⟩
  | returnPlain allowed => exact forall_mem_singleton.mpr ⟨hreads rfl rfl, hreturn allowed⟩

/-! ## Walks -/

/-- The walk makes of a statement the code that recursion gives; where code returns, the slots that
are released there are those around it. -/
def StatWalks (t : Table) (returns : Bool) (scope : ScopeId) (s : Node) : Prop :=
  ∀ (outer sweep : List String) (known : Known) (fuel : Nat), Around t returns scope outer known →
    (returns = true → sweep = outer) → unmarked s ≤ fuel →
    ∃ known', walkAll (rounds t fuel) (beforeReturns (releases sweep) (lowerStat s).stats) known =
        (codeOf outer s, known') ∧ known.Grows scope known'

/-- A block with nodes in front of its statements and further temporaries. -/
def startWith (start : Setup) (b : CBlock Node) : CBlock Node :=
  { b with locals := start.decls ++ b.locals, stats := start.stats ++ b.stats }

/-- What a block can start with. -/
structure Starts (t : Table) (b : CBlock Node) (start : Setup) : Prop where
  kept : ∀ n ∈ start.stats, Kept n
  nodup : start.names.Nodup
  isTemp : ∀ x ∈ start.used, IsTemp t x
  apart : ∀ x ∈ start.used, x ∉ (block b).reserved

theorem Starts.empty (b : CBlock Node) : Starts t b {} := ⟨nofun, .nil, nofun, nofun⟩

/-- The walk makes of a block the block that recursion gives. -/
def BlockWalks (t : Table) (returns : Bool) (scope : ScopeId) (b : CBlock Node) : Prop :=
  ∀ (outer : List String) (known : Known) (fuel : Nat) (start : Setup),
    Around t returns scope outer known → Starts t b start → unmarked (.block b) ≤ fuel →
    ∃ known', rounds t fuel (.block (startWith start b)) known =
        (.block (countBlock start outer b), known') ∧ known.Grows scope known'

/-- The number of nodes in a list of models that are still to be changed. -/
def unmarkedIn : Nat := (ns.map unmarked).foldr Nat.add 0

@[simp] theorem unmarkedIn_nil : unmarkedIn [] = 0 := rfl

@[simp] theorem unmarkedIn_cons (ns : List Node) :
    unmarkedIn (n :: ns) = unmarked n + unmarkedIn ns := rfl

@[simp] theorem unmarkedIn_append {ns' : List Node} :
    unmarkedIn (ns ++ ns') = unmarkedIn ns + unmarkedIn ns' := by
  induction ns with
  | nil => simp
  | cons n ns ih => rw [cons_append, unmarkedIn_cons, unmarkedIn_cons, ih, Nat.add_assoc]

theorem unmarked_eq (n : Node) : unmarked n = (isUnmarked n).toNat + unmarkedIn n.children := by
  rw [unmarked, fold_eq, children, unmarkedIn]
  congr 2
  induction n.slots with
  | nil => rfl
  | cons s ss ih =>
    rw [map_cons, flatMap_cons, flatMap_cons, map_append, ih, toList_mapChildren]
    rfl

theorem unmarked_le (h : c ∈ n.children) : (isUnmarked n).toNat + unmarked c ≤ unmarked n := by
  obtain ⟨before, after, hsplit⟩ := append_of_mem h
  rw [unmarked_eq n, hsplit, unmarkedIn_append, unmarkedIn_cons]
  omega

/-- A block that is still to be lowered takes one round, its statements the others. -/
theorem unmarked_stats (hmark : b.injected = false) (hfuel : unmarked (.block b) ≤ fuel) :
    ∃ f, fuel = f + 1 ∧ ∀ s ∈ b.stats, unmarked s ≤ f := by
  have hone : (isUnmarked (.block b)).toNat = 1 := by simp [isUnmarked, hmark]
  have hle := unmarked_eq (.block b)
  refine ⟨fuel - 1, by omega, fun s hs => ?_⟩
  have hles := unmarked_le (n := .block b) (c := s) (by
    simp [children, hs])
  omega

theorem leaf_walks {s : Node}
    (h : LeafStat t returns s setup rest) : StatWalks t returns scope s := by
  intro outer sweep known fuel _ hsweep _
  have hcode : beforeReturns (releases sweep) (lowerStat s).stats = codeOf outer s := by
    rw [codeOf_simple h.simple]
    cases hreturns : returns with
    | true => rw [hsweep hreturns]
    | false =>
      have hnone : ∀ n ∈ (lowerStat s).stats, isReturn n = false := by
        intro n hn
        rw [h.lowers.eq] at hn
        rcases mem_append.mp hn with hn | hn
        · exact (h.lowers.prepared.kept n hn).returns
        · exact (h.leaf.simple n hn).2 hreturns
      rw [beforeReturns_eq hnone, beforeReturns_eq hnone]
  have hstill : ∀ n ∈ codeOf outer s, Still n := by
    intro n hn
    rw [h.codeOf_eq] at hn
    rcases mem_append.mp hn with hn | hn
    · exact (h.lowers.prepared.kept n hn).still
    · obtain ⟨m, hm, hn⟩ := mem_flatMap.mp hn
      split at hn
      · rcases mem_append.mp hn with hn | hn
        · exact (kept_releases n hn).still
        · obtain rfl := mem_singleton.mp hn
          exact (h.leaf.simple n hm).1.still
      · obtain rfl := mem_singleton.mp hn
        exact (h.leaf.simple n hm).1.still
  refine ⟨known, ?_, .refl scope known⟩
  rw [hcode, walkAll_eq fun n hn known => (hstill n hn).rounds_eq fuel known]

/-- The walk of a statement that is one node over expressions and blocks. -/
theorem walkAll_single {n' : Node}
    (hreturn : isReturn n = false) (h : rounds t fuel n known = (n', known')) :
    walkAll (rounds t fuel) (beforeReturns sweep [n]) known = ([n'], known') := by
  rw [beforeReturns_eq fun m hm => by rwa [mem_singleton.mp hm], walkAll_cons, h]
  rfl

theorem ifStat_walks (ht : t.WellFormed)
    (other : Option (CBlock Node)) (hc : Hoisted c (hoist c)) (hb : BlockWalks t returns scope b)
    (hother : ∀ b' ∈ other, BlockWalks t returns scope b') :
    StatWalks t returns scope (.ifStat (some c) (some (.block b)) (other.map block)) := by
  intro outer sweep known fuel haround hsweep hfuel
  have hunmarked : ∀ y : CBlock Node, block y ∈ (ifStat (some c) (some (.block b))
      (other.map block)).children → unmarked (.block y) ≤ fuel := by
    intro y hy
    have := unmarked_le hy
    omega
  have hcond := (filler_of_settled hc.settled).still.rounds_eq (t := t) fuel
  have hlower : (lowerStat (.ifStat (some c) (some (.block b)) (other.map block))).stats =
      (hoist c).1.stats ++
        [.ifStat (some (hoist c).2) (some (.block b)) (other.map block)] := rfl
  obtain ⟨known₁, hwalk₁, hgrows₁⟩ := hb outer known fuel {} haround (.empty b)
    (hunmarked b (by simp [children]))
  have hsetup : ∀ n' known', rounds t fuel (.ifStat (some (hoist c).2) (some (.block b))
      (other.map block)) known = (n', known') →
      walkAll (rounds t fuel) (beforeReturns (releases sweep) ((hoist c).1.stats ++
        [.ifStat (some (hoist c).2) (some (.block b)) (other.map block)])) known =
        ((hoist c).1.stats ++ [n'], known') := by
    intro n' known' hn
    rw [beforeReturns_append, beforeReturns_eq fun n hn => (hc.prepared.kept n hn).returns,
      walkAll_append,
      walkAll_eq fun n hn known => (hc.prepared.kept n hn).still.rounds_eq fuel known,
      walkAll_single rfl hn]
  cases other with
  | none =>
    refine ⟨known₁, ?_, hgrows₁⟩
    rw [hlower, codeOf]
    refine hsetup _ _ ?_
    rw [rounds_of_not_stirs rfl]
    simp [Slot.mapChildren, Slot.threadAll, Slot.thread, withSlots, hcond,
      show rounds t fuel (.block b) known = _ from hwalk₁]
  | some b' =>
    obtain ⟨known₂, hwalk₂, hgrows₂⟩ := hother b' rfl outer known₁ fuel {}
      (haround.grow ht hgrows₁) (.empty b')
      (hunmarked b' (by simp [children]))
    refine ⟨known₂, ?_, hgrows₁.trans hgrows₂⟩
    rw [hlower, codeOf]
    refine hsetup _ _ ?_
    rw [rounds_of_not_stirs rfl]
    simp [Slot.mapChildren, Slot.threadAll, Slot.thread, withSlots, hcond,
      show rounds t fuel (.block b) known = _ from hwalk₁,
      show rounds t fuel (.block b') known₁ = _ from hwalk₂]

theorem names_loopStart :
    (loopStart c).names = if (hoist c).1.temps.isEmpty then [] else (hoist c).1.names := by
  unfold loopStart
  split
  · rfl
  · exact congrArg (map fst) (append_nil _)

theorem declares_loopExit (s : Setup) (hc : c.Settled) : (loopExit s (some c)).declares = [] := by
  have hsettled : ∀ {n : Node}, n.Settled → n.All fun m => m.declared? = none := fun h =>
    h.imp fun m hm => by cases m <;> first | rfl | cases hm.1
  have hall : (loopExit s (some c)).All fun m => m.declared? = none := by
    refine all_of_ifStat rfl (.intro rfl fun d hd => ?_)
      (all_of_block rfl (by simp) rfl (fun n hn => ?_) (by simp))
    · obtain rfl : d = c := by simpa [children] using hd
      exact hsettled hc
    · rcases mem_append.mp hn with hn | hn
      · obtain ⟨p, -, rfl⟩ := mem_map.mp hn
        exact .intro rfl (forall_mem_nil _)
      · obtain rfl := mem_singleton.mp hn
        exact .intro rfl (forall_mem_nil _)
  exact hall.collect_eq_nil fun m hm => by rw [hm]; rfl

theorem used_loopStart (hc : Hoisted c (hoist c)) :
    (loopStart c).used ⊆ (hoist c).1.used := by
  unfold loopStart
  split
  · nofun
  · intro x hx
    refine (Setup.mem_used_append.mp hx).resolve_right fun hx => ?_
    rw [used, Setup.inner, ofStats, flatMap_singleton,
      declares_loopExit _ hc.settled] at hx
    cases hx

/-- A lowered loop is one over its condition and a body that starts as recursion says. -/
theorem lowerWhile_eq (hstarts : Starts t b (loopStart c)) (hlocals : b.locals = vars.map declOf)
    (hvars : ∀ p ∈ vars, IsVarName t p.1) (hnodup : (vars.map fst).Nodup) :
    lowerWhile (some c) (some (.block b)) =
      .whileStat (some (loopCond c)) (some (.block (startWith (loopStart c) b))) := by
  unfold loopCond
  unfold loopStart at hstarts ⊢
  show (if (hoist c).1.temps.isEmpty = true then _ else _) = _
  split
  · rfl
  · rename_i htemps
    rw [if_neg htemps] at hstarts
    have hsame : ((hoist c).1 ++ ofStats [loopExit (hoist c).1 (some (hoist c).2)]).names =
        (hoist c).1.names := congrArg (map fst) (append_nil _)
    have hkeys : b.locals.map fst = vars.map fst := by
      simp [hlocals, declOf, Function.comp_def]
    have hfirst : insertEntries [] (hoist c).1.decls = (hoist c).1.decls := by
      apply insertEntries_eq
      rw [map_nil, nil_append, fst_decls]
      exact hsame ▸ hstarts.nodup
    have hboth : insertEntries (hoist c).1.decls b.locals = (hoist c).1.decls ++ b.locals := by
      apply insertEntries_eq
      rw [fst_decls, hkeys]
      refine nodup_append.mpr ⟨hsame ▸ hstarts.nodup, hnodup, fun x hx y hy => ?_⟩
      obtain ⟨q, hq, rfl⟩ := mem_map.mp hy
      exact (hstarts.isTemp x (Setup.mem_used_of_mem_names (hsame ▸ hx))).ne (hvars q hq)
    have hdecls : ((hoist c).1 ++ ofStats [loopExit (hoist c).1 (some (hoist c).2)]).decls =
        (hoist c).1.decls := congrArg (map _) (append_nil _)
    show Node.whileStat (some (.literal .bool "true" none)) (some (.block { b with
      locals := insertEntries (insertEntries [] (hoist c).1.decls) b.locals
      stats := (hoist c).1.stats ++ loopExit (hoist c).1 (some (hoist c).2) :: b.stats })) = _
    rw [hfirst, hboth, startWith, hdecls]
    simp [ofStats]

theorem starts_loopStart (hc : Hoisted c (hoist c))
    (hreserves : ReservesTemps t (.whileStat (some c) (some (.block b)))) :
    Starts t b (loopStart c) := by
  have hreserved := reserved_whileStat c b
  have hmem : (loopStart c).used ⊆ c.reserved := fun x hx =>
    hc.reserved x (used_loopStart hc hx)
  have hnodup := hreserves.nodup
  rw [hreserved] at hnodup
  refine ⟨kept_loopStart hc, ?_, fun x hx => hreserves.isTemp x ?_, fun x hx hxb => ?_⟩
  · rw [names_loopStart]
    split
    · exact .nil
    · exact hc.prepared.nodup_names
  · grind
  · grind

/-- A statement enters a block inside with `start`. -/
structure Enters (t : Table) (s : Node) (start : Setup) (b : CBlock Node) : Prop where
  mem : .block b ∈ s.children
  starts : Starts t b start
  reserved : ∀ x ∈ (block b).reserved, x ∈ innerReserved s
  used : ∀ x ∈ start.used, x ∈ innerReserved s

theorem Enters.yes (other : Option Node) :
    Enters t (.ifStat (some c) (some (.block b)) other) {} b :=
  ⟨mem_yes_ifStat, .empty b, fun x hx => by simp [innerReserved, hx], nofun⟩

theorem Enters.no (yes : Option Node) {other : Option (CBlock Node)} (h : b ∈ other) :
    Enters t (.ifStat (some c) yes (other.map block)) {} b := by
  refine ⟨mem_no_ifStat h, .empty b, fun x hx => ?_, nofun⟩
  obtain rfl := h
  simp [innerReserved, hx]

theorem Enters.body (hc : Hoisted c (hoist c))
    (hreserves : ReservesTemps t (.whileStat (some c) (some (.block b)))) :
    Enters t (.whileStat (some c) (some (.block b))) (loopStart c) b := by
  refine ⟨mem_body_whileStat, starts_loopStart hc hreserves, fun x hx => ?_, fun x hx => ?_⟩
  · simp [innerReserved, hx]
  · simp [innerReserved, hc.reserved x (used_loopStart hc hx)]

theorem Enters.inner : Enters t (.blockStat (some (.block b))) {} b :=
  ⟨.head _, .empty b, fun x hx => by simpa [innerReserved] using hx, nofun⟩

theorem settled_loopCond (h : Hoisted c (hoist c)) : (loopCond c).Settled := by
  unfold loopCond
  split
  · exact h.settled
  · exact .intro ⟨rfl, nofun⟩ nofun

theorem whileStat_walks (hc : Hoisted c (hoist c))
    (hreserves : ReservesTemps t (.whileStat (some c) (some (.block b))))
    (hlower : lowerWhile (some c) (some (.block b)) =
      .whileStat (some (loopCond c)) (some (.block (startWith (loopStart c) b))))
    (hb : BlockWalks t returns scope b) :
    StatWalks t returns scope (.whileStat (some c) (some (.block b))) := by
  intro outer sweep known fuel haround _ hfuel
  have hle := unmarked_le (n := .whileStat (some c) (some (.block b))) (c := .block b)
    (by simp [children])
  obtain ⟨known₁, hwalk, hgrows⟩ := hb outer known fuel (loopStart c) haround
    (starts_loopStart hc hreserves) (by omega)
  refine ⟨known₁, ?_, hgrows⟩
  rw [show (lowerStat (.whileStat (some c) (some (.block b)))).stats =
    [lowerWhile (some c) (some (.block b))] from rfl, hlower, codeOf]
  refine walkAll_single rfl ?_
  rw [rounds_of_not_stirs rfl]
  simp [Slot.mapChildren, Slot.threadAll, Slot.thread, withSlots, hwalk,
    (filler_of_settled (settled_loopCond hc)).still.rounds_eq (t := t) fuel known]

theorem blockStat_walks (hb : BlockWalks t returns scope b) :
    StatWalks t returns scope (.blockStat (some (.block b))) := by
  intro outer sweep known fuel haround _ hfuel
  have hle := unmarked_le (n := .blockStat (some (.block b))) (.head _)
  obtain ⟨known₁, hwalk, hgrows⟩ := hb outer known fuel {} haround (.empty b) (by omega)
  refine ⟨known₁, ?_, hgrows⟩
  rw [codeOf]
  refine walkAll_single rfl ?_
  rw [rounds_of_not_stirs rfl]
  simp [Slot.mapChildren, Slot.threadAll, Slot.thread, withSlots,
    show rounds t fuel (.block b) known = _ from hwalk]

theorem inner_walks (hb : BlockWalks t returns scope b) : StatWalks t returns scope (.block b) := by
  intro outer sweep known fuel haround _ hfuel
  obtain ⟨known₁, hwalk, hgrows⟩ := hb outer known fuel {} haround (.empty b) hfuel
  refine ⟨known₁, ?_, hgrows⟩
  rw [codeOf_block]
  exact walkAll_single rfl hwalk

theorem stats_walk (ht : t.WellFormed)
    (h : ∀ s ∈ ss, StatWalks t returns scope s) {sweep : List String}
    (haround : Around t returns scope outer known)
    (hsweep : returns = true → sweep = outer) (hfuel : ∀ s ∈ ss, unmarked s ≤ fuel) :
    ∃ known', walkAll (rounds t fuel) (beforeReturns (releases sweep) (lowered ss).stats) known =
        (codesOf outer ss, known') ∧ known.Grows scope known' := by
  induction ss generalizing known with
  | nil => exact ⟨known, by rw [codesOf]; rfl, .refl scope known⟩
  | cons s ss ih =>
    obtain ⟨known₁, hfirst, hgrows₁⟩ := h s (.head _) outer sweep known fuel haround
      hsweep (hfuel s (.head _))
    obtain ⟨known₂, hrest, hgrows₂⟩ := ih (fun c hc => h c (.tail s hc))
      (haround.grow ht hgrows₁) (fun c hc => hfuel c (.tail s hc))
    refine ⟨known₂, ?_, hgrows₁.trans hgrows₂⟩
    rw [show (lowered (s :: ss)).stats = (lowerStat s).stats ++ (lowered ss).stats from rfl,
      beforeReturns_append, walkAll_append, hfirst, hrest, codesOf]

/-! ## Blocks -/

/-- What is known when the slots of a block are. -/
def Known.push (known : Known) (scope : Option ScopeId) (slots : List String) : Known :=
  { known with slots := (scope.map fun scope => (scope, slots)).toList ++ known.slots }

theorem isReturn_withSlots (n : Node) (ss : List (Slot Node)) :
    isReturn (n.withSlots ss) = isReturn n := by
  unfold withSlots
  split <;> rfl

theorem isReturn_rounds : isReturn (rounds t fuel n known).1 = isReturn n := by
  rw [rounds_eq, roundStep]
  split
  · exact isReturn_withSlots _ _
  · rename_i changed _ hvisit
    rw [isReturn_withSlots]
    unfold visit at hvisit
    split at hvisit
    · dsimp only at hvisit
      split at hvisit
      · cases hvisit
      · cases hvisit
        rfl
    · cases hvisit
    · split at hvisit
      · cases hvisit
      · cases hvisit
        rfl
    · cases hvisit

theorem endsInReturn_walkAll (fuel : Nat) (known : Known) :
    endsInReturn (walkAll (rounds t fuel) ns known).1 = endsInReturn ns := by
  rcases eq_nil_or_concat ns with rfl | ⟨ns', n, rfl⟩
  · rfl
  · rw [concat_eq_append, walkAll_append, walkAll_cons]
    simp [endsInReturn, walkAll, threadList, isReturn_rounds]

/-- The walk of a block: it is lowered, and then its statements are walked. -/
theorem rounds_block (hmark : b.injected = false) (hcleanup : b.cleanup = [])
    (hkept : ∀ n ∈ start.stats, Kept n) (hlocals : ∀ p ∈ start.decls ++ b.locals, Still p.2)
    (htemps : ∀ p ∈ b.temps, Still p.2)
    (hkeys : ((start.decls ++ b.locals).map fst ++ (lowered b.stats).names).Nodup)
    (hslots : slotsOf t { b with
      locals := start.decls ++ b.locals ++ (lowered b.stats).decls
      stats := start.stats ++ b.stats
      injected := true } = slots)
    (hwalk : walkAll (rounds t fuel) (beforeReturns (releases (slots.reverse ++
      enclosingSlots t known.slots b.scope ++ known.params.reverse)) (lowered b.stats).stats)
        (known.push b.scope slots) = (code, known')) :
    rounds t (fuel + 1) (.block (startWith start b)) known =
      (.block { b with
        locals := start.decls ++ b.locals ++ (lowered b.stats).decls
        stats := start.stats ++ code
        cleanup := if endsInReturn (start.stats ++ code) then [] else
          releases (slots.reverse ++ if b.isFunctionBody then known.params.reverse else [])
        injected := true }, known') := by
  have hjoin : Setup.join ((startWith start b).stats.map lowerStat) =
      .ofStats start.stats ++ lowered b.stats := by
    have hfirst := lowered_kept hkept
    rw [lowered] at hfirst
    rw [show (startWith start b).stats = start.stats ++ b.stats from rfl, map_append,
      Setup.join_append, hfirst]
    rfl
  have hinsert : insertEntries (startWith start b).locals
      (ofStats start.stats ++ lowered b.stats).decls =
        start.decls ++ b.locals ++ (lowered b.stats).decls := by
    apply insertEntries_eq
    show ((start.decls ++ b.locals).map fst ++ (lowered b.stats).decls.map fst).Nodup
    rwa [fst_decls]
  obtain ⟨sweep, hsweep⟩ : ∃ sweep, sweep = releases (slots.reverse ++
    enclosingSlots t known.slots b.scope ++ known.params.reverse) := ⟨_, rfl⟩
  obtain ⟨stats, hstats⟩ : ∃ stats, stats = start.stats ++
    beforeReturns sweep (lowered b.stats).stats := ⟨_, rfl⟩
  have hsplit : beforeReturns sweep (start.stats ++ (lowered b.stats).stats) = stats := by
    rw [beforeReturns_append, beforeReturns_eq fun n hn => (hkept n hn).returns, hstats]
  have hwalked : walkAll (rounds t fuel) stats (known.push b.scope slots) =
      (start.stats ++ code, known') := by
    rw [hstats, walkAll_append,
      walkAll_eq fun n hn known => (hkept n hn).still.rounds_eq fuel known, hsweep, hwalk]
  have hends : endsInReturn stats = endsInReturn (start.stats ++ code) := by
    have := endsInReturn_walkAll (t := t) stats fuel (known.push b.scope slots)
    rw [← this, hwalked]
  obtain ⟨cleanup, hcleanup'⟩ : ∃ cleanup, cleanup = if endsInReturn (start.stats ++ code) then []
    else releases (slots.reverse ++ if b.isFunctionBody then known.params.reverse else []) :=
      ⟨_, rfl⟩
  obtain ⟨locals, hlocals'⟩ : ∃ locals, locals = start.decls ++ b.locals ++
      (lowered b.stats).decls :=
    ⟨_, rfl⟩
  have hvisit : visit t (.block (startWith start b)) known =
      (some (.block { b with
        locals := locals, stats := stats, cleanup := cleanup, injected := true }),
        known.push b.scope slots) := by
    have hunmarked : (startWith start b).injected = false := hmark
    have hlower : lowerBlock t known (startWith start b) =
        ({ b with locals := locals, stats := stats, cleanup := cleanup, injected := true },
          known.push b.scope slots) := by
      have hreleases : (slots.reverse ++ enclosingSlots t known.slots b.scope ++
          known.params.reverse).map Node.release = sweep := hsweep.symm
      have hstats' : (ofStats start.stats ++ lowered b.stats).stats =
          start.stats ++ (lowered b.stats).stats := rfl
      simp only [lowerBlock, hjoin, hinsert, hstats']
      simp only [startWith, hslots, ← map_append, hreleases, hsplit, hends]
      rw [hcleanup, hcleanup', hlocals']
      cases b.isFunctionBody <;> simp [releases, Known.push]
    simp [visit, hunmarked, hlower]
  rw [← hlocals', ← hcleanup']
  have hstillLocals : ∀ n ∈ (map locals).toList, ∀ known, rounds t fuel n known = (n, known) := by
    intro n hn known
    obtain ⟨p, hp, rfl⟩ := mem_map.mp hn
    rw [hlocals'] at hp
    rcases mem_append.mp hp with hp | hp
    · exact (hlocals p hp).rounds_eq fuel known
    · exact (Setup.filler_decls _ p hp).still.rounds_eq fuel known
  have hstillTemps : ∀ n ∈ (map b.temps).toList, ∀ known, rounds t fuel n known = (n, known) := by
    intro n hn known
    obtain ⟨p, hp, rfl⟩ := mem_map.mp hn
    exact (htemps p hp).rounds_eq fuel known
  have hstillCleanup : ∀ n ∈ (sequence cleanup).toList, ∀ known,
      rounds t fuel n known = (n, known) := by
    intro n hn known
    have hn : n ∈ cleanup := hn
    rw [hcleanup'] at hn
    split at hn
    · cases hn
    · exact (kept_releases n hn).still.rounds_eq fuel known
  rw [rounds_eq, roundStep, hvisit]
  simp only [below, Node.slots, map_cons, map_nil, threadAll, thread_eq hstillLocals,
    thread_eq hstillTemps, thread_eq hstillCleanup, thread_sequence, hwalked]
  rfl

/-- The keys of the declarations of a lowered block are different. -/
theorem nodup_keys {shown : List (String × Ty)} (h : Scoped t returns nest shown b)
    (hlocals : b.locals = vars.map declOf) (hnodup : (vars.map fst).Nodup)
    (hvars : ∀ p ∈ vars, IsVarName t p.1) (hstarts : Starts t b start) :
    ((start.decls ++ b.locals).map fst ++ (lowered b.stats).names).Nodup := by
  have hkeys : b.locals.map fst = vars.map fst := by
    simp [hlocals, declOf, Function.comp_def]
  rw [map_append, fst_decls, hkeys]
  refine nodup_append.mpr ⟨nodup_append.mpr ⟨hstarts.nodup, hnodup, fun x hx y hy => ?_⟩,
    h.names.nodup, fun x hx y hy => ?_⟩
  · obtain ⟨q, hq, rfl⟩ := mem_map.mp hy
    exact (hstarts.isTemp x (Setup.mem_used_of_mem_names hx)).ne (hvars q hq)
  · have hy := h.lowered_reserved hy
    rcases mem_append.mp hx with hx | hx
    · rintro rfl
      exact hstarts.apart x (Setup.mem_used_of_mem_names hx) hy
    · obtain ⟨q, hq, rfl⟩ := mem_map.mp hx
      exact fun heq => (h.reserves.isTemp y hy).ne (hvars q hq) heq.symm

theorem still_declOf : ∀ p ∈ vars.map declOf, Still p.2 := by
  intro p hp
  obtain ⟨q, -, rfl⟩ := mem_map.mp hp
  exact .intro rfl nofun

theorem still_tempDecl {temps : List (String × Node)}
    (h : ∀ p ∈ temps, ∃ name ty, p.2 = .tempDecl name ty) : ∀ p ∈ temps, Still p.2 := by
  intro p hp
  obtain ⟨name, ty, heq⟩ := h p hp
  rw [heq]
  exact .intro rfl nofun

/-- The walk of a block of a function. -/
theorem builtBlock_walks (ht : t.WellFormed) {isBody : Bool} {outer : ScopeId}
    (shape : BuiltBlock t isBody nest scope vars b) (houter : nest.head?.map fst = some outer)
    (hscoped : Scoped t returns ((scope, vars.map fst) :: nest) vars b)
    (hwalks : ∀ s ∈ b.stats, StatWalks t returns scope s)
    (haround : Around t returns outer slots known) (hstarts : Starts t b start)
    (hparams : isBody = true → known.params.reverse = slots) (hfuel : unmarked (.block b) ≤ fuel) :
    ∃ known', rounds t fuel (.block (startWith start b)) known =
        (.block (countBlock start slots b), known') ∧ known.Grows outer known' := by
  obtain ⟨outer', houter', hencloses⟩ := shape.encloses
  obtain rfl : outer' = outer := by grind
  obtain ⟨fuel, rfl, hfuels⟩ := unmarked_stats shape.injected hfuel
  have hown : slotsOf t { b with
      locals := start.decls ++ b.locals ++ (lowered b.stats).decls
      stats := start.stats ++ b.stats
      injected := true } = (ownSlots start b).reverse := by
    rw [ownSlots, reverse_reverse, slotsIn, slotsOf]
    simp [shape.ownScope, hencloses.kind]
  have henclosing : enclosingSlots t known.slots b.scope = openSlots t known.slots outer' := by
    rw [shape.ownScope]
    show (((t.chain scope).drop 1).takeWhile _).flatMap _ = _
    rw [ht.chain_eq hencloses.parent]
    rfl
  have hknown : (known.push b.scope (ownSlots start b).reverse).slots =
      [(scope, (ownSlots start b).reverse)] ++ known.slots := by
    rw [Known.push, shape.ownScope]
    rfl
  have hinner : Around t returns scope (ownSlots start b ++ slots)
      (known.push b.scope (ownSlots start b).reverse) := by
    intro hreturns
    have hlookup : ((known.push b.scope (ownSlots start b).reverse).slots.lookup scope).getD [] =
        (ownSlots start b).reverse := by grind
    have hrest : openSlots t (known.push b.scope (ownSlots start b).reverse).slots outer' =
        openSlots t known.slots outer' := by
      rw [hknown]
      refine openSlots_extend ht fun p hp => ?_
      obtain rfl := mem_singleton.mp hp
      exact hencloses.lt
    rw [← haround hreturns, ← hrest, ← append_assoc]
    congr 1
    rw [openSlots, ht.chain_eq hencloses.parent,
      takeWhile_cons_of_pos (by simpa using hencloses.kind), flatMap_cons, hlookup,
      reverse_reverse]
    rfl
  have hsweep : returns = true → (ownSlots start b).reverse.reverse ++
      enclosingSlots t known.slots b.scope ++ known.params.reverse = ownSlots start b ++ slots := by
    intro hreturns
    rw [reverse_reverse, append_assoc, henclosing, haround hreturns]
  obtain ⟨known', hwalk, hgrows⟩ := stats_walk ht hwalks hinner hsweep hfuels
  have hlocalsStill : ∀ p ∈ start.decls ++ b.locals, Still p.2 := by
    intro p hp
    rcases mem_append.mp hp with hp | hp
    · exact (start.filler_decls p hp).still
    · exact still_declOf p (shape.locals ▸ hp)
  have hkeys := nodup_keys hscoped shape.locals shape.nodup shape.varNames hstarts
  have hpush : known.Grows outer' (known.push b.scope (ownSlots start b).reverse) := by
    refine ⟨rfl, [(scope, (ownSlots start b).reverse)], hknown, fun p hp => ?_⟩
    obtain rfl := mem_singleton.mp hp
    exact hencloses.lt
  refine ⟨known', ?_, hpush.trans (hgrows.mono hencloses.lt)⟩
  rw [rounds_block shape.injected shape.cleanup hstarts.kept hlocalsStill
    (still_tempDecl shape.temps) hkeys hown hwalk, countBlock, close, reverse_reverse,
    shape.body]
  cases isBody with
  | false => rfl
  | true =>
    rw [hparams rfl]
    rfl

/-- The walk makes of a block what recursion gives, and the names of its variables are different. -/
def BlockWalked (t : Table) (returns : Bool) (scope : ScopeId) (b : CBlock Node) : Prop :=
  BlockWalks t returns scope b ∧ ∃ vars : List (String × Ty), b.locals = vars.map declOf ∧
    (vars.map fst).Nodup ∧ ∀ p ∈ vars, IsVarName t p.1

/-- **The walk of statements.**  It yields the code that recursion gives. -/
theorem BuiltStat.walks (ht : t.WellFormed) (h : BuiltStat t returns nest n)
    (hreserves : ReservesTemps t n) (hscope : nest.head?.map fst = some scope) :
    StatWalks t returns scope n := by
  refine BuiltStat.lowering (S := fun nest n => ∀ scope, nest.head?.map fst = some scope →
    StatWalks t returns scope n) (B := fun nest b => ∀ scope, nest.head?.map fst = some scope →
      BlockWalked t returns scope b)
    ?leaf ?ifStat ?whileStat ?blockStat ?inner ?block h hreserves scope hscope
  case leaf => exact fun hleaf _ _ scope _ => leaf_walks hleaf
  case ifStat =>
    intro nest c b other _ hcond _ hb hother scope hscope
    exact ifStat_walks ht other hcond (hb scope hscope).1 fun b' hb' =>
      (hother b' hb' scope hscope).1
  case whileStat =>
    intro nest c b _ hcond hreserves hb scope hscope
    obtain ⟨hwalks, vars, hlocals, hnodup, hvars⟩ := hb scope hscope
    exact whileStat_walks hcond hreserves
      (lowerWhile_eq (starts_loopStart hcond hreserves) hlocals hvars hnodup) hwalks
  case blockStat => exact fun hb scope hscope => blockStat_walks (hb scope hscope).1
  case inner => exact fun hb scope hscope => inner_walks (hb scope hscope).1
  case block =>
    intro nest scope vars b shape hscoped ih outer houter
    refine ⟨fun slots known fuel start haround hstarts hfuel => ?_, vars, shape.locals, shape.nodup,
      shape.varNames⟩
    exact builtBlock_walks ht shape houter hscoped (fun s hs => ih s hs scope rfl) haround hstarts
      nofun hfuel

/-! ## Functions and files -/

theorem filterMap_heap {f : String × Ty → Option String}
    (h : ∀ p, f p = if p.2.isHeap then some p.1 else none) : vars.filterMap f = heapNames vars := by
  induction vars with
  | nil => rfl
  | cons p vars ih =>
    rw [filterMap_cons, ih, h]
    cases hheap : p.2.isHeap <;> simp [heapNames, hheap]

theorem declaredVars_declOf :
    ((vars.map declOf).map snd).filterMap (declaredSlot? false) = heapNames vars := by
  rw [map_map, filterMap_map]
  exact filterMap_heap fun p => by simp [declOf, declaredSlot?]

theorem declaredTemps_declOf :
    ((vars.map declOf).map snd).filterMap (declaredSlot? true) = [] := by
  rw [map_map, filterMap_map]
  exact filterMap_eq_nil_iff.mpr fun p _ => by simp [declOf, declaredSlot?]

theorem slotsIn_declOf : slotsIn (vars.map declOf) = heapNames vars := by
  rw [slotsIn, declaredVars_declOf, declaredTemps_declOf, append_nil]

theorem declaredVars_decls {s : Setup} :
    (s.decls.map snd).filterMap (declaredSlot? false) = [] := by
  rw [decls, map_map, filterMap_map]
  exact filterMap_eq_nil_iff.mpr fun p _ => by simp [tempDecl, declaredSlot?]

theorem declaredTemps_decls {s : Setup} :
    (s.decls.map snd).filterMap (declaredSlot? true) = heapNames s.temps := by
  rw [decls, map_map, filterMap_map]
  exact filterMap_heap fun p => by simp [tempDecl, declaredSlot?]

/-- The slots of a block with counts: its variables, and then its temporaries in order. -/
theorem ownSlots_eq (hlocals : b.locals = vars.map declOf) :
    ownSlots start b =
      (heapNames vars ++ heapNames (start.temps ++ (lowered b.stats).temps)).reverse := by
  simp [ownSlots, slotsIn, hlocals, -map_map, -filterMap_map, declaredVars_declOf,
    declaredTemps_declOf, declaredVars_decls, declaredTemps_decls]

theorem heapArgs_argDefs {params : List (String × Ty)} :
    heapArgs (argDefs params) = heapNames params := by
  rw [heapArgs, argDefs, filterMap_map]
  exact filterMap_heap fun _ => rfl

/-- No block is open where a function begins. -/
theorem openSlots_eq_nil (h : t.kind? scope ≠ some .block) (known : KnownSlots) :
    openSlots t known scope = [] := by
  have hchain : ∃ rest, t.chain scope = scope :: rest := by
    rw [Table.chain, Table.chainFrom]
    split <;> exact ⟨_, rfl⟩
  obtain ⟨rest, hchain⟩ := hchain
  rw [openSlots, hchain, takeWhile_cons_of_neg (by simpa using h)]
  rfl

theorem still_argDefs {params : List (String × Ty)} : ∀ n ∈ argDefs params, Still n := by
  intro n hn
  obtain ⟨p, -, rfl⟩ := mem_map.mp hn
  exact .intro rfl nofun

theorem used_refers (slots : List String) : (ofStats (slots.map refer)).used = [] := by
  rw [used, Setup.inner, ofStats, flatMap_map]
  exact flatMap_eq_nil_iff.mpr fun _ _ => rfl

/-- A function body starts with the references to its parameters. -/
theorem starts_refers (slots : List String) (b : CBlock Node) :
    Starts t b (.ofStats (slots.map refer)) :=
  ⟨kept_refers, .nil, used_refers slots ▸ nofun, used_refers slots ▸ nofun⟩

theorem func_walks (ht : t.WellFormed) (h : n.IsBuiltFunc t)
    (hfuel : unmarked n ≤ fuel) (known : Known) :
    ∃ known', rounds t fuel n known = (countFunc n, known') := by
  obtain ⟨head, params, scope, vars, b, rfl, hfunc⟩ := h
  have hunmarked : unmarked (.block b) + 1 ≤ fuel := by
    have := unmarked_le (n := .func head (argDefs params) (some (.block b))) (c := .block b)
      (by simp [children])
    simp [isUnmarked, hfunc.injected] at this
    omega
  obtain ⟨fuel, rfl⟩ : ∃ f, fuel = f + 1 := ⟨fuel - 1, by omega⟩
  have haround : Around t true head.scope (heapNames params).reverse
      { known with params := heapNames params } := fun _ => by
    rw [openSlots_eq_nil (by rw [hfunc.kind]; simp)]
    rfl
  have hbody : unmarked (.block b) ≤ fuel := by omega
  have hscoped := Scoped.ofFunc hfunc
  obtain ⟨known', hwalk, -⟩ := builtBlock_walks ht hfunc.body rfl hscoped
    (fun s hs => BuiltStat.walks ht (hscoped.stats s hs) (hscoped.child hs) rfl) haround
    (starts_refers (heapNames params) b) (fun _ => rfl) hbody
  refine ⟨known', ?_⟩
  have hargs : ∀ n ∈ (sequence (argDefs params)).toList, ∀ known,
      rounds t fuel n known = (n, known) := fun n hn known =>
    (still_argDefs n hn).rounds_eq fuel known
  have hvisit : visit t (.func head (argDefs params) (some (.block b))) known =
      (some (.func { head with injected := true } (argDefs params)
        (some (.block (startWith (.ofStats ((heapNames params).map refer)) b)))),
        { known with params := heapNames params }) := by
    simp [visit, hfunc.injected, hfunc.heap, takeParams, startWith, ofStats, decls]
  rw [rounds_eq, roundStep, hvisit]
  simp only [below, slots, map_cons, map_nil, threadAll, thread_eq hargs,
    thread_single, hwalk, withSlots, countFunc, heapArgs_argDefs]

/-- The walk of the main function; its slots are the global variables and its temporaries. -/
theorem main_walks (ht : t.WellFormed)
    (h : BuiltMain t vars b) (hfuel : unmarked (.block b) ≤ fuel) (known : Known) :
    ∃ known', rounds t fuel (.mainFunc (some (.block b))) known =
      (countMain (heapNames vars) (.mainFunc (some (.block b))), known') := by
  have hscoped := Scoped.ofMain h
  obtain ⟨fuel, rfl, hfuels⟩ := unmarked_stats h.injected hfuel
  have hown : slotsOf t { b with
      locals := decls {} ++ b.locals ++ (lowered b.stats).decls
      stats := [] ++ b.stats
      injected := true } = heapNames vars ++ (ownSlots {} b).reverse := by
    rw [ownSlots, reverse_reverse, slotsIn, slotsOf]
    simp [h.ownScope, h.kind, h.heap]
  have hwalks : ∀ s ∈ b.stats, StatWalks t false Table.global s := fun s hs =>
    BuiltStat.walks ht (h.stats s hs) (hscoped.child hs) rfl
  have haround : Around t false Table.global (ownSlots {} b ++ (heapNames vars).reverse)
      (Known.push { known with params := [] } b.scope
        (heapNames vars ++ (ownSlots {} b).reverse)) := by
    rintro ⟨⟩
  have hsweep : false = true → (heapNames vars ++ (ownSlots {} b).reverse).reverse ++
      enclosingSlots t known.slots b.scope ++ [] = ownSlots {} b ++ (heapNames vars).reverse := by
    simp
  obtain ⟨known', hwalk, -⟩ := stats_walk ht hwalks haround hsweep hfuels
  have hlocals : b.locals = map declOf [] := h.locals
  have hkeys := nodup_keys hscoped hlocals .nil nofun (.empty b)
  have hbody : rounds t (fuel + 1) (.block (startWith {} b)) { known with params := [] } = _ :=
    rounds_block h.injected h.cleanup nofun (h.locals ▸ forall_mem_nil _)
      (still_tempDecl h.bound) hkeys hown hwalk
  refine ⟨known', ?_⟩
  have hvisit : visit t (.mainFunc (some (.block b))) known =
      (none, { known with params := [] }) := rfl
  rw [rounds_eq, roundStep, hvisit]
  simp only [slots, map_cons, map_nil, threadAll, thread_single]
  rw [show rounds t (fuel + 1) (.block b) { known with params := [] } = _ from hbody, countMain,
    countBlock, close, h.body]
  simp [withSlots, ownSlots]

theorem funcs_walk (ht : t.WellFormed) (h : ∀ f ∈ funcs, f.IsBuiltFunc t)
    (hfuel : ∀ f ∈ funcs, unmarked f ≤ fuel) (known : Known) :
    ∃ known', walkAll (rounds t fuel) funcs known = (funcs.map countFunc, known') := by
  induction funcs generalizing known with
  | nil => exact ⟨known, rfl⟩
  | cons f funcs ih =>
    obtain ⟨known₁, hfirst⟩ := func_walks ht (h f (.head _))
      (hfuel f (.head _)) known
    obtain ⟨known₂, hrest⟩ := ih (fun g hg => h g (.tail f hg))
      (fun g hg => hfuel g (.tail f hg)) known₁
    exact ⟨known₂, by rw [walkAll_cons, hfirst, hrest, map_cons]⟩

end Counting

/-- **Injection is recursion.**  The walk makes of a built file what `counted` does. -/
theorem inject_eq_counted {t : Table} (ht : t.WellFormed) {n : Node} (h : n.IsBuiltFile t) :
    n.inject t = n.counted := by
  obtain ⟨vars, funcs, b, rfl, hfuncs, hmain⟩ := h
  obtain ⟨fuel, hfuel⟩ : ∃ fuel, fuel = unmarked (.file (vars.map declOf) funcs
    (some (.mainFunc (some (.block b))))) := ⟨_, rfl⟩
  have hunmarked : ∀ c ∈ (file (vars.map declOf) funcs
      (some (.mainFunc (some (.block b))))).children, unmarked c ≤ fuel := by
    intro c hc
    have := unmarked_le hc
    omega
  obtain ⟨known₁, hwalk₁⟩ := funcs_walk ht hfuncs
    (fun f hf => hunmarked f (by simp [children, hf])) {}
  have hbody : unmarked (.block b) ≤ fuel := by
    have h₁ := hunmarked (.mainFunc (some (.block b)))
      (by simp [children])
    have h₂ := unmarked_le (n := .mainFunc (some (.block b))) (.head _)
    omega
  obtain ⟨known₂, hwalk₂⟩ := main_walks ht hmain hbody known₁
  have hglobals : ∀ n ∈ (map (vars.map declOf)).toList, ∀ known,
      rounds t fuel n known = (n, known) := by
    intro n hn known
    obtain ⟨p, hp, rfl⟩ := mem_map.mp hn
    exact (still_declOf p hp).rounds_eq fuel known
  rw [inject, ← hfuel, rounds_of_not_stirs rfl]
  simp only [slots, map_cons, map_nil, threadAll, thread_eq hglobals,
    thread_sequence, thread_single, hwalk₁, hwalk₂, withSlots, counted,
    slotsIn_declOf, Option.map_some]

end WichToC
