import WichToC.Proofs.OrderedTemps
import WichToC.Proofs.WellTyped

/-!
# Balance

Code without calls, returns and loops takes as many references to each slot as it gives up.  A piece
of code that fills slots *owes* one release for each heap slot that it fills for itself (`Owes`),
and the end of a block pays what the statements of the block owe.  So blocks are balanced, and what
is left at the end of the main function are the global variables, which it releases.

`counts_balance` is the main statement.
-/

namespace WichToC

open List Node Analysis Piece

variable {n e : Node} {cs code ns : List Node}

namespace Node

/-- What a node does to the count of a slot. -/
def count? : Node → Option (CountKind × String)
  | count kind slot => some (kind, slot)
  | _ => none

/-- The changes of counts in a node, once for each node that makes one. -/
def counts (n : Node) : List (CountKind × String) := n.collect fun m => m.count?.toList

/-- A node has as many nodes that take a reference to a slot as nodes that give one up. -/
def Balanced (n : Node) : Prop := ∀ x, n.counts.count (.ref, x) = n.counts.count (.deref, x)

theorem counts_eq : n.counts = n.children.flatMap counts ++ n.count?.toList :=
  n.collect_eq _

/-- Expressions count nothing. -/
theorem counts_of_operations (h : n.All fun m => m.isOperation = true) : n.counts = [] := by
  refine h.collect_eq_nil fun m hm => ?_
  cases m <;> first | rfl | cases hm

theorem counts_over (hn : n.children = cs) (hcount : n.count? = none)
    (h : ∀ c ∈ cs, c.counts = []) : n.counts = [] := by
  rw [counts_eq, hn, hcount, flatMap_eq_nil_iff.mpr h]
  rfl

theorem Balanced.of_counts (h : n.counts = []) : n.Balanced := by
  intro x
  rw [h]
  rfl

/-- A node over balanced nodes. -/
theorem Balanced.over (hn : n.children = cs) (hcount : n.count? = none)
    (h : ∀ c ∈ cs, c.Balanced) : n.Balanced := by
  intro x
  rw [counts_eq, hn, hcount, Option.toList_none, append_nil]
  clear hn
  induction cs with
  | nil => rfl
  | cons c cs ih =>
    obtain ⟨hc, hcs⟩ := forall_mem_cons.mp h
    rw [flatMap_cons, count_append, count_append, hc x, ih hcs]

end Node

/-- Whether a statement is a loop. -/
def StmtKind.isLoop : StmtKind → Bool
  | loop .. => true
  | _ => false

/-- A statement or a block without loops. -/
def Piece.Loopless (piece : Piece) : Prop := ∀ s ∈ piece.nodes, s.kind.isLoop = false

theorem Piece.Loopless.inner {s : Stmt} {b : Block} (h : (stmt s).Loopless)
    (hb : b ∈ s.kind.blocks) : (block b).Loopless :=
  fun c hc => h c (mem_nodes hb hc)

theorem Piece.Loopless.statement {s : Stmt} {b : Block} (h : (block b).Loopless)
    (hs : s ∈ b.statements) : (stmt s).Loopless := by
  intro c hc
  refine h c ?_
  rw [nodes, BlockOf.nodes_eq]
  exact mem_flatMap.mpr ⟨s, hs, hc⟩

namespace Counting

/-! ## Code that owes -/

/-- Code that does not return.  The references that it takes and does not give up are those to the
heap slots that it fills for itself. -/
structure Owes (code : List Node) : Prop where
  stays : ∀ n ∈ code, isReturn n = false
  owed : ∀ x, (code.flatMap counts).count (.ref, x) =
    (code.flatMap counts).count (.deref, x) +
      (heapNames (code.filterMap definedTemp?)).count x +
      (heapNames (code.filterMap defined?)).count x

section Code

variable {n m : Node} {code code' : List Node} {slots : List String} {x name : String} {ty : Ty}
    (kind : CountKind)

theorem Owes.nil : Owes [] := ⟨forall_mem_nil _, fun _ => rfl⟩

theorem Owes.append (h : Owes code) (h' : Owes code') : Owes (code ++ code') := by
  refine ⟨forall_mem_append.mpr ⟨h.stays, h'.stays⟩, fun x => ?_⟩
  have hfirst := h.owed x
  have hsecond := h'.owed x
  simp only [flatMap_append, filterMap_append, heapNames_append, count_append]
  omega

theorem Owes.of_balanced (h : n.Balanced) (hstays : isReturn n = false)
    (htemp : n.definedTemp? = none) (hvar : n.defined? = none) : Owes [n] := by
  refine ⟨forall_mem_singleton.mpr hstays, fun x => ?_⟩
  rw [flatMap_singleton, h x, filterMap_cons_none htemp, filterMap_cons_none hvar]
  rfl

theorem counts_count {kind' : CountKind} :
    ((slots.map (Node.count kind)).flatMap Node.counts).count (kind', x) =
      if kind = kind' then slots.count x else 0 := by
  induction slots with
  | nil => exact (ite_self _).symm
  | cons slot slots ih =>
    have hcons : ((slot :: slots).map (Node.count kind)).flatMap Node.counts =
        (kind, slot) :: (slots.map (Node.count kind)).flatMap Node.counts := rfl
    grind

theorem fills_count (slots : List String) :
    (slots.map (Node.count kind)).filterMap Node.definedTemp? = [] ∧
      (slots.map (Node.count kind)).filterMap Node.defined? = [] :=
  ⟨filterMap_eq_nil_iff.mpr (forall_mem_map.mpr fun _ _ => rfl),
    filterMap_eq_nil_iff.mpr (forall_mem_map.mpr fun _ _ => rfl)⟩

/-- A slot that takes a reference with its value. -/
theorem owes_fill (hn : n.counts = []) (hstays : isReturn n = false)
    (hfills : n.definedTemp? = some (name, ty) ∧ n.defined? = none ∨
      n.definedTemp? = none ∧ n.defined? = some (name, ty)) :
    Owes (n :: if ty.isHeap then [.refer name] else []) := by
  have hrefers : (if ty.isHeap then [refer name] else []) =
      (heapNames [(name, ty)]).map (Node.count .ref) := by
    cases hheap : ty.isHeap <;> simp [heapNames, hheap, refer]
  obtain ⟨htemps, hvars⟩ := fills_count .ref (heapNames [(name, ty)])
  rw [hrefers]
  refine ⟨forall_mem_cons.mpr ⟨hstays, forall_mem_map.mpr fun _ _ => rfl⟩, fun x => ?_⟩
  rw [flatMap_cons, hn, nil_append, counts_count, counts_count]
  rcases hfills with ⟨htemp, hvar⟩ | ⟨htemp, hvar⟩
  · rw [filterMap_cons_some htemp, filterMap_cons_none hvar, htemps, hvars]
    simp [heapNames]
  · rw [filterMap_cons_none htemp, filterMap_cons_some hvar, htemps, hvars]
    simp [heapNames]

/-- A block that releases what its statements owe. -/
theorem Owes.block {b : CBlock Node} (h : Owes b.stats)
    (hdecls : ∀ p ∈ b.locals ++ b.temps, ∃ name ty isTemp, p.2 = .varDecl name ty isTemp)
    (hclean : b.cleanup = releases slots) (hslots : slots.Perm
      (heapNames (b.stats.filterMap definedTemp?) ++ heapNames (b.stats.filterMap defined?))) :
    (block b).Balanced := by
  intro x
  have hcounts : (Node.block b).counts = (b.stats ++ b.cleanup).flatMap Node.counts ++ [] :=
    Node.collect_block (fun _ _ _ => rfl) hdecls
  have hrefs : ((releases slots).flatMap counts).count (.ref, x) = 0 := counts_count ..
  have hderefs : ((releases slots).flatMap counts).count (.deref, x) = slots.count x :=
    counts_count ..
  have howed := hslots.count_eq x
  have howes := h.owed x
  grind

end Code

/-! ## Setups -/

/-- A setup that takes a reference to each heap temporary that it fills, and fills nothing else. -/
structure Takes (s : Setup) : Prop where
  temps : s.stats.filterMap definedTemp? = s.temps
  vars : s.stats.filterMap defined? = []
  owes : Owes s.stats

namespace Takes

variable {s s' : Setup} {e m : Node}

theorem nil : Takes {} := ⟨rfl, rfl, .nil⟩

theorem append (h : Takes s) (h' : Takes s') : Takes (s ++ s') where
  temps := by
    rw [Setup.stats_append, filterMap_append, h.temps, h'.temps]
    rfl
  vars := by
    rw [Setup.stats_append, filterMap_append, h.vars, h'.vars]
    rfl
  owes := h.owes.append h'.owes

theorem join {ss : List Setup} (h : ∀ s ∈ ss, Takes s) : Takes (.join ss) := by
  induction ss with
  | nil => exact .nil
  | cons s ss ih =>
    obtain ⟨hs, hss⟩ := forall_mem_cons.mp h
    exact hs.append (ih hss)

theorem define {name : String} {ty : Ty} {value : Node} (hvalue : value.counts = []) :
    Takes (.define name ty value false) := by
  have hdef : (tempDef name ty true (some value)).counts = [] :=
    counts_over rfl rfl (forall_mem_singleton.mpr hvalue)
  have howes := owes_fill hdef rfl (.inl ⟨rfl, rfl⟩)
  unfold Setup.define
  refine ⟨?_, ?_, by simpa using howes⟩
  · dsimp only
    split <;> rfl
  · dsimp only
    split <;> rfl

/-- What the right operand fills is released at the end of its block. -/
theorem guarded {op temp : String} {right : Node} (h : Takes s) (hright : right.counts = []) :
    Takes (.ofStats [rightOperand op temp s (some right)]) := by
  have hassign : (Node.assign temp .boolean "" (some right)).Balanced :=
    .over rfl rfl (forall_mem_singleton.mpr (.of_counts hright))
  have hdecls : ∀ p ∈ (guardBlock temp s right).locals ++ (guardBlock temp s right).temps,
      ∃ name ty isTemp, p.2 = .varDecl name ty isTemp := by
    refine forall_mem_append.mpr ⟨fun p hp => ?_, nofun⟩
    obtain hp | hp := mem_insertEntries hp
    · cases hp
    · obtain ⟨q, -, rfl⟩ := mem_map.mp hp
      exact ⟨_, _, _, rfl⟩
  have hblock : (block (guardBlock temp s right)).Balanced := by
    refine (h.owes.append (.of_balanced hassign rfl rfl rfl)).block hdecls s.releases_eq ?_
    have htemps : (guardBlock temp s right).stats.filterMap definedTemp? = s.temps :=
      filterMap_append.trans ((append_nil _).trans h.temps)
    have hvars : (guardBlock temp s right).stats.filterMap defined? = [] :=
      filterMap_append.trans ((append_nil _).trans h.vars)
    rw [htemps, hvars]
    exact (reverse_perm _).trans (.of_eq (append_nil _).symm)
  have hguard := (settled_guard op temp).overSettled.operations
  refine ⟨rfl, rfl, .of_balanced ?_ rfl rfl rfl⟩
  rw [rightOperand_eq]
  exact .over rfl rfl (forall_mem_pair.mpr ⟨.of_counts (counts_of_operations hguard), hblock⟩)

end Takes

/-- Moving an expression without calls takes a reference to each heap temporary, and what is left
counts nothing. -/
theorem Moved.takes {m : Node} {s : Setup} (h : Moved e s m)
    (hcalls : e.All fun n => isCall n = false) : Takes s ∧ m.counts = [] := by
  have hoperation : ∀ {n : Node} {f : Node → Node}, n.isOperation = true →
      (∀ c ∈ n.children, (f c).counts = []) → (n.mapChildren f).counts = [] := by
    intro n f hop hf
    refine counts_over children_mapChildren ?_ (forall_mem_map.mpr hf)
    cases n <;> first | rfl | cases hop
  induction h with
  | var => exact ⟨.nil, rfl⟩
  | operation operation _ _ _ ih =>
    exact ⟨.join (forall_mem_map.mpr fun c hc => (ih c hc (hcalls.inside c hc)).1),
      hoperation operation fun c hc => (ih c hc (hcalls.inside c hc)).2⟩
  | fresh _ _ _ _ _ _ _ ih =>
    obtain ⟨htakes, hcounts⟩ := ih hcalls
    rw [hcalls.here]
    exact ⟨htakes.append (.define hcounts), rfl⟩
  | @inPlace op temp ty operandTy l r _ _ _ _ ihl ihr =>
    obtain ⟨htakes, hl⟩ := ihl (hcalls.inside l (by simp [children]))
    obtain ⟨-, hr⟩ := ihr (hcalls.inside r (by simp [children]))
    exact ⟨htakes, counts_over rfl rfl (forall_mem_pair.mpr ⟨hl, hr⟩)⟩
  | @guarded op temp ty operandTy l r _ _ _ _ ihl ihr =>
    obtain ⟨htakesLeft, hl⟩ := ihl (hcalls.inside l (by simp [children]))
    obtain ⟨htakesRight, hr⟩ := ihr (hcalls.inside r (by simp [children]))
    exact ⟨(htakesLeft.append (.define hl)).append (htakesRight.guarded hr), rfl⟩
  | @bind name v b m s _ _ ihv ihb =>
    obtain ⟨hv, hb⟩ := mem_children_bind name v b
    obtain ⟨htakesValue, hvalue⟩ := ihv (hcalls.inside v hv)
    obtain ⟨htakesBody, hbody⟩ := ihb (hcalls.inside b hb)
    exact ⟨(htakesValue.append (.define hvalue)).append htakesBody, hbody⟩

theorem HeldIn.takes {capture holder : String} {ty holderTy : Ty} {s : Setup}
    (h : HeldIn capture ty e s holder holderTy) (hcalls : e.All fun n => isCall n = false) :
    Takes s := by
  cases h with
  | found moved => exact (moved.takes hcalls).1
  | captured moved =>
    obtain ⟨htakes, hm⟩ := moved.takes hcalls
    exact htakes.append (.define hm)

/-! ## Statements -/

/-- The code of a statement without calls, returns and blocks. -/
theorem StatForm.owes {sweep : List String} {s : Node} (h : StatForm sweep s code)
    (hcalls : ∀ c ∈ s.children, c.All fun n => isCall n = false) (hreturn : isReturn s = false) :
    Owes code := by
  have hover : ∀ {n m : Node} {s : Setup}, Takes s → m.counts = [] → n.children = [m] →
      n.count? = none → isReturn n = false → n.definedTemp? = none → n.defined? = none →
      Owes (s.stats ++ [n]) := fun htakes hm hn hcount hstays htemp hvar =>
    htakes.owes.append (.of_balanced (.of_counts (counts_over hn hcount
      (forall_mem_singleton.mpr hm))) hstays htemp hvar)
  cases h with
  | varDef moved =>
    obtain ⟨htakes, hm⟩ := moved.takes (hcalls _ (.head _))
    exact htakes.owes.append (owes_fill (counts_over rfl rfl (forall_mem_singleton.mpr hm)) rfl
      (.inr ⟨rfl, rfl⟩))
  | assign _ moved | printStat moved | callStat _ moved =>
    obtain ⟨htakes, hm⟩ := moved.takes (hcalls _ (.head _))
    exact hover htakes hm rfl rfl rfl rfl rfl
  | @assignHeap name capture holder ty holderTy e s _ held =>
    have htakes := held.takes (hcalls _ (.head _))
    refine htakes.owes.append ⟨?_, fun x => ?_⟩
    · exact forall_mem_cons.mpr ⟨rfl, forall_mem_pair.mpr ⟨rfl, rfl⟩⟩
    rfl
  | @elementAssign name i e i' m s s' place moved =>
    obtain ⟨htakesPlace, hi⟩ := place.takes (hcalls i (.head _))
    obtain ⟨htakes, hm⟩ := moved.takes (hcalls e (.tail _ (.head _)))
    have hstore : (Node.elementAssign name (some i') (some m)).counts = [] :=
      Node.counts_over rfl rfl (forall_mem_pair.mpr ⟨hi, hm⟩)
    exact (htakesPlace.owes.append htakes.owes).append
      (.of_balanced (.of_counts hstore) rfl rfl rfl)
  | printNothing => exact .of_balanced (.of_counts rfl) rfl rfl rfl
  | callHeap _ _ moved => exact (moved.takes (hcalls _ (.head _))).1.owes
  | @callLogical op temp ty operandTy l r _ left right =>
    have hcall := hcalls _ (.head _)
    obtain ⟨htakesLeft, hl⟩ := left.takes (hcall.inside l (by simp [children]))
    obtain ⟨htakesRight, hr⟩ := right.takes (hcall.inside r (by simp [children]))
    have hop : (binary .int op ty operandTy temp (some (hoist l).2)
        (some (hoist r).2)).counts = [] :=
      counts_over rfl rfl (forall_mem_pair.mpr ⟨hl, hr⟩)
    exact hover (htakesLeft.append htakesRight) hop rfl rfl rfl rfl rfl
  | returnStat | returnHeap => cases hreturn

/-- A statement without calls and loops. -/
structure Straight (t : Table) (s : Node) : Prop where
  calls : s.All fun n => isCall n = false
  loopless : ∃ frames piece, PieceBuiltFor t frames piece s ∧ Loopless piece

section Blocks

variable {t : Table} {nest : Nest} {s c : Node} {b : CBlock Node} {outer : List String}

theorem Straight.yes {no : Option Node} (h : Straight t (.ifStat (some c) (some (.block b)) no)) :
    Straight t (.block b) := by
  refine ⟨h.calls.inside _ (mem_yes_ifStat ..), ?_⟩
  obtain ⟨frames, piece, hpiece, hloopless⟩ := h.loopless
  cases hpiece with
  | ifThen _ yesBlock | ifElse _ yesBlock => exact ⟨frames, _, yesBlock, hloopless.inner (.head _)⟩

theorem Straight.no {yes : Option Node}
    (h : Straight t (.ifStat (some c) yes (some (.block b)))) : Straight t (.block b) := by
  refine ⟨h.calls.inside _ (mem_no_ifStat rfl), ?_⟩
  obtain ⟨frames, piece, hpiece, hloopless⟩ := h.loopless
  cases hpiece with
  | ifElse _ _ noBlock =>
    exact ⟨frames, _, noBlock, hloopless.inner (.tail _ (.head _))⟩

theorem Straight.inner (h : Straight t (.blockStat (some (.block b)))) : Straight t (.block b) := by
  refine ⟨h.calls.inside _ (.head _), ?_⟩
  obtain ⟨frames, piece, hpiece, hloopless⟩ := h.loopless
  cases hpiece with
  | blockStat inner => exact ⟨frames, _, inner, hloopless.inner (.head _)⟩

theorem Straight.not_loop {body : Option Node} (h : Straight t (.whileStat (some c) body)) :
    False := by
  obtain ⟨frames, piece, hpiece, hloopless⟩ := h.loopless
  cases hpiece with
  | @loop _ cond b span =>
    have hmem : ⟨.loop cond b, span⟩ ∈ Located.nodes ⟨.loop cond b, span⟩ := by
      rw [Located.nodes_eq]
      exact .head _
    cases hloopless _ hmem

theorem Straight.stat (h : Straight t (.block b)) (hs : s ∈ b.stats) : Straight t s := by
  refine ⟨h.calls.inside _ (mem_child_of_stat hs), ?_⟩
  obtain ⟨frames, piece, hpiece, hloopless⟩ := h.loopless
  cases hpiece with
  | block _ _ _ _ _ _ _ statements stats inside =>
    rw [stats] at hs
    obtain ⟨p, hp, rfl⟩ := mem_map.mp hs
    exact ⟨_, _, inside p hp, hloopless.statement (statements ▸ mem_map_of_mem hp)⟩

theorem endsInReturn_eq_false (h : ∀ n ∈ ns, isReturn n = false) : endsInReturn ns = false := by
  unfold endsInReturn
  grind

theorem owes_codesOf {ss : List Node} (h : ∀ s ∈ ss, ∀ sweep, Owes (codeOf sweep s))
    (sweep : List String) : Owes (codesOf sweep ss) := by
  induction ss with
  | nil =>
    rw [codesOf]
    exact .nil
  | cons s ss ih =>
    obtain ⟨hs, hss⟩ := forall_mem_cons.mp h
    rw [codesOf]
    exact (hs sweep).append (ih hss)

/-- **A block with counts is balanced** if it releases what its statements fill. -/
theorem balanced_countBlock {vars : List (String × Ty)} (h : Scoped t false nest vars b)
    (howes : ∀ s ∈ b.stats, ∀ sweep, Owes (codeOf sweep s))
    (hslots : (ownSlots {} b ++ if b.isFunctionBody then outer else []).Perm
      (heapNames (lowered b.stats).temps ++ heapNames (b.stats.filterMap defined?))) :
    (block (countBlock {} outer b)).Balanced := by
  have hcodes : Owes (countBlock {} outer b).stats := owes_codesOf howes _
  have hclean := cleanup_countBlock {} outer b
  rw [endsInReturn_eq_false hcodes.stays] at hclean
  refine hcodes.block (decls_countBlock h.uncounted) hclean ?_
  have htemps : (countBlock {} outer b).stats.filterMap definedTemp? = (lowered b.stats).temps :=
    (codeTemps_codesOf (fun s hs => BuiltStat.temps (h.stats s hs) (h.child hs)) _).own
  have hvars : (countBlock {} outer b).stats.filterMap defined? = b.stats.filterMap defined? :=
    codes_defined h.code _
  rwa [htemps, hvars]

/-- **Straight code** owes the slots that it fills, and its blocks are balanced. -/
theorem Straight.owes (hs : Straight t s) (h : BuiltStat t false nest s)
    (hreserves : ReservesTemps t s) :
    ∀ sweep, Owes (codeOf sweep s) := by
  refine BuiltStat.lowering (S := fun _ s => Straight t s → ∀ sweep, Owes (codeOf sweep s))
    (B := fun _ b => Straight t (.block b) → ∀ outer, (block (countBlock {} outer b)).Balanced)
    ?leaf ?ifStat ?whileStat ?blockStat ?inner ?block h hreserves hs
  case leaf =>
    intro nest s setup rest hleaf hbuilt _ h sweep
    rw [hleaf.codeOf_eq]
    refine (hleaf.form sweep).owes h.calls.inside ?_
    cases hbuilt <;> first | rfl | contradiction
  case ifStat =>
    intro nest c b other hc _ _ hb hother h sweep
    have hcalls : c.All fun n => isCall n = false := h.calls.inside c (by simp [children])
    obtain ⟨htakes, hcond⟩ := (hoist_moved hc.expr).takes hcalls
    have hbranches : ∀ d ∈ (hoist c).2 :: ((countBlock {} sweep b) ::
        (other.map (countBlock {} sweep)).toList).map block, d.Balanced := by
      refine forall_mem_cons.mpr ⟨.of_counts hcond, forall_mem_cons.mpr
        ⟨hb h.yes sweep, forall_mem_map.mpr fun d hd => ?_⟩⟩
      obtain ⟨b', rfl, rfl⟩ := Option.map_eq_some_iff.mp (Option.mem_toList.mp hd)
      exact hother b' rfl h.no sweep
    rw [codeOf_ifStat, branchOf_block, branchOf_map]
    refine htakes.owes.append (.of_balanced (.over ?_ rfl hbranches) rfl rfl rfl)
    cases other <;> rfl
  case whileStat => exact fun _ _ _ _ h => h.not_loop.elim
  case blockStat =>
    intro nest b hb h sweep
    rw [codeOf_blockStat, branchOf_block]
    exact .of_balanced (.over rfl rfl (forall_mem_singleton.mpr (hb h.inner sweep))) rfl rfl rfl
  case inner =>
    intro nest b hb h sweep
    rw [codeOf_block]
    exact .of_balanced (hb h sweep) rfl rfl rfl
  case block =>
    intro nest scope vars b shape hscoped ih h outer
    refine balanced_countBlock hscoped (fun s hs => ih s hs (h.stat hs)) ?_
    rw [ownSlots_eq shape.locals, shape.body, if_neg Bool.false_ne_true, append_nil, shape.defs]
    exact (reverse_perm _).trans perm_append_comm

end Blocks

end Counting

/-! ## Scripts -/

section Scripts

open Counting

variable {t : Table} {vars : List (String × Ty)} {b : CBlock Node} {script : Script} {n : Node}

/-- The main function releases the global variables after its temporaries. -/
theorem BuiltMain.balanced (h : BuiltMain t vars b) (hstraight : ∀ s ∈ b.stats, Straight t s) :
    (countMain (slotsIn (vars.map Build.declOf)) (.mainFunc (some (.block b)))).Balanced := by
  have hlocals : b.locals = map Build.declOf [] := h.locals
  refine .over rfl rfl (forall_mem_singleton.mpr ?_)
  have hscoped := Scoped.ofMain h
  refine balanced_countBlock hscoped
    (fun s hs => (hstraight s hs).owes (h.stats s hs) (hscoped.child hs)) ?_
  rw [slotsIn_declOf, ownSlots_eq hlocals, h.body, if_pos rfl, h.defs]
  exact (reverse_perm _).append (reverse_perm _)

/-- A call needs a function. -/
theorem Node.Sound.not_call {ret : Option Ty} (h : n.Sound [] ret) : isCall n = false := by
  cases n <;> try rfl
  obtain ⟨_, _, _, hmem, -⟩ := h.typed
  cases hmem

/-- The model of a script without functions and loops, with counts. -/
theorem ScriptBuiltFor.balanced (h : ScriptBuiltFor t script n) (hfile : n.IsBuiltFile t)
    (htyped : n.WellTypedFile) (noFunctions : script.functions = [])
    (noLoops : ∀ s ∈ script.nodes, s.kind.isLoop = false) : n.counted.Balanced := by
  obtain ⟨vars, funcs, b, rfl, -, hmain⟩ := hfile
  cases h with
  | intro _ functions _ _ _ statements stats main =>
    rw [noFunctions] at functions
    cases functions
    obtain ⟨-, _, ⟨⟩, hsound⟩ := htyped
    have hcalls : (block b).All fun n => isCall n = false :=
      (hsound.inside _ (.head _)).imp fun _ => Sound.not_call
    have hbalanced := hmain.balanced fun s hs => by
      refine ⟨hcalls.inside s (mem_child_of_stat hs), ?_⟩
      rw [stats] at hs
      obtain ⟨p, hp, rfl⟩ := mem_map.mp hs
      refine ⟨_, _, main p hp, fun c hc => noLoops c ?_⟩
      have hitem := Script.mem_statements.mp (statements ▸ mem_map_of_mem hp)
      exact mem_flatMap.mpr ⟨_, hitem, hc⟩
    refine .over rfl rfl (forall_mem_append.mpr ⟨?_, forall_mem_singleton.mpr hbalanced⟩)
    exact forall_mem_map.mpr (forall_mem_map.mpr fun _ _ => .of_counts rfl)

end Scripts

/-- **Counts balance.**  In the counted code of a script without errors, functions and loops there
are as many nodes that take a reference to a slot as nodes that give one up, for every slot. -/
theorem counts_balance (source : String) (report : Report)
    (h : (ofSource source report).report.hasErrors = false)
    (noFunctions : (ofSource source report).script.functions = [])
    (noLoops : ∀ s ∈ (ofSource source report).script.nodes, s.kind.isLoop = false) :
    ∃ model, Node.ofScript (ofSource source report).script
        (ofSource source report).table = .ok model ∧
      (model.inject (ofSource source report).table).Balanced := by
  obtain ⟨base, hacc⟩ := accepted h
  have hresolved := resolved h
  obtain ⟨model, hmodel, hfile, hbuilt, -⟩ := hacc.builtFor
  have htyped := hbuilt.wellTyped hacc.scriptReady hresolved
  refine ⟨model, hmodel, ?_⟩
  rw [inject_eq_counted hacc.typed.wellFormed hfile]
  exact hbuilt.balanced hfile htyped noFunctions noLoops

/-- A script with conditionals, blocks that reuse names and operators that guard their operands. -/
def straightLine : String :=
  "var s = \"a\"\nvar v = [1, 2]\n" ++
  "if (s + \"b\" == \"ab\" && v * 2 == v) \x7b var u = s + s s = u \x7d\n" ++
  "else \x7b var u = [1] + v v = u print(u) \x7d\n\x7b var u = \"c\" s = s + u \x7d\n" ++
  "print(s == \"x\" || v + 1 == [2] && s != \"y\" + s)\n"

set_option maxRecDepth 20000 in
/-- The straight script is accepted, and its counts balance. -/
theorem counts_balance_straightLine : ∃ model, Node.ofScript (ofSource straightLine {}).script
        (ofSource straightLine {}).table = .ok model ∧
      (model.inject (ofSource straightLine {}).table).Balanced :=
  have hstraight : (ofSource straightLine {}).report.hasErrors = false ∧
      (ofSource straightLine {}).script.functions = [] ∧
      ∀ s ∈ (ofSource straightLine {}).script.nodes, s.kind.isLoop = false := by
    decide +kernel
  counts_balance straightLine {} hstraight.1 hstraight.2.1 hstraight.2.2

end WichToC
