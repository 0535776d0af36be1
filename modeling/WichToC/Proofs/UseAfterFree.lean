import WichToC.Proofs.Keeping
import WichToC.Proofs.Ownership

/-!
# Use after free

`no_use_after_free` says that in the executions of a translated script no object is used after it
was freed.  There is one exception: a global variable gets another value while an object that was
read from it is waiting to be used.

The proof follows the code: what the statements of a block keep, what a block keeps that releases
its slots at the end, and what all built statements keep, by induction.  The calls of functions are
sound by induction on their depth.
-/

namespace WichToC

open List Counting Analysis Machine Cells Build Option Prod Node

variable {rest ss funcs : List Node} {sweep : List String} {scope : ScopeId}
    {params vars : List (String × Ty)} {b : CBlock Node}

namespace Machine

section Statements

variable {call : CallRel} {waiting : Waiting} {Q : Outcome → Cells → Memory → Prop} {cells : Cells}
  {m : Memory} {o reserve k : Nat} {t : Table} {returns : Bool} {nest : Nest} {start : Setup}
  {outer : List String} {b : CBlock Node} {vars : List (String × Ty)}

/-! ## Statements -/

/-- A statement without blocks: after its setup it stores a value, or it returns. -/
theorem leaf_ensures (hcall : CallSound o call) {s : Node} {setup : Setup}
    (h : LeafStat t returns s setup rest) (hreserves : ReservesTemps t s)
    (hnodup : sweep.Nodup) (hsub : returns = true → sweep ⊆ cells.names)
    (hm : Backed o reserve cells m) :
    Ensures o call waiting (.stats (codeOf sweep s)) (Keeps o reserve) cells m := by
  rw [h.codeOf_eq]
  refine ensures_append hcall
    (prepared_ensures hcall h.lowers.prepared hm fun cells₁ m₁ hm₁ hnames => ?_)
  rw [← hnames] at hsub
  cases h.leaf with
  | nothing => exact ensures_nil hm₁.live hm₁
  | plain plain =>
    rw [beforeReturns_eq (forall_mem_singleton.mpr plain.simple.2)]
    exact ensures_single (ensures_plain hcall plain hm₁ fun _ _ h => h)
  | define _ _ operation _ => exact ensures_taken hcall .varDef operation hm₁ fun _ _ h => h
  | @assign _ name capture holder ty holderTy varName heap held =>
    refine ensures_assigned hcall (IsTemp.ne ?_ varName) hm₁ fun _ _ h => h
    exact hreserves.isTemp holder (h.lowers.reserved holder (mem_used_of_heap held))
  | @returnHeap _ ty holderTy capture holder allowed heap _ =>
    rw [← singleton_append, beforeReturns_append, beforeReturns_returnStat]
    have halive : Alive o m₁ (m₁.get cells₁ holder) := hm₁.alive fun ho => by
      rw [get_eq] at ho
      exact holds_pos_of_get ho
    have hafter := Covers.refer hm₁ halive
    refine ensures_append hcall (ensures_single (ensures_refer hm₁.live hafter.live fun _ => ?_))
    refine ensures_return hcall hnodup (hsub allowed) (fun _ => heap) ?_
    rw [Backed, globals_refer, get_congr (globals_refer ..)]
    refine hafter.mono ?_
    have hle := owing_typed_le o holderTy (m₁.get cells₁ holder)
    omega
  | @returnPlain before ty capture e allowed heap =>
    rw [beforeReturns_returnStat]
    refine ensures_return hcall hnodup (hsub allowed) id (hm₁.mono ?_)
    rw [typed, if_neg (by simp [heap]), owing_none]
    exact Nat.le_refl _

/-- A statement keeps what the cells own. -/
def StatKeeps (t : Table) (returns : Bool) (nest : Nest) (s : Node) : Prop :=
  ∀ {o call waiting reserve sweep cells m}, CallSound o call → Fits t nest (innerReserved s) sweep →
    (returns = true → ∀ x ∈ sweep, x ∈ names cells) → Backed o reserve cells m →
      Ensures o call waiting (.stats (codeOf sweep s)) (Keeps o reserve) cells m

theorem codes_ensures (hcall : CallSound o call)
    (hstats : ∀ s ∈ ss, StatKeeps t returns nest s)
    (hfits : Fits t nest (ss.flatMap innerReserved) sweep)
    (hsub : returns = true → sweep ⊆ cells.names) (hm : Backed o reserve cells m) :
    Ensures o call waiting (.stats (codesOf sweep ss)) (Keeps o reserve) cells m := by
  induction ss generalizing cells m with
  | nil =>
    rw [codesOf]
    exact ensures_nil hm.live hm
  | cons s ss ih =>
    have hs := mem_cons_self (a := s) (l := ss)
    rw [codesOf]
    refine ensures_append hcall ((hstats s hs hcall (fits_stat hfits hs) hsub hm).mono hcall
      fun out cells₁ m₁ _ _ h₁ => ?_)
    cases out with
    | next =>
      intro hnames
      exact ih (fun s' hs' => hstats s' (.tail s hs'))
        (hfits.sub fun x hx => mem_append_right _ hx) (hnames ▸ hsub) h₁
    | returned v => exact h₁
    | broke | cut => exact h₁.elim

/-! ## Blocks -/

/-- Where the code of a block ends that starts with `start`: a loop may be left, after the first `k`
cells have given up what they own. -/
def Leaves (o reserve : Nat) (start : Setup) (k : Nat) : Outcome → Cells → Memory → Prop
  | .next, cells, m => Backed o reserve cells m
  | .broke, cells, m => start.temps ≠ [] ∧ Backed o reserve (cells.drop k) m
  | .returned v, _, m => Backed o (reserve + owing o v) [] m
  | .cut, _, _ => False

theorem Backed.drop (hm : Backed o reserve cells m) (k : Nat) :
    Backed o reserve (cells.drop k) m := by
  refine Covers.mono hm ?_
  have hsplit := holds_take_drop o k cells
  rw [holds_append, holds_append]
  omega

theorem own_names (hlocals : b.locals = vars.map declOf) {x : String} (hx : x ∈ ownSlots start b) :
    x ∈ (cellsOf (countBlock start outer b)).names := by
  rw [names_cellsOf, locals_countBlock, hlocals]
  simp only [map_append, Setup.fst_decls, mem_append]
  rcases (mem_ownSlots hlocals).mp hx with hx | hx | hx
  · refine .inl (.inr ?_)
    simpa [declOf, Function.comp_def] using mem_heapNames hx
  · exact .inl (.inl (mem_heapNames hx))
  · exact .inr (mem_heapNames hx)

/-- The statements of a block, and what is to be done at its end. -/
theorem countBlock_ensures (hcall : CallSound o call)
    (hstats : ∀ s ∈ b.stats, StatKeeps t returns nest s)
    (hfits : Fits t nest (b.stats.flatMap innerReserved) (ownSlots start b ++ outer))
    (hlocals : b.locals = vars.map declOf)
    (hsub : returns = true → outer ⊆ cells.names)
    (hstart : Ensures o call waiting (.stats start.stats)
      (Leaves o reserve start (cellsOf (countBlock start outer b)).length)
      (cellsOf (countBlock start outer b) ++ cells) m)
    (hend : ∀ cells' m', cells'.names = names (cellsOf (countBlock start outer b) ++ cells) →
      Backed o reserve cells' m' →
        Ensures o call waiting (.stats (countBlock start outer b).cleanup)
        (fun out cells'' m'' =>
          Q out (cells''.drop (cellsOf (countBlock start outer b)).length) m'')
        cells' m') (hleave : ∀ out cells' m', out ≠ .next →
      Leaves o reserve start (cellsOf (countBlock start outer b)).length out cells' m' →
        Q out (cells'.drop (cellsOf (countBlock start outer b)).length) m') :
    Ensures o call waiting (.block (countBlock start outer b)) Q cells m := by
  refine ensures_block (ensures_append hcall ?_)
  rw [stats_countBlock]
  refine ensures_append hcall (hstart.mono hcall fun out cells₁ m₁ _ _ h₁ => ?_)
  cases out with
  | next =>
    intro hnames₁
    refine (codes_ensures hcall hstats hfits (fun hreturns x hx => ?_) h₁).mono hcall
      fun out cells₂ m₂ _ hnames₂ h₂ => ?_
    · rw [hnames₁, names, map_append]
      rcases mem_append.mp hx with hx | hx
      · exact mem_append_left _ (own_names hlocals hx)
      · exact mem_append_right _ (hsub hreturns hx)
    · cases out with
      | next => exact fun _ => hend cells₂ m₂ (hnames₂.trans hnames₁) h₂
      | returned v => exact hleave (.returned v) cells₂ m₂ (by simp) h₂
      | broke | cut => exact h₂.elim
  | broke => exact hleave .broke cells₁ m₁ (by simp) h₁
  | returned v => exact hleave (.returned v) cells₁ m₁ (by simp) h₁
  | cut => exact h₁.elim

/-- At the end of a block its slots give up what they own, unless it ends in a return. -/
theorem cleanup_ensures (hcall : CallSound o call)
    (hnodup : (ownSlots start b ++ if b.isFunctionBody then outer else []).Nodup)
    (hmem : ∀ x ∈ ownSlots start b ++ (if b.isFunctionBody then outer else []),
      x ∈ names (cells.take k)) (hm : Backed o reserve cells m)
    (hQ : ∀ m', Backed o reserve (cells.drop k) m' → Q .next cells m') :
    Ensures o call waiting (.stats (countBlock start outer b).cleanup) Q cells m := by
  rw [cleanup_countBlock]
  split
  · exact ensures_nil hm.live (hQ m (hm.drop k))
  · exact ensures_leave hcall hnodup hmem hm fun m' _ hm' => hQ m' hm'

/-- The condition of a loop at the start of its body. -/
theorem loopStart_ensures (hcall : CallSound o call) {cond : Node} (h : Hoisted cond (hoist cond))
    (hmem : heapNames (loopStart cond).temps ⊆ names (cells.take k))
    (hm : Backed o reserve cells m) :
    Ensures o call waiting (.stats (loopStart cond).stats)
      (Leaves o reserve (loopStart cond) k) cells m := by
  unfold loopStart at hmem ⊢
  split
  · exact ensures_nil hm.live hm
  · rename_i hsome
    rw [if_neg hsome] at hmem
    have htemps : ((hoist cond).1 ++
      Setup.ofStats [loopExit (hoist cond).1 (some (hoist cond).2)]).temps =
        (hoist cond).1.temps := append_nil _
    have hsettled : (unary .not .boolean "" (some (hoist cond).2)).Settled :=
      .intro ⟨rfl, nofun⟩ (forall_mem_singleton.mpr h.settled)
    have hslots : (heapNames (hoist cond).1.temps).reverse.Nodup :=
      nodup_reverse.mpr (h.prepared.nodup_names.sublist (heapNames_sublist _))
    refine ensures_append hcall
      (prepared_ensures hcall h.prepared hm fun cells₁ m₁ hm₁ hnames => ?_)
    refine ensures_single (ensures_ifThen hcall ((settled_yields hcall
      (forall_mem_singleton.mpr hsettled) hm₁).mono ?_))
    rintro vs m₂ ⟨hm₂, -⟩
    refine ⟨hm₂, ensures_block ?_⟩
    -- the loop is left: what the condition has filled is released
    rw [Setup.releases_eq, append_nil]
    refine ensures_append hcall (ensures_leave hcall hslots (fun x hx => ?_) hm₂ fun m₃ _ hm₃ _ =>
      ensures_single (ensures_breakStat hm₃.live ⟨fun hnil => hsome ?_, hm₃⟩))
    · rw [htemps] at hmem
      change x ∈ names (cells₁.take k)
      rw [names_take, hnames, ← names_take]
      exact hmem (mem_reverse.mp hx)
    · rw [← htemps, hnil]
      rfl

/-- A block keeps what the cells around it own, whatever it starts with. -/
def BlockKeeps (t : Table) (returns : Bool) (nest : Nest) (b : CBlock Node) : Prop :=
  ∀ {o call waiting reserve start outer cells m}, CallSound o call →
    FitsBlock t nest start b outer →
    (returns = true → ∀ x ∈ outer, x ∈ names cells) →
    Ensures o call waiting (.stats start.stats)
      (Leaves o reserve start (cellsOf (countBlock start outer b)).length)
      (cellsOf (countBlock start outer b) ++ cells) m →
    Ensures o call waiting (.block (countBlock start outer b)) (Leaves o reserve start 0) cells m

theorem builtBlock_keeps (shape : BuiltBlock t false nest scope vars b)
    (hscoped : Scoped t returns ((scope, vars.map fst) :: nest) vars b)
    (hstats : ∀ s ∈ b.stats, StatKeeps t returns ((scope, vars.map fst) :: nest) s) :
    BlockKeeps t returns nest b := by
  intro o call waiting reserve start outer cells m hcall hfits hsub hstart
  have hinner := fits_ownSlots shape hscoped hfits
  refine countBlock_ensures hcall hstats hinner shape.locals hsub hstart
    (fun cells' m' hnames hm' => ?_)
    fun out cells' m' hne h => ?_
  · refine cleanup_ensures hcall ?_ (fun x hx => ?_) hm' fun m'' hm'' => hm''
    · rw [shape.body, if_neg nofun, append_nil]
      exact (nodup_append.mp hinner.nodup).1
    · rw [shape.body, if_neg nofun, append_nil] at hx
      rw [names_take, hnames, take_names_append]
      exact own_names shape.locals hx
  · cases out with
    | next => exact absurd rfl hne
    | _ => exact h

/-- A block that does not belong to a loop. -/
theorem branch_ensures (hcall : CallSound o call)
    (hb : BlockKeeps t returns nest b) (hfits : FitsBlock t nest {} b outer)
    (hsub : returns = true → outer ⊆ cells.names) (hm : Backed o reserve cells m) :
    Ensures o call waiting (.block (countBlock {} outer b)) (Keeps o reserve) cells m := by
  have hstart : Ensures o call waiting (.stats [])
    (Leaves o reserve {} (cellsOf (countBlock {} outer b)).length)
      (cellsOf (countBlock {} outer b) ++ cells) m := ensures_nil hm.live (hm.enter _)
  refine (hb hcall hfits hsub hstart).mono hcall fun out cells' m' _ _ h => ?_
  cases out with
  | next | returned v | cut => exact h
  | broke => exact absurd rfl h.1

/-- **Statements.**  A built statement keeps what the cells own. -/
theorem builtStat_keeps {s : Node} (h : BuiltStat t returns nest s)
    (hreserves : ReservesTemps t s) :
    StatKeeps t returns nest s := by
  refine BuiltStat.lowering (S := fun nest s => StatKeeps t returns nest s)
    (B := fun nest b => BlockKeeps t returns nest b)
    ?leaf ?ifStat ?whileStat ?blockStat ?inner ?block h hreserves
  case leaf =>
    intro nest s setup rest hleaf _ hreserves o call waiting reserve sweep cells m hcall hfits hsub
      hm
    exact leaf_ensures hcall hleaf hreserves hfits.nodup hsub hm
  case ifStat =>
    intro nest cond b other _ hcond _ hb hother o call waiting reserve sweep cells m hcall hfits
      hsub hm
    rw [codeOf_ifStat, branchOf_block, branchOf_map]
    refine ensures_append hcall
      (prepared_ensures hcall hcond.prepared hm fun cells₁ m₁ hm₁ hnames => ?_)
    rw [← hnames] at hsub
    refine ensures_single (ensures_ifStat hcall ((settled_yields hcall
      (forall_mem_singleton.mpr hcond.settled) hm₁).mono ?_))
    rintro vs m₂ ⟨hm₂, -⟩
    refine ⟨hm₂, branch_ensures hcall hb (hfits.enter (.yes _)) hsub hm₂, fun d hd => ?_⟩
    obtain ⟨b', rfl, rfl⟩ := map_eq_some_iff.mp hd
    exact branch_ensures hcall (hother b' rfl) (hfits.enter (.no _ rfl)) hsub hm₂
  case whileStat =>
    intro nest cond b _ hcond hreserves hb o call waiting reserve sweep cells m hcall hfits hsub hm
    have hloop := forall_mem_singleton.mpr (settled_loopCond hcond)
    rw [codeOf_whileStat, branchOf_block]
    -- every round keeps what is known after the rounds before
    refine ensures_single (ensures_whileStat hcall
      (fun cells' m' => cells'.names = cells.names ∧ Backed o reserve cells' m')
      (fun cells' m' h => (settled_yields hcall hloop h.2).mono fun _ _ hvs => ⟨h.1, hvs.1⟩)
      (fun cells₁ m₁ h₁ => ?_) (fun _ _ h => h.2) ⟨rfl, hm⟩)
    obtain ⟨hnames₁, hm₁⟩ := h₁
    refine (hb hcall (hfits.enter (.body hcond hreserves)) (hnames₁ ▸ hsub)
      (loopStart_ensures hcall hcond (fun x hx => ?_) (hm₁.enter _))).mono hcall
      fun out cells' m' _ hnames h => ?_
    · rw [names_take, take_names_append, names_cellsOf, locals_countBlock]
      simp only [map_append, Setup.fst_decls, mem_append]
      exact .inl (.inl (mem_heapNames hx))
    · cases out with
      | next => exact ⟨hnames.trans hnames₁, h⟩
      | broke => exact h.2
      | returned v | cut => exact h
  case blockStat =>
    intro nest b hb o call waiting reserve sweep cells m hcall hfits hsub hm
    rw [codeOf_blockStat, branchOf_block]
    exact ensures_single (ensures_blockStat (branch_ensures hcall hb (hfits.enter .inner) hsub hm))
  case inner =>
    intro nest b hb o call waiting reserve sweep cells m hcall hfits hsub hm
    rw [codeOf_block]
    exact ensures_single (ensures_inner (branch_ensures hcall hb hfits.block hsub hm))
  case block => exact fun shape hscoped ih => builtBlock_keeps shape hscoped ih

end Statements

/-! ## Functions -/

section Functions

variable {t : Table} {call : CallRel} {waiting : Waiting} {m : Memory} {o reserve : Nat}
  {vs : List Value}

theorem names_passed (params : List (String × Ty)) (vs : List Value) :
    (passed (argDefs params) vs).names = params.map fst := by
  induction params generalizing vs with
  | nil => rfl
  | cons p params ih => exact congrArg (p.1 :: ·) (ih vs.tail)

theorem alive_passed (params : List (String × Ty)) (hvs : ∀ v ∈ vs, Alive o m v)
    (x : String) : Alive o m ((passed (argDefs params) vs).get x) := by
  induction params generalizing vs with
  | nil => exact alive_none
  | cons p params ih =>
    show Alive o m (get ((p.1, typed p.2 vs.head?.join) :: passed (argDefs params) vs.tail) x)
    rw [Cells.get, lookup_cons]
    split
    · refine Alive.typed ?_ p.2
      cases vs with
      | nil => exact alive_none
      | cons v vs => exact hvs v (.head _)
    · exact ih fun v hv => hvs v (mem_of_mem_tail hv)

/-- What is passed to a function is in its heap parameters. -/
theorem holds_passed_le (hnodup : (params.map fst).Nodup) {f : String → Value}
    (hf : ∀ x ∈ params.map fst, f x = (passed (argDefs params) vs).get x) (o : Nat) :
    holds o (passed (argDefs params) vs) ≤ ((heapNames params).map f).count (some o) := by
  induction params generalizing vs with
  | nil => exact Nat.zero_le _
  | cons p params ih =>
    obtain ⟨hp, hnodup⟩ := nodup_cons.mp hnodup
    have hcons : passed (argDefs (p :: params)) vs =
        (p.1, typed p.2 vs.head?.join) :: passed (argDefs params) vs.tail := rfl
    rw [hcons] at hf ⊢
    have hhead : f p.1 = typed p.2 vs.head?.join := by
      rw [hf p.1 (.head _), Cells.get, lookup_cons_self]
      rfl
    have htail : holds o (passed (argDefs params) vs.tail) ≤
        ((heapNames params).map f).count (some o) := by
      refine ih hnodup fun x hx => ?_
      rw [hf x (.tail _ hx), Cells.get, lookup_cons,
        beq_false_of_ne (ne_of_mem_of_not_mem hx hp)]
      rfl
    rw [holds_cons]
    cases hheap : p.2.isHeap with
    | false =>
      have hnames : heapNames (p :: params) = heapNames params := by simp [heapNames, hheap]
      rw [hnames, typed, hheap]
      simpa using htail
    | true =>
      have hnames : heapNames (p :: params) = p.1 :: heapNames params := by simp [heapNames, hheap]
      rw [hnames, map_cons, count_cons, hhead, owing]
      simp only [beq_iff_eq]
      omega

/-- **Functions.**  A function gives up what it owns, and its result owns a reference. -/
theorem func_ensures (hcall : CallSound o call) {head : FuncHead}
    (hfunc : BuiltFunc t head params scope vars b)
    (hm : Backed o reserve [] m) (hvs : ∀ v ∈ vs, Alive o m v) :
    Ensures o call waiting (.block (countBlock (.ofStats ((heapNames params).map refer))
      (heapNames params).reverse b)) (fun out _ m' => Keeps o reserve out [] m')
      (passed (argDefs params) vs) m := by
  set start := Setup.ofStats ((heapNames params).map refer) with hstart
  set body := countBlock start (heapNames params).reverse b with hbody
  have hscoped := Scoped.ofFunc hfunc
  have hinner := fits_ownSlots hfunc.body hscoped (params_fit hfunc)
  -- parameters are no cells of the body
  have hparam : ∀ x ∈ params.map fst, x ∉ (cellsOf body).names := by
    intro x hx hmem
    obtain ⟨p, hp, rfl⟩ := mem_map.mp hx
    rw [names_cellsOf, hbody, locals_countBlock, hfunc.body.locals, map_append, map_append,
      Setup.fst_decls, Setup.fst_decls] at hmem
    rcases mem_append.mp hmem with hmem | hmem
    · obtain ⟨d, hd, hdp⟩ := mem_map.mp hmem
      obtain ⟨q, hq, rfl⟩ := mem_map.mp hd
      exact hfunc.body.apart q hq _ (.head _) (show q.1 ∈ _ from hdp ▸ hx)
    · have htemp := hfunc.temps.isTemp p.1 (hscoped.lowered_reserved hmem)
      exact htemp.ne (hfunc.varNames p hp) rfl
  have hget : ∀ x ∈ params.map fst, m.get (cellsOf body ++ passed (argDefs params) vs) x =
      (passed (argDefs params) vs).get x := by
    intro x hx
    rw [get_eq, append_assoc, get_append_of_not_mem (hparam x hx), get_append_of_mem]
    rwa [names_passed]
  have hrefers : Ensures o call waiting (.stats start.stats)
    (Leaves o reserve start (cellsOf body).length)
      (cellsOf body ++ passed (argDefs params) vs) m := by
    refine ensures_refers hcall hm (fun x hx => ?_) fun m' hglobals hcovers => ?_
    · rw [hget x (mem_heapNames hx)]
      exact alive_passed params hvs x
    · refine Backed.enter (Covers.mono hcovers ?_) body
      have hle : holds o (passed (argDefs params) vs) ≤ ((heapNames params).map
        (m.get (cellsOf body ++ passed (argDefs params) vs))).count (some o) :=
        holds_passed_le hfunc.nodup hget o
      rw [hglobals, holds_append, nil_append]
      omega
  have hnames_params : (heapNames params).reverse ⊆ (passed (argDefs params) vs).names := by
    intro x hx
    rw [names_passed]
    exact mem_heapNames (mem_reverse.mp hx)
  refine countBlock_ensures hcall
    (fun s hs => builtStat_keeps (hfunc.stats s hs) (hscoped.child hs)) hinner
    hfunc.body.locals (fun _ => hnames_params) hrefers (fun cells' m' hnames hm' => ?_)
    fun out cells' m' hne h => ?_
  · refine cleanup_ensures hcall (k := cells'.length) ?_ (fun x hx => ?_) hm' fun m'' hm'' => ?_
    · rw [hfunc.body.body, if_pos rfl]
      exact hinner.nodup
    · rw [hfunc.body.body, if_pos rfl] at hx
      rw [take_length, hnames, names, map_append]
      rcases mem_append.mp hx with hx | hx
      · exact mem_append_left _ (own_names hfunc.body.locals hx)
      · exact mem_append_right _ (hnames_params hx)
    · rwa [drop_length] at hm''
  · cases out with
    | next => exact absurd rfl hne
    | broke => exact absurd rfl h.1
    | returned v => exact h
    | cut => exact h

/-- Calls are sound at any depth. -/
theorem calls_sound (hfuncs : ∀ f ∈ funcs, f.IsBuiltFunc t) (depth : Nat) :
    CallSound o (calls (funcs.map countFunc) depth) := by
  induction depth with
  | zero => exact ⟨calls_follow, fun h => h.elim⟩
  | succ depth ih =>
    refine ⟨calls_follow, ?_⟩
    rintro reserve name vs waiting m result m'
      ⟨head, args, b, out, cells, hmem, -, body, gives⟩ hm hvs
    obtain ⟨f, hf, hfunc⟩ := mem_map.mp hmem
    obtain ⟨head, params, scope, vars, b, rfl, hbuilt⟩ := hfuncs f hf
    rw [countFunc, heapArgs_argDefs] at hfunc
    cases hfunc
    refine (func_ensures ih hbuilt hm hvs _ _ _ body).imp fun hkeeps v hv => ?_
    cases out with
    | next =>
      obtain rfl : none = v := some.inj (gives.2.symm.trans hv)
      exact hkeeps (by simp)
    | returned w =>
      obtain rfl : w = v := some.inj (Eq.trans (Eq.symm gives) hv)
      exact hkeeps (by simp)
    | broke => exact gives.elim
    | cut => cases (show none = some v from Eq.trans (Eq.symm gives) hv)

/-- All objects are live when the main function uses them. -/
theorem main_live (hcall : CallSound o call)
    (h : BuiltMain t vars b) {out : Outcome} {cells : Cells}
    (hrun : Executes call [] (.block (countBlock {} (heapNames vars).reverse b)) []
      { globals := (vars.map declOf).map fun p => (p.1, none) } out cells m) :
    UsesLive o m.past := by
  set start : Memory := { globals := (vars.map declOf).map fun p => (p.1, none) } with hstart
  have hempty : Backed o 0 [] start := by
    refine ⟨?_, nofun, fun _ => ⟨rfl, nofun⟩, usesLive_nil⟩
    rw [nil_append, Nat.zero_add]
    refine Nat.le_of_eq (count_eq_zero.mpr fun hmem => ?_)
    simp [hstart] at hmem
  have hlocals : b.locals = map declOf [] := h.locals
  have hfits := globals_fit h
  set body := countBlock {} (heapNames vars).reverse b with hbody
  have hbegin : Ensures o call [] (.stats []) (Leaves o 0 {} (cellsOf body).length)
      (cellsOf body ++ []) start := ensures_nil hempty.live (hempty.enter body)
  have hmain : Ensures o call [] (.block body) (fun _ _ _ => True) [] start := by
    refine countBlock_ensures hcall
      (fun s hs => builtStat_keeps (h.stats s hs) ((Scoped.ofMain h).child hs)) hfits
      hlocals nofun hbegin (fun cells' m' _ hm' => ?_) fun _ _ _ _ _ => trivial
    rw [cleanup_countBlock, h.body, if_pos rfl]
    split
    · exact ensures_nil hm'.live trivial
    · have hget : m'.get cells' = Cells.get (cells' ++ m'.globals) := funext (get_eq m' cells')
      have hcovers : Covers o (0 + ((ownSlots {} b ++ (heapNames vars).reverse).map
          (m'.get cells')).count (some o)) m' := by
        refine Covers.mono hm' (Nat.add_le_add_left ?_ 0)
        rw [hget]
        exact count_get_le hfits.nodup o _
      exact ensures_releases hcall hcovers fun _ _ _ => trivial
  exact (hmain _ _ _ hrun).live

end Functions

end Machine

/-- The executions of a file use no object after it was freed, unless it was lost. -/
theorem Node.IsBuiltFile.usesLive {t : Table} {n : Node} (h : n.IsBuiltFile t) {m : Memory}
    (hm : Reaches n.counted m) (o : Nat) : UsesLive o m.past := by
  obtain ⟨vars, funcs, b, rfl, hfuncs, hmain⟩ := h
  obtain ⟨depth, out, cells, hrun⟩ := hm
  rw [slotsIn_declOf] at hrun
  exact main_live (calls_sound hfuncs depth) hmain hrun

/-- **No use after free.**  In the executions of a script without errors no object is read,
referenced, dereferenced or passed after it was freed; but if a global variable gets another value
while an object that was read from it is waiting to be used, the object may be freed before. -/
theorem no_use_after_free (source : String) (report : Report)
    (h : (ofSource source report).report.hasErrors = false) :
    ∃ model, ofScript (ofSource source report).script
        (ofSource source report).table = .ok model ∧
      ∀ m, Reaches (model.inject (ofSource source report).table) m →
        ∀ o, UsesLive o m.past := by
  obtain ⟨base, hacc⟩ := accepted h
  obtain ⟨model, hmodel, hshape⟩ := hacc.ofScript
  refine ⟨model, hmodel, fun m hm o => ?_⟩
  rw [inject_eq_counted hacc.typed.wellFormed hshape] at hm
  exact hshape.usesLive hm o

/-- A script that passes a global variable together with a call, in a recursion and in a loop. -/
def borrowedGlobal : String :=
  "var g = \"a\"\n" ++
  "func f(n : int) : int \x7b if (n == 0) \x7b print(g) return 1 \x7d return f(n - 1) \x7d\n" ++
  "func h(s : string, n : int) : string " ++
  "\x7b while (n > 0) \x7b s = s + g n = n - 1 \x7d return s \x7d\n" ++
  "g = h(g, f(2))\nprint(g)\n"

set_option maxRecDepth 20000 in
/-- The script with the borrowed variable is accepted, and its executions use nothing after it was
freed unless it was lost. -/
theorem no_use_after_free_borrowedGlobal : (ofSource borrowedGlobal {}).report.hasErrors = false ∧
      ∃ model, ofScript (ofSource borrowedGlobal {}).script
          (ofSource borrowedGlobal {}).table = .ok model ∧
        ∀ m, Reaches (model.inject (ofSource borrowedGlobal {}).table) m →
          ∀ o, UsesLive o m.past :=
  have haccepted : (ofSource borrowedGlobal {}).report.hasErrors = false := by decide +kernel
  ⟨haccepted, no_use_after_free borrowedGlobal {} haccepted⟩

/-! ## A global variable that is overwritten -/

/-- A script that passes a global variable together with a call that assigns it. -/
def overwrittenGlobal : String :=
  "var g = \"a\"\nfunc f() : int \x7b g = \"b\" return 1 \x7d\n" ++
  "func h(s : string, n : int) : int \x7b return len(s) \x7d\nh(g, f())\n"

set_option maxRecDepth 20000 in
/-- In an accepted script an object is passed to a function after it was freed. -/
theorem overwrittenGlobal_used_after_free :
    (ofSource overwrittenGlobal {}).report.hasErrors = false ∧
      ∃ model, ofScript (ofSource overwrittenGlobal {}).script
          (ofSource overwrittenGlobal {}).table = .ok model ∧
        ∃ m, Reaches (model.inject (ofSource overwrittenGlobal {}).table) m ∧
          ∃ later earlier, m.past = later ++ .use .pass 0 :: earlier ∧ .free 0 ∈ earlier := by
  refine ⟨by decide +kernel, ?_⟩
  set analysis := ofSource overwrittenGlobal {} with hanalysis
  -- the call frees the old value of the variable, which is passed and used all the same
  have hrun : ((ofScript analysis.script analysis.table).toOption.bind fun model =>
      (memoryAfter 8 2 (model.inject analysis.table)).map Memory.past) =
        some ([.free 1, .use .deref 1, .free 0, .use .deref 0, .use .read 0, .use .read 0,
          .use .ref 0] ++
          .use .pass 0 :: [.use .deref 1, .use .ref 1, .overwrite "g" 0, .use .read 1, .free 0,
            .use .deref 0, .use .ref 1, .use .read 0, .use .ref 0]) := by
    rw [hanalysis]
    decide +kernel
  obtain ⟨model, hmodel, hrun⟩ := bind_eq_some_iff.mp hrun
  obtain ⟨m, hm, hpast⟩ := map_eq_some_iff.mp hrun
  exact ⟨model, ofScript_of_toOption hmodel, m, reaches_of_memoryAfter hm, _, _, hpast,
    by decide⟩

end WichToC
