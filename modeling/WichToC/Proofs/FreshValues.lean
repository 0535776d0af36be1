import WichToC.Proofs.Sweeps

/-!
# New heap values have slots

A string or a vector that an expression makes belongs to nobody until a slot holds it.  In counted
code each of them is given to a temporary or a variable at once: `Node.KeepsValues` says so of one
node, and that a temporary takes a reference right after it was given a value that came without one.

This follows from the shape of setups and of the nodes after them: a settled expression reads what
lives on the heap from a slot, and an operation on settled operands that makes a heap value stands
only where it is given to one.  The main statement is `fresh_values_held`.
-/

namespace WichToC

open List Counting Node Analysis Option

variable {n c : Node} {ns' cs code rest : List Node} {setup s : Setup} {sweep slots : List String}
    {b : CBlock Node} {kind : CountKind}

/-- The kinds of expressions that make a new value if it lives on the heap. -/
def Kind.allocates : Kind → Bool
  | stringLiteral | vectorLiteral | funcCall | strBinary | vectorBinary | negateExpr | strIndex
  | intToVector | floatToVector => true
  | _ => false

namespace Node

/-- The node gives a temporary or a variable the value of an expression.  What a call returns is
given to temporaries only. -/
def Holds : Node → Node → Prop
  | tempDef _ _ _ expr, value => expr = some value
  | varDef _ _ expr, value => expr = some value ∧ value.kind ≠ .funcCall
  | _, _ => False

/-- The heap temporary that a node gives a value other than the result of a call. -/
def takes? : Node → Option String
  | tempDef name ty _ expr => if ty.isHeap && !expr.any isCall then some name else none
  | _ => none

/-- The statements of a block. -/
def statements : Node → List Node
  | block b => b.stats
  | _ => []

/-- The children of a node that are no statements of a block. -/
def others : Node → List Node
  | block b => b.locals.map Prod.snd ++ b.temps.map Prod.snd ++ b.cleanup
  | n => n.children

/-- A temporary that is given a heap value, other than the result of a call, takes a reference in
the next statement. -/
def Referred (ns : List Node) : Prop :=
  ∀ before n after name, ns = before ++ n :: after → n.takes? = some name →
    after.head? = some (.refer name)

/-- New heap values below a node are given to slots. -/
structure KeepsValues (n : Node) : Prop where
  unbound : n.kind ≠ .bind
  held : ∀ c ∈ n.children, c.isHeap = true →
    c.kind = .varRef ∨ c.kind.allocates = true ∧ n.Holds c
  /-- Temporaries are given values by the statements of blocks. -/
  elsewhere : ∀ c ∈ n.others, c.kind ≠ .tempVarDef
  referred : Referred n.statements

end Node

namespace Node

variable {ns : List Node}

theorem Referred.nil : Referred [] := by
  intro before n after name heq
  simp at heq

theorem Referred.cons
    (hn : ∀ name, n.takes? = some name → ns.head? = some (.refer name)) (hns : Referred ns) :
    Referred (n :: ns) := by
  intro before m after name heq hm
  cases before with
  | nil =>
    cases heq
    exact hn name hm
  | cons d before =>
    cases heq
    exact hns before m after name rfl hm

theorem Referred.of_none (h : ∀ n ∈ ns, n.takes? = none) : Referred ns := by
  intro before n after name heq hn
  grind

theorem Referred.append (h : Referred ns) (h' : Referred ns') : Referred (ns ++ ns') := by
  intro before n after name heq hn
  rcases append_eq_append_cons heq with ⟨rest, rfl⟩ | ⟨rest, rfl, hns'⟩
  · obtain rfl : rest ++ ns' = after := by simpa using heq
    have hhead := h before n rest name rfl hn
    grind
  · exact h' rest n after name hns' hn

end Node

/-! ## Expressions -/

section Exprs

variable {t : Table} {n e : Node}

theorem allocates_of_makesValue (h : makesValue n = true) : n.kind.allocates = true := by
  cases n with
  | literal kind | binary kind | unary kind | index kind | widen kind =>
    cases kind <;> first | rfl | cases h
  | vectorLit | call => rfl
  | _ => cases h

/-- A node over nodes that give no temporary a value and need no slot, or are given to one by it. -/
theorem keepsValues_of_children (hkind : n.kind ≠ .block ∧ n.kind ≠ .bind)
    (hcs : ∀ c ∈ n.children, c.kind ≠ .tempVarDef)
    (hheld : ∀ c ∈ n.children, c.isHeap = true →
      c.kind = .varRef ∨ c.kind.allocates = true ∧ n.Holds c) : KeepsValues n := by
  have hothers : n.others = n.children ∧ n.statements = [] := by
    cases n <;> first | exact absurd rfl hkind.1 | exact ⟨rfl, rfl⟩
  exact ⟨hkind.2, hheld, hothers.1 ▸ hcs, hothers.2 ▸ .nil⟩

theorem keepsValues_of_settled (hop : n.isOperation = true) (h : ∀ c ∈ n.children, c.Settled) :
    KeepsValues n := by
  obtain ⟨hblock, -, hbind⟩ := kinds_of_isOperation hop
  exact keepsValues_of_children ⟨hblock, hbind⟩
    (fun c hc => (kinds_of_isOperation (h c hc).here.1).2.1)
    fun c hc hheap => .inl ((h c hc).here.2 hheap)

theorem Node.Settled.keepsValues (h : n.Settled) : n.All KeepsValues := by
  induction h with
  | intro here inside ih => exact .intro (keepsValues_of_settled here.1 inside) ih

/-- A statement over one expression. -/
theorem keepsValues_stat (hkind : n.kind ≠ .block ∧ n.kind ≠ .bind) (hn : n.children = [e])
    (he : e.OverSettled) (hheld : e.isHeap = true → e.kind ≠ .varRef → n.Holds e) :
    n.All KeepsValues := by
  have hall : e.All KeepsValues := .intro (keepsValues_of_settled he.operation he.operands)
    fun c hc => (he.operands c hc).keepsValues
  refine .of_children (keepsValues_of_children hkind ?_ ?_) hn (forall_mem_singleton.mpr hall)
  · exact hn ▸ forall_mem_singleton.mpr (kinds_of_isOperation he.operation).2.1
  · refine hn ▸ forall_mem_singleton.mpr fun hheap => ?_
    by_cases hvar : e.kind = .varRef
    · exact .inl hvar
    · exact .inr ⟨allocates_of_makesValue ((he.made hheap).resolve_left hvar), hheld hheap hvar⟩

theorem keepsValues_leaf (hkind : n.kind ≠ .block ∧ n.kind ≠ .bind) (hn : n.children = []) :
    n.All KeepsValues :=
  .of_children (keepsValues_of_children hkind (hn ▸ forall_mem_nil _) (hn ▸ forall_mem_nil _)) hn
    nofun

theorem keepsValues_count {slot : String} : (count kind slot).All KeepsValues :=
  keepsValues_leaf (by cases kind <;> exact ⟨nofun, nofun⟩) rfl

end Exprs

/-! ## Statements -/

/-- Statements whose heap values stand in slots. -/
structure SlottedStats (ns : List Node) : Prop where
  nodes : ∀ n ∈ ns, n.All KeepsValues
  isHeap : ∀ n ∈ ns, n.isHeap = false
  referred : Referred ns

namespace SlottedStats

variable {ns ns' : List Node}

theorem append (h : SlottedStats ns) (h' : SlottedStats ns') : SlottedStats (ns ++ ns') :=
  ⟨forall_mem_append.mpr ⟨h.nodes, h'.nodes⟩, forall_mem_append.mpr ⟨h.isHeap, h'.isHeap⟩,
    h.referred.append h'.referred⟩

/-- Statements that give no temporary a value. -/
theorem of_forall (h : ∀ n ∈ ns, n.All KeepsValues ∧ n.isHeap = false ∧ n.takes? = none) :
    SlottedStats ns :=
  ⟨fun n hn => (h n hn).1, fun n hn => (h n hn).2.1, .of_none fun n hn => (h n hn).2.2⟩

theorem nil : SlottedStats [] := of_forall nofun

theorem single (hn : n.All KeepsValues) (hheap : n.isHeap = false) (htakes : n.takes? = none) :
    SlottedStats [n] :=
  of_forall (forall_mem_singleton.mpr ⟨hn, hheap, htakes⟩)

theorem counts (slots : List String) : SlottedStats (slots.map (count kind)) :=
  of_forall (forall_mem_map.mpr fun _ _ => ⟨keepsValues_count, rfl, rfl⟩)

end SlottedStats

theorem keepsValues_varDecl {name : String} {ty : Ty} {isTemp : Bool} :
    (varDecl name ty isTemp).All KeepsValues :=
  keepsValues_leaf ⟨nofun, nofun⟩ rfl

/-- A block of statements whose heap values stand in slots. -/
theorem keepsValues_block
    (hdecls : ∀ p ∈ b.locals ++ b.temps, ∃ name ty isTemp, p.2 = .varDecl name ty isTemp)
    (hstats : SlottedStats b.stats) (hcleanup : b.cleanup = releases slots) :
    (block b).All KeepsValues := by
  have hcleanup : SlottedStats b.cleanup ∧ ∀ c ∈ b.cleanup, c.kind ≠ .tempVarDef := by
    rw [hcleanup]
    exact ⟨.counts slots, forall_mem_map.mpr fun _ _ => nofun⟩
  have hdecl : ∀ c ∈ (b.locals ++ b.temps).map Prod.snd,
      c.All KeepsValues ∧ c.isHeap = false ∧ c.kind ≠ .tempVarDef := by
    intro c hc
    obtain ⟨p, hp, rfl⟩ := mem_map.mp hc
    obtain ⟨name, ty, isTemp, heq⟩ := hdecls p hp
    rw [heq]
    exact ⟨keepsValues_varDecl, rfl, nofun⟩
  have hchildren := children_block b
  refine .of_children ⟨nofun, fun c hc hheap => ?_, fun c hc => ?_, hstats.referred⟩ hchildren
    (forall_mem_append.mpr ⟨fun c hc => (hdecl c hc).1,
      forall_mem_append.mpr ⟨hstats.nodes, hcleanup.1.nodes⟩⟩)
  · -- neither a declaration nor a statement is a heap value
    have hno : ∀ c ∈ (block b).children, c.isHeap = false := hchildren ▸
      forall_mem_append.mpr ⟨fun c hc => (hdecl c hc).2.1,
        forall_mem_append.mpr ⟨hstats.isHeap, hcleanup.1.isHeap⟩⟩
    rw [hno c hc] at hheap
    cases hheap
  · rcases mem_append.mp hc with hc | hc
    · exact (hdecl c (by rwa [map_append])).2.2
    · exact hcleanup.2 c hc

/-- A statement over conditions and blocks. -/
theorem SlottedStats.over (cs : List Node) (bs : List (CBlock Node))
    (hkind : n.kind ≠ .block ∧ n.kind ≠ .bind) (hheap : n.isHeap = false) (htakes : n.takes? = none)
    (hn : n.children = cs ++ bs.map block) (hcs : ∀ c ∈ cs, c.Settled)
    (hbs : ∀ b ∈ bs, (block b).All KeepsValues) : SlottedStats [n] := by
  refine .single (.of_children (keepsValues_of_children hkind ?_ ?_) hn (forall_mem_append.mpr
    ⟨fun c hc => (hcs c hc).keepsValues, forall_mem_map.mpr hbs⟩)) hheap htakes
  · exact hn ▸ forall_mem_append.mpr
      ⟨fun c hc => (kinds_of_isOperation (hcs c hc).here.1).2.1,
        forall_mem_map.mpr fun b _ => nofun⟩
  · exact hn ▸ forall_mem_append.mpr
      ⟨fun c hc hheap => .inl ((hcs c hc).here.2 hheap), forall_mem_map.mpr fun b _ => nofun⟩

namespace Counting

variable {t : Table} {returns : Bool} {n : Node} {b : CBlock Node}

/-- **Setups** give their values to temporaries. -/
theorem Prepared.slotted (h : Prepared s) : SlottedStats s.stats := by
  induction h with
  | nil => exact .nil
  | append _ _ _ iha ihb => exact iha.append ihb
  | @define name ty value adopts operation adopted =>
    have hdef : (tempDef name ty true (some value)).All KeepsValues :=
      keepsValues_stat ⟨by rintro ⟨⟩, by rintro ⟨⟩⟩ rfl operation fun _ _ => rfl
    have hrefer : SlottedStats (if ty.isHeap && !adopts then [.refer name] else []) := by
      split
      · exact .single keepsValues_count rfl rfl
      · exact .nil
    refine ⟨forall_mem_cons.mpr ⟨hdef, hrefer.nodes⟩,
      forall_mem_cons.mpr ⟨rfl, hrefer.isHeap⟩, .cons (fun x hx => ?_) hrefer.referred⟩
    -- a heap value that is not adopted does not come from a call
    simp only [takes?, any_some, Bool.and_eq_true, ite_none_right_eq_some,
      some.injEq] at hx
    grind
  | @guarded op temp inner right setup settled ih =>
    rw [Setup.ofStats, rightOperand_eq]
    refine .single (all_of_ifStat ?_ (settled_guard op temp).keepsValues
      (keepsValues_block (fun p hp => ?_) (ih.append ?_) inner.releases_eq)) rfl rfl
    · refine keepsValues_of_children ⟨by rintro ⟨⟩, by rintro ⟨⟩⟩ (fun c hc => ?_)
        fun c hc hheap => ?_
      all_goals
        rcases (show c = guard op temp ∨ c = .block (guardBlock temp inner right) by
          simpa [children] using hc) with rfl | rfl
      · exact (kinds_of_isOperation (settled_guard op temp).here.1).2.1
      · rintro ⟨⟩
      · exact .inl ((settled_guard op temp).here.2 hheap)
      · cases hheap
    · have hp : p ∈ insertEntries [] inner.decls ++ [] := hp
      rw [append_nil] at hp
      rcases mem_insertEntries hp with hnone | hp
      · cases hnone
      · obtain ⟨q, -, rfl⟩ := mem_map.mp hp
        exact ⟨_, _, _, rfl⟩
    · exact .single (keepsValues_stat ⟨by rintro ⟨⟩, by rintro ⟨⟩⟩ rfl settled.overSettled
        fun hheap hvar => absurd (settled.here.2 hheap) hvar) rfl rfl

theorem isCall_of_kind (h : n.kind = .funcCall) : isCall n = true := by
  cases n with
  | call => rfl
  | literal kind | binary kind | unary kind | index kind | widen kind | count kind =>
    cases kind <;> cases h
  | _ => cases h

theorem Plain.slotted (h : Plain n) : n.All KeepsValues ∧ n.isHeap = false ∧ n.takes? = none := by
  cases h with
  | varDef _ settled | assign _ settled | printStat settled =>
    exact ⟨keepsValues_stat ⟨nofun, nofun⟩ rfl settled.overSettled fun hheap hvar =>
      absurd (settled.here.2 hheap) hvar, rfl, rfl⟩
  | elementAssign place settled =>
    refine ⟨.of_children (keepsValues_of_children ⟨nofun, nofun⟩ ?_ ?_) rfl
      (forall_mem_pair.mpr ⟨place.keepsValues, settled.keepsValues⟩), rfl, rfl⟩
    · exact forall_mem_pair.mpr ⟨(kinds_of_isOperation place.here.1).2.1,
        (kinds_of_isOperation settled.here.1).2.1⟩
    · exact forall_mem_pair.mpr ⟨fun hheap => .inl (place.here.2 hheap),
        fun hheap => .inl (settled.here.2 hheap)⟩
  | printNothing => exact ⟨keepsValues_leaf ⟨nofun, nofun⟩ rfl, rfl, rfl⟩
  | callStat heap operation =>
    refine ⟨keepsValues_stat ⟨nofun, nofun⟩ rfl operation fun hheap => ?_, rfl, rfl⟩
    rw [heap] at hheap
    cases hheap

/-- What follows the setup of a statement without blocks. -/
theorem Leaf.slotted (h : Leaf t returns setup rest)
    (sweep : List String) : SlottedStats (beforeReturns (releases sweep) rest) := by
  have htemp : ∀ {n : Node} {name : String} {ty : Ty}, n.kind ≠ .block ∧ n.kind ≠ .bind →
      n.children = [.temp name ty] → n.All KeepsValues := fun hkind hn =>
    keepsValues_stat hkind hn (settled_temp _ _).overSettled fun _ hvar => absurd rfl hvar
  suffices hrest : ∀ n ∈ rest, n.All KeepsValues ∧ n.isHeap = false ∧ n.takes? = none by
    refine .of_forall fun n hn => (mem_beforeReturns hn).elim (fun hn => ?_) (hrest n)
    obtain ⟨slot, -, rfl⟩ := mem_map.mp hn
    exact ⟨keepsValues_count, rfl, rfl⟩
  cases h with
  | nothing => exact nofun
  | plain plain => exact forall_mem_singleton.mpr plain.slotted
  | @define _ name ty e varName heap operation owned =>
    have hholds : (varDef name ty (some e)).Holds e := by
      refine ⟨rfl, fun hkind => ?_⟩
      rw [isCall_of_kind hkind] at owned
      cases owned
    exact forall_mem_pair.mpr
      ⟨⟨keepsValues_stat ⟨nofun, nofun⟩ rfl operation fun _ _ => hholds, rfl, rfl⟩,
      ⟨keepsValues_count, rfl, rfl⟩⟩
  | assign =>
    exact forall_mem_cons.mpr ⟨⟨keepsValues_count, rfl, rfl⟩,
      forall_mem_pair.mpr ⟨⟨htemp ⟨nofun, nofun⟩ rfl, rfl, rfl⟩, ⟨keepsValues_count, rfl, rfl⟩⟩⟩
  | returnHeap =>
    exact forall_mem_pair.mpr ⟨⟨keepsValues_count, rfl, rfl⟩,
      ⟨htemp ⟨nofun, nofun⟩ rfl, rfl, rfl⟩⟩
  | returnPlain => exact forall_mem_singleton.mpr ⟨htemp ⟨nofun, nofun⟩ rfl, rfl, rfl⟩

/-! ## Blocks -/

theorem slotted_loopStart (hc : Hoisted c (hoist c)) : SlottedStats (loopStart c).stats := by
  unfold loopStart
  split
  · exact .nil
  · have hexit : SlottedStats (releases (heapNames (hoist c).1.temps).reverse ++ [.breakStat]) :=
      .append (.counts _) (.single (keepsValues_leaf ⟨nofun, nofun⟩ rfl) rfl rfl)
    rw [← Setup.releases_eq] at hexit
    have hnot : (unary .not .boolean "" (some (hoist c).2)).Settled :=
      .of_children ⟨rfl, nofun⟩ rfl (forall_mem_singleton.mpr hc.settled)
    refine hc.prepared.slotted.append ?_
    exact .over [_] [{ stats := (hoist c).1.releases ++ [.breakStat], injected := true }]
      ⟨nofun, nofun⟩ rfl rfl rfl (forall_mem_singleton.mpr hnot) (forall_mem_singleton.mpr
        (keepsValues_block nofun hexit (show _ = releases [] from rfl)))

theorem keepsValues_countBlock {start : Setup} {outer : List String} (h : b.Uncounted)
    (hstart : SlottedStats start.stats)
    (hstats : ∀ s ∈ b.stats, ∀ sweep, SlottedStats (codeOf sweep s)) :
    (block (countBlock start outer b)).All KeepsValues := by
  have hcodes : ∀ sweep, SlottedStats (codesOf sweep b.stats) := by
    intro sweep
    rw [codesOf_eq_flatMap]
    generalize b.stats = ss at hstats
    induction ss with
    | nil => exact .nil
    | cons s ss ih =>
      obtain ⟨hs, hss⟩ := forall_mem_cons.mp hstats
      exact (hs sweep).append (ih hss)
  obtain ⟨slots, hcleanup⟩ : ∃ slots, (countBlock start outer b).cleanup = releases slots := by
    rw [cleanup_countBlock]
    split
    · exact ⟨[], rfl⟩
    · exact ⟨_, rfl⟩
  exact keepsValues_block (decls_countBlock h) (hstart.append (hcodes _)) hcleanup

/-- The code of a block keeps its values, whatever it starts with. -/
def CountsNeatly (b : CBlock Node) : Prop :=
  ∀ (start : Setup) (outer : List String), SlottedStats start.stats →
    (block (countBlock start outer b)).All KeepsValues

/-- **The code of statements** gives its heap values to slots. -/
theorem BuiltStat.slotted {nest : Nest} {s : Node} (h : BuiltStat t returns nest s)
    (hreserves : ReservesTemps t s) : ∀ sweep, SlottedStats (codeOf sweep s) := by
  refine BuiltStat.lowering (S := fun _ s => ∀ sweep, SlottedStats (codeOf sweep s))
    (B := fun _ => CountsNeatly) ?leaf ?ifStat ?whileStat ?blockStat ?inner ?block h hreserves
  case leaf =>
    intro nest s setup rest hleaf _ _ sweep
    rw [hleaf.codeOf_eq]
    exact hleaf.lowers.prepared.slotted.append (hleaf.leaf.slotted sweep)
  case ifStat =>
    intro nest c b other _ hcond _ hb hother sweep
    rw [codeOf_ifStat, branchOf_block, branchOf_map]
    refine hcond.prepared.slotted.append ?_
    refine .over [(hoist c).2] (countBlock {} sweep b :: (other.map (countBlock {} sweep)).toList)
      ⟨nofun, nofun⟩ rfl rfl (by cases other <;> rfl) (forall_mem_singleton.mpr hcond.settled)
      (forall_mem_cons.mpr ⟨hb {} sweep .nil, fun d hd => ?_⟩)
    obtain ⟨b', rfl, rfl⟩ := map_eq_some_iff.mp (mem_toList.mp hd)
    exact hother b' rfl {} sweep .nil
  case whileStat =>
    intro nest c b _ hcond _ hb sweep
    rw [codeOf_whileStat, branchOf_block]
    exact .over [loopCond c] [countBlock (loopStart c) sweep b] ⟨nofun, nofun⟩ rfl rfl rfl
      (forall_mem_singleton.mpr (settled_loopCond hcond))
      (forall_mem_singleton.mpr (hb _ sweep (slotted_loopStart hcond)))
  case blockStat =>
    intro nest b hb sweep
    rw [codeOf_blockStat, branchOf_block]
    exact .over [] [countBlock {} sweep b] ⟨nofun, nofun⟩ rfl rfl rfl nofun
      (forall_mem_singleton.mpr (hb {} sweep .nil))
  case inner =>
    intro nest b hb sweep
    rw [codeOf_block]
    exact .single (hb {} sweep .nil) rfl rfl
  case block =>
    exact fun shape _ ih start outer hstart => keepsValues_countBlock shape.uncounted hstart ih

/-! ## Functions and files -/

/-- A node over blocks, functions and declarations. -/
theorem keepsValues_over (hkind : n.kind ≠ .block ∧ n.kind ≠ .bind) (hn : n.children = cs)
    (hcs : ∀ c ∈ cs, c.isHeap = false ∧ c.kind ≠ .tempVarDef ∧ c.All KeepsValues) :
    n.All KeepsValues := by
  refine .of_children (keepsValues_of_children hkind ?_ ?_) hn fun c hc => (hcs c hc).2.2
  · exact hn ▸ fun c hc => (hcs c hc).2.1
  · grind

end Counting

section Files

variable {t : Table}

theorem Node.IsBuiltFunc.keeps (h : n.IsBuiltFunc t) : (countFunc n).All KeepsValues := by
  obtain ⟨head, params, scope, vars, b, rfl, h⟩ := h
  refine keepsValues_over ⟨nofun, nofun⟩ rfl (forall_mem_append.mpr ⟨?_, ?_⟩)
  · exact forall_mem_map.mpr fun p _ => ⟨rfl, by simp [kind], keepsValues_leaf (by simp [kind]) rfl⟩
  · refine forall_mem_singleton.mpr ⟨rfl, nofun, keepsValues_countBlock h.body.uncounted (.counts _)
      fun s hs => ?_⟩
    exact BuiltStat.slotted (h.stats s hs) ((Scoped.ofFunc h).child hs)

theorem BuiltMain.keeps {vars : List (String × Ty)} (h : BuiltMain t vars b)
    (globals : List String) :
    (countMain globals (.mainFunc (some (.block b)))).All KeepsValues := by
  refine keepsValues_over ⟨nofun, nofun⟩ rfl (forall_mem_singleton.mpr
    ⟨rfl, nofun, keepsValues_countBlock h.uncounted .nil fun s hs => ?_⟩)
  exact BuiltStat.slotted (h.stats s hs) ((Scoped.ofMain h).child hs)

theorem Node.IsBuiltFile.keeps (h : n.IsBuiltFile t) : n.counted.All KeepsValues := by
  obtain ⟨vars, funcs, b, rfl, hfuncs, hmain⟩ := h
  refine keepsValues_over ⟨by rintro ⟨⟩, by rintro ⟨⟩⟩ rfl (forall_mem_append.mpr
    ⟨forall_mem_map.mpr ?_, forall_mem_append.mpr ⟨forall_mem_map.mpr fun f hf => ?_,
      forall_mem_singleton.mpr ⟨rfl, by rintro ⟨⟩, hmain.keeps _⟩⟩⟩)
  · exact forall_mem_map.mpr fun p _ => ⟨rfl, by simp [kind, Build.declOf], keepsValues_varDecl⟩
  · have hkeeps := (hfuncs f hf).keeps
    obtain ⟨head, params, scope, vars, b, rfl, -⟩ := hfuncs f hf
    exact ⟨rfl, by rintro ⟨⟩, hkeeps⟩

end Files

/-- **New heap values have slots.**  In the counted code of a script without errors nothing is bound
any more.  An expression whose value lives on the heap is read from a variable, or it is an
operation that allocates and stands as the whole value of a temporary or, unless it is a call, of a
variable.  A heap temporary that is given any other value than the result of a call takes a
reference in the next statement. -/
theorem fresh_values_held (source : String) (report : Report)
    (h : (ofSource source report).report.hasErrors = false) :
    ∃ model, ofScript (ofSource source report).script
        (ofSource source report).table = .ok model ∧
      (model.inject (ofSource source report).table).All KeepsValues := by
  obtain ⟨base, hacc⟩ := accepted h
  obtain ⟨model, hmodel, hshape⟩ := hacc.ofScript
  refine ⟨model, hmodel, ?_⟩
  rw [inject_eq_counted hacc.typed.wellFormed hshape]
  exact hshape.keeps

/-- A script with new heap values in every place that an expression can have. -/
def valuesEverywhere : String :=
  "func f(s : string) : string \x7b\n" ++
  "  if (s == \"a\" + s && len(s + f(\"b\")) > 1) \x7b return s[1] + \"c\" \x7d\n" ++
  "  return f(s)\n\x7d\n" ++
  "var v = -([1, 2] + 3) * 2\nv[len(\"x\" + f(\"y\"))] = 1.5\nvar w = f(\"z\")\n" ++
  "while (len(v + 1) > 2 || w == f(w + \"u\")) \x7b v = 1 - v\n print(v / 2)\n f(\"t\") \x7d\n"

set_option maxRecDepth 20000 in
/-- The script with new values in all places is accepted, and its counted code gives them to
slots. -/
theorem fresh_values_held_valuesEverywhere :
    (ofSource valuesEverywhere {}).report.hasErrors = false ∧
      ∃ model, ofScript (ofSource valuesEverywhere {}).script
          (ofSource valuesEverywhere {}).table = .ok model ∧
        (model.inject (ofSource valuesEverywhere {}).table).All KeepsValues :=
  have haccepted : (ofSource valuesEverywhere {}).report.hasErrors = false := by
    decide +kernel
  ⟨haccepted, fresh_values_held valuesEverywhere {} haccepted⟩

end WichToC
