import WichToC.Proofs.Moving
import WichToC.Proofs.Walking

/-!
# Lowering statements

A built statement is lowered to a setup and the nodes after it.  For a statement without blocks
these are the nodes of a `Leaf`; a statement with blocks hoists its condition.

`BuiltStat.lowering` is induction over built statements in this form.
-/

namespace WichToC

open List Node

variable {capture : String} {b : CBlock Node}

namespace Counting

variable {t : Table} {returns : Bool} {s n e : Node} {setup : Setup} {rest : List Node} {ty : Ty}
  {name : String} {nest : Nest}

/-- The temporaries that belong to the blocks of a statement; those of the condition of a loop
belong to its body. -/
def innerReserved : Node → List String
  | .block b => (block b).reserved
  | .ifStat _ yes no => (yes.toList ++ no.toList).flatMap reserved
  | .whileStat cond body => (cond.toList ++ body.toList).flatMap reserved
  | .blockStat body => body.toList.flatMap reserved
  | _ => []

theorem mem_reserved_of_inner {x : String} (h : x ∈ innerReserved s) : x ∈ s.reserved := by
  cases s <;> first | exact h | cases h | skip
  all_goals
    rw [reserved_eq]
    simp only [innerReserved, mem_flatMap] at h
    obtain ⟨c, hc, hx⟩ := h
    refine mem_append_left _ (mem_flatMap.mpr ⟨c, ?_, hx⟩)
    simp only [children, slots, Slot.toList, flatMap_cons, flatMap_nil, append_nil]
    first | exact hc | exact mem_append_right _ hc

/-- A statement is lowered to a setup and the nodes after it. -/
structure Lowers (s : Node) (setup : Setup) (rest : List Node) : Prop where
  eq : lowerStat s = setup ++ .ofStats rest
  prepared : Prepared setup
  reserved : ∀ x ∈ setup.used, x ∈ s.reserved
  apart : ∀ x ∈ setup.used, x ∉ innerReserved s

theorem Lowers.temps (h : Lowers s setup rest) : (lowerStat s).temps = setup.temps := by
  rw [h.eq]
  exact append_nil _

theorem Lowers.names (h : Lowers s setup rest) : (lowerStat s).names = setup.names :=
  congrArg (map Prod.fst) h.temps

/-- A statement without blocks. -/
structure LeafStat (t : Table) (returns : Bool) (s : Node) (setup : Setup) (rest : List Node) :
    Prop where
  lowers : Lowers s setup rest
  leaf : Leaf t returns setup rest
  exprs : ∀ c ∈ s.children, c.ClosedExpr t
  defined : rest.filterMap defined? = s.defined?.toList
  simple : isSimple s = true
  form : ∀ sweep, StatForm sweep s (setup.stats ++ beforeReturns (releases sweep) rest)

theorem forall_child {p : Node → Prop} (hchildren : n.children = [e]) (he : p e) :
    ∀ c ∈ n.children, p c := by grind

theorem LeafStat.ne_block
    (h : LeafStat t returns s setup rest) (b : CBlock Node) : s ≠ .block b := by
  rintro rfl
  cases h.simple

theorem codeOf_simple (h : isSimple s = true) (sweep : List String) :
    codeOf sweep s = beforeReturns (releases sweep) (lowerStat s).stats := by
  cases s <;> first | (cases h; done) | rw [codeOf] <;> simp

theorem LeafStat.codeOf_eq (h : LeafStat t returns s setup rest) (sweep : List String) :
    codeOf sweep s = setup.stats ++ beforeReturns (releases sweep) rest := by
  rw [codeOf_simple h.simple, h.lowers.eq, Setup.stats_append, beforeReturns_append,
    beforeReturns_eq fun n hn => (h.lowers.prepared.kept n hn).returns]
  rfl

/-! ## Statements without blocks -/

theorem reserved_of_child (hchildren : n.children = [e]) (hown : n.ownNames = []) :
    n.reserved = e.reserved := by
  rw [reserved_eq, hchildren, hown]
  simp

/-- Moving the operands of an operation that makes a heap value. -/
theorem hoistOperands_of_heap (he : e.All (IsExprNode t)) (hop : e.isOperation = true)
    (hheap : e.isHeap = true) : Moved e (hoistOperands e).1 (hoistOperands e).2 := by
  by_cases hvar : e.kind = .varRef
  · obtain ⟨name, ty, isTemp, rfl⟩ := exists_varRef hvar
    exact .var
  · refine hoistOperands_moved hop hvar ?_ (children_moved he)
    cases hshort : mayShortCircuit e with
    | false => rfl
    | true =>
      obtain ⟨op, ty, operandTy, temp, l, r, rfl, -⟩ := exists_shortCircuit hshort
      rcases he.here.2.2.1 hheap with h | h <;> cases h

theorem callStat_form (he : e.All (IsExprNode t)) (hop : e.isOperation = true)
    (hheap : e.isHeap = false) (hvar : e.kind ≠ .varRef) {sweep : List String} :
    StatForm sweep (.callStat (some e)) ((hoistOperands e).1.stats ++
      [.callStat (some (hoistOperands e).2)]) := by
  cases hshort : mayShortCircuit e with
  | false => exact .callStat hheap (hoistOperands_moved hop hvar hshort (children_moved he)) hshort
  | true =>
    obtain ⟨op, ty, operandTy, temp, left, right, rfl, hlogical⟩ := exists_shortCircuit hshort
    obtain ⟨hl, hr, -⟩ := he.here
    obtain ⟨l, rfl⟩ := Option.isSome_iff_exists.mp hl
    obtain ⟨r, rfl⟩ := Option.isSome_iff_exists.mp hr
    have hoperands : hoistOperands (.binary .int op ty operandTy temp (some l) (some r)) =
        ((hoist l).1 ++ (hoist r).1,
          .binary .int op ty operandTy temp (some (hoist l).2) (some (hoist r).2)) := by
      rw [gather_hoist rfl]
      simp [children, mapChildren, withSlots, Slot.mapChildren, Setup.append_empty]
    rw [hoperands]
    refine .callLogical hlogical (children_moved he l ?_) (children_moved he r ?_)
    · simp [children]
    · simp [children]

theorem varDef_leaf (hname : IsVarName t name)
    (he : e.ClosedExpr t) (hty : e.ty? = some ty) (hnodup : e.reserved.Nodup) :
    ∃ setup rest, LeafStat t returns (.varDef name ty (some e)) setup rest := by
  have hbound := unbind_unbound he.expr
  -- the value is hoisted, or only its operands are
  have hleaf : ∀ r : Setup × Node, Moved (unbind e).2 r.1 r.2 →
      lowerDefine name ty (some e) = (unbind e).1 ++ r.1 ++
        .ofStats (.varDef name ty (some r.2) :: if ty.isHeap then [.refer name] else []) →
      (r.2.OverSettled → Leaf t returns ((unbind e).1 ++ r.1)
        (.varDef name ty (some r.2) :: if ty.isHeap then [.refer name] else [])) →
      ∃ setup rest, LeafStat t returns (.varDef name ty (some e)) setup rest := by
    intro r hr heq hleaf
    have hmoved := hbound.moved hr
    have hleaves := hmoved.leavesOperation he.expr hnodup
    refine ⟨_, _, ⟨heq, hleaves.prepared, fun x hx => ?_, nofun⟩, hleaf hleaves.operation,
      forall_child rfl he, ?_, rfl, fun sweep => ?_⟩
    · exact mem_reserved_child (.head _) (hleaves.reserved x hx)
    · split <;> rfl
    · have hrest : beforeReturns (releases sweep)
          (.varDef name ty (some r.2) :: if ty.isHeap then [.refer name] else []) =
            .varDef name ty (some r.2) :: if ty.isHeap then [.refer name] else [] := by
        split <;> rfl
      rw [hrest]
      exact .varDef hmoved
  have hmoved := hoist_moved hbound.expr
  cases hheap : ty.isHeap with
  | true =>
    have hvalue : (unbind e).2.isHeap = true :=
      (hbound.heap.trans (isHeap_of_typed hty)).trans hheap
    cases hcall : isCall (unbind e).2 with
    | true =>
      refine hleaf _ hmoved (by simp [lowerDefine, hheap, hcall]) fun hop => ?_
      rw [hheap]
      exact .define hname hheap hop
        (isCall_eq_false (hoist_kind hbound.expr ((hmoved.isHeap hbound.expr).trans hvalue)))
    | false =>
      refine hleaf _ (hoistOperands_of_heap hbound.expr hbound.operation hvalue)
        (by simp [lowerDefine, hheap, hcall]) fun hop => ?_
      rw [hheap]
      refine .define hname hheap hop ?_
      rw [gather_hoist hbound.operation, isCall_mapChildren, hcall]
  | false =>
    refine hleaf _ hmoved (by simp [lowerDefine, hheap]) fun hop => ?_
    rw [hheap]
    exact .plain (.varDef hheap (hop.settled (hoist_kind hbound.expr)))

/-- A statement with one expression and a temporary of its own. -/
theorem reserved_of_capture (hchildren : s.children = [e])
    (hown : s.ownNames = [capture]) (hnodup : s.reserved.Nodup) : e.reserved.Nodup ∧
      capture ∉ e.reserved ∧ ∀ x, x ∈ e.reserved ∨ x = capture → x ∈ s.reserved := by
  have hreserved : s.reserved = e.reserved ++ [capture] := by simp [reserved_eq s, hchildren, hown]
  grind

theorem assign_leaf (hname : IsVarName t name) (he : e.ClosedExpr t) (hty : e.ty? = some ty)
    (hnodup : (assign name ty capture (some e)).reserved.Nodup) :
    ∃ setup rest, LeafStat t returns (.assign name ty capture (some e)) setup rest := by
  obtain ⟨hnodup, hfresh, hmem⟩ := reserved_of_capture rfl rfl hnodup
  cases hheap : ty.isHeap with
  | false =>
    have h := hoist_hoisted he.expr hnodup
    refine ⟨(hoist e).1, [.assign name ty capture (some (hoist e).2)],
      ⟨?_, h.prepared, fun x hx => hmem x (.inl (h.reserved x hx)), by rintro _ _ ⟨⟩⟩,
      .plain (.assign hheap h.settled), forall_child rfl he, rfl, rfl,
      fun _ => .assign hheap (hoist_moved he.expr)⟩
    show lowerAssign name ty capture (some e) = _
    rw [lowerAssign, hheap]
    rfl
  | true =>
    have h := hold_holds he hnodup hfresh ((isHeap_of_typed hty).trans hheap) hheap
    obtain ⟨ty', hholder, hheld⟩ := hold_heldIn he.expr
    refine ⟨(hold capture ty e).1, [.release name, .assign name ty capture
      (some (.temp (hold capture ty e).2.2 ty')), .refer name],
      ⟨?_, h.prepared, fun x hx => hmem x (h.reserved x hx), by rintro _ _ ⟨⟩⟩,
      .assign hname hheap h.held, forall_child rfl he, rfl, rfl, fun _ => .assignHeap hheap hheld⟩
    show lowerAssign name ty capture (some e) = _
    rw [lowerAssign, hheap, ← hholder]
    rfl

theorem elementAssign_leaf {i : Node} (hi : i.ClosedExpr t) (he : e.ClosedExpr t)
    (hnodup : (elementAssign name (some i) (some e)).reserved.Nodup) :
    ∃ setup rest, LeafStat t returns (.elementAssign name (some i) (some e)) setup rest := by
  have hreserved : (elementAssign name (some i) (some e)).reserved =
      i.reserved ++ e.reserved := by
    simp [reserved_eq (.elementAssign ..), children, ownNames, temp?]
  rw [hreserved] at hnodup
  obtain ⟨hinodup, henodup, hapart⟩ := nodup_append.mp hnodup
  have hexprs : ∀ c ∈ (elementAssign name (some i) (some e)).children,
      c.ClosedExpr t := by
    intro c hc
    rcases (show c = i ∨ c = e by
      simpa [children] using hc) with rfl | rfl
    · exact hi
    · exact he
  have hplace := hoist_moved hi.expr
  have hmoved := hoist_moved he.expr
  have hi := hoist_hoisted hi.expr hinodup
  have he := hoist_hoisted he.expr henodup
  refine ⟨(hoist i).1 ++ (hoist e).1,
    [.elementAssign name (some (hoist i).2) (some (hoist e).2)],
    ⟨rfl, .append hi.prepared he.prepared fun x hx hx' => ?_, fun x hx => ?_, by rintro _ _ ⟨⟩⟩,
    .plain (.elementAssign hi.settled he.settled), hexprs, rfl, rfl, fun _ =>
      .elementAssign hplace hmoved⟩
  · exact hapart x (hi.reserved x hx) x (he.reserved x hx') rfl
  · rw [hreserved]
    exact mem_append.mpr ((Setup.mem_used_append.mp hx).imp (hi.reserved x) (he.reserved x))

theorem printStat_leaf (he : e.ClosedExpr t) (hnodup : e.reserved.Nodup) :
    ∃ setup rest, LeafStat t returns (.printStat (some ty) (some e)) setup rest := by
  have h := hoist_hoisted he.expr hnodup
  refine ⟨(hoist e).1, [.printStat (some ty) (some (hoist e).2)],
    ⟨rfl, h.prepared, fun x hx => ?_, nofun⟩, .plain (.printStat h.settled),
    forall_child rfl he, rfl, rfl, fun _ => .printStat (hoist_moved he.expr)⟩
  rw [reserved_of_child rfl rfl]
  exact h.reserved x hx

theorem printNothing_leaf : ∃ setup rest, LeafStat t returns (.printStat none none) setup rest :=
  ⟨{}, [.printStat none none], ⟨rfl, .nil, nofun, nofun⟩, .plain .printNothing, nofun, rfl, rfl,
    fun _ => .printNothing⟩

/-- The expression of a call statement is an operation unless it lives on the heap. -/
theorem isOperation_of_isHeap_eq_false (he : e.All (IsExprNode t))
    (hheap : e.isHeap = false) : e.isOperation = true := by
  by_contra hop
  obtain ⟨name, v, b, rfl, -, hb⟩ := exists_bind he.here hop
  have hsame : (bind name .vector (some v) (some b)).isHeap = b.isHeap := rfl
  rw [hsame, hb] at hheap
  cases hheap

theorem callStat_leaf (he : e.ClosedExpr t) (hvar : e.kind ≠ .varRef) (hnodup : e.reserved.Nodup) :
    ∃ setup rest, LeafStat t returns (.callStat (some e)) setup rest := by
  have hreserved : (callStat (some e)).reserved = e.reserved := reserved_of_child rfl rfl
  cases hheap : e.isHeap with
  | true =>
    have h := hoist_hoisted he.expr hnodup
    have hkept : ∀ sweep, StatForm sweep (.callStat (some e)) ((hoist e).1.stats ++ []) := by
      intro sweep
      obtain ⟨holder, holderTy, hholder⟩ := exists_holder he.expr hheap hvar
      rw [append_nil]
      exact .callHeap hheap hvar (hholder ▸ hoist_moved he.expr)
    refine ⟨(hoist e).1, [], ⟨?_, h.prepared, fun x hx => hreserved ▸ h.reserved x hx, nofun⟩,
      .nothing, forall_child rfl he, rfl, rfl, hkept⟩
    show (if e.isHeap = true then (hoist e).1 else _) = (hoist e).1 ++ ({} : Setup)
    rw [hheap, Setup.append_empty]
    rfl
  | false =>
    have hop := isOperation_of_isHeap_eq_false he.expr hheap
    have h := hoistOperands_hoisted he.expr.here hop (fun c hc =>
      hoist_hoisted (he.expr.inside c hc) (nodup_reserved_child hnodup hc)) hnodup
    have hform : ∀ sweep, StatForm sweep (.callStat (some e)) ((hoistOperands e).1.stats ++
        [.callStat (some (hoistOperands e).2)]) := fun sweep =>
      callStat_form he.expr hop hheap hvar
    refine ⟨(hoistOperands e).1, [.callStat (some (hoistOperands e).2)],
      ⟨?_, h.prepared, fun x hx => ?_, nofun⟩, .plain (.callStat ?_ h.operation),
      forall_child rfl he, rfl, rfl, hform⟩
    · show (if e.isHeap = true then _ else _) = _
      rw [hheap]
      rfl
    · rw [hreserved, reserved_eq]
      exact mem_append_left _ (h.reserved x hx)
    · rw [h.eq, isHeap_mapChildren _ hop, hheap]

theorem returnStat_leaf (hreturns : returns = true) (he : e.ClosedExpr t) (hty : e.ty? = some ty)
    (hnodup : (returnStat ty capture (some e)).reserved.Nodup) :
    ∃ setup rest, LeafStat t returns (.returnStat ty capture (some e)) setup rest := by
  obtain ⟨hnodup, hfresh, hmem⟩ := reserved_of_capture rfl rfl hnodup
  cases hheap : ty.isHeap with
  | true =>
    have h := hold_holds he hnodup hfresh ((isHeap_of_typed hty).trans hheap) hheap
    obtain ⟨ty', hholder, hheld⟩ := hold_heldIn he.expr
    refine ⟨(hold capture ty e).1, [.refer (hold capture ty e).2.2, .returnStat ty capture
      (some (.temp (hold capture ty e).2.2 ty'))],
      ⟨?_, h.prepared, fun x hx => hmem x (h.reserved x hx), by rintro _ _ ⟨⟩⟩,
      .returnHeap hreturns hheap h.held, forall_child rfl he, rfl, rfl, fun sweep => ?_⟩
    · show lowerReturn ty capture (some e) = _
      rw [lowerReturn, hheap, ← hholder]
      rfl
    · rw [← singleton_append, beforeReturns_append, beforeReturns_returnStat]
      exact .returnHeap hheap hheld
  | false =>
    have h := hoist_hoisted he.expr hnodup
    refine ⟨(hoist e).1 ++ .define capture ty (hoist e).2 false,
      [.returnStat ty capture (some (.temp capture ty))],
        ⟨?_, ?_, fun x hx => ?_, by rintro _ _ ⟨⟩⟩,
      .returnPlain hreturns hheap, forall_child rfl he, rfl, rfl,
      fun sweep => ?_⟩
    · show lowerReturn ty capture (some e) = _
      rw [lowerReturn, hheap]
      rfl
    · refine .append h.prepared (.define h.settled.overSettled fun hty => ?_) fun x hx hx' => ?_
      · rw [hheap] at hty
        cases hty
      · obtain rfl := (Setup.mem_used_define h.settled.overSettled).mp hx'
        exact hfresh (h.reserved x hx)
    · exact hmem x ((Setup.mem_used_append.mp hx).imp (h.reserved x)
        (Setup.mem_used_define h.settled.overSettled).mp)
    · have hstats : (Setup.define capture ty (hoist e).2 false).stats =
          [.tempDef capture ty true (some (hoist e).2)] := by
        simp [Setup.define, hheap]
      rw [Setup.stats_append, hstats, beforeReturns_returnStat, append_assoc]
      exact .returnStat hheap (hoist_moved he.expr)

/-! ## All statements -/

theorem reserved_ifStat {c : Node} {other : Option (CBlock Node)} :
    (ifStat (some c) (some (.block b)) (other.map block)).reserved =
      c.reserved ++ ((block b).reserved ++
        (other.map block).toList.flatMap reserved) := by
  rw [reserved_eq]
  simp [children, ownNames, temp?]

theorem reserved_whileStat (c : Node) (b : CBlock Node) :
    (whileStat (some c) (some (.block b))).reserved =
      c.reserved ++ (block b).reserved := by
  simp [reserved_eq (.whileStat ..), children, ownNames, temp?]

theorem mem_child_of_stat (hs : s ∈ b.stats) : s ∈ (block b).children := by
  simp [children, hs]

/-- A block of built statements before counting, seen from inside: `nest` shows its variables. -/
structure Scoped (t : Table) (returns : Bool) (nest : Nest) (vars : List (String × Ty))
    (b : CBlock Node) : Prop where
  nodup : (vars.map Prod.fst).Nodup
  varNames : ∀ p ∈ vars, IsVarName t p.1
  defs : b.stats.filterMap defined? = vars
  visible : ∀ p ∈ vars, ∃ q ∈ nest, p.1 ∈ q.2
  uncounted : b.Uncounted
  stats : ∀ s ∈ b.stats, BuiltStat t returns nest s
  reserves : ReservesTemps t (.block b)

section Scoped

variable {scope : ScopeId} {vars : List (String × Ty)} {b : CBlock Node}

theorem Scoped.ofBlock {isBody : Bool} (h : BuiltBlock t isBody nest scope vars b)
    (hreserves : ReservesTemps t (.block b))
    (hstats : ∀ s ∈ b.stats, BuiltStat t returns ((scope, vars.map Prod.fst) :: nest) s) :
    Scoped t returns ((scope, vars.map Prod.fst) :: nest) vars b :=
  ⟨h.nodup, h.varNames, h.defs, fun _ hp => ⟨_, .head _, mem_map_of_mem hp⟩, h.uncounted,
    hstats, hreserves⟩

theorem Scoped.ofFunc {head : FuncHead} {params : List (String × Ty)}
    (h : BuiltFunc t head params scope vars b) :
    Scoped t true [(scope, vars.map Prod.fst), (head.scope, params.map Prod.fst)] vars b :=
  .ofBlock h.body h.temps h.stats

theorem Scoped.ofMain (h : BuiltMain t vars b) :
    Scoped t false [(Table.global, vars.map Prod.fst)] vars b :=
  ⟨h.nodup, h.varNames, h.defs, fun _ hp => ⟨_, .head _, mem_map_of_mem hp⟩, h.uncounted,
    h.stats, h.temps⟩

theorem Scoped.child (h : Scoped t returns nest vars b) (hs : s ∈ b.stats) : ReservesTemps t s :=
  h.reserves.child (mem_child_of_stat hs)

theorem Scoped.reserved (h : Scoped t returns nest vars b) :
    (block b).reserved = b.stats.flatMap reserved :=
  h.uncounted.reserved

end Scoped

theorem mem_yes_ifStat {c : Node} {other : Option Node} :
    .block b ∈ (ifStat (some c) (some (.block b)) other).children := by
  simp [children]

theorem mem_no_ifStat {c : Node} {yes : Option Node} {other : Option (CBlock Node)}
    (h : b ∈ other) : .block b ∈ (ifStat (some c) yes (other.map block)).children := by
  obtain rfl := h
  simp [children]

theorem mem_body_whileStat {c : Node} :
    .block b ∈ (whileStat (some c) (some (.block b))).children := by
  simp [children]

/-- **Induction over lowered statements.**  `S` is about statements, and `B` is about the blocks of
the program inside them. -/
theorem BuiltStat.lowering {S : Nest → Node → Prop} {B : Nest → CBlock Node → Prop}
    (leaf : ∀ {nest s setup rest}, LeafStat t returns s setup rest → BuiltStat t returns nest s →
      ReservesTemps t s → S nest s)
    (ifStat : ∀ {nest c b} (other : Option (CBlock Node)), c.ClosedExpr t → Hoisted c (hoist c) →
      ReservesTemps t (.ifStat (some c) (some (.block b)) (other.map block)) →
      B nest b → (∀ b' ∈ other, B nest b') →
      S nest (.ifStat (some c) (some (.block b)) (other.map block)))
    (whileStat : ∀ {nest c b}, c.ClosedExpr t → Hoisted c (hoist c) →
      ReservesTemps t (.whileStat (some c) (some (.block b))) → B nest b →
      S nest (.whileStat (some c) (some (.block b))))
    (blockStat : ∀ {nest b}, B nest b → S nest (.blockStat (some (.block b))))
    (inner : ∀ {nest b}, B nest b → S nest (.block b))
    (block : ∀ {nest scope vars b}, BuiltBlock t false nest scope vars b →
      Scoped t returns ((scope, vars.map Prod.fst) :: nest) vars b →
      (∀ s ∈ b.stats, S ((scope, vars.map Prod.fst) :: nest) s) → B nest b)
    (h : BuiltStat t returns nest n) (hreserves : ReservesTemps t n) : S nest n := by
  have only : ∀ {nest s}, BuiltStat t returns nest s → ReservesTemps t s →
      (∃ setup rest, LeafStat t returns s setup rest) → S nest s ∧ ∀ b, s = .block b → B nest b :=
    fun hs hreserves ⟨_, _, h⟩ => ⟨leaf h hs hreserves, fun b hb => absurd hb (h.ne_block b)⟩
  have under : ∀ {n c}, ReservesTemps t n → n.children = [c] → c.reserved.Nodup :=
    fun h hc => (h.child (hc ▸ .head _)).nodup
  have hoisted : ∀ {n c}, ReservesTemps t n → c.ClosedExpr t → c ∈ n.children →
      Hoisted c (hoist c) :=
    fun h hc hmem => hoist_hoisted hc.expr (h.child hmem).nodup
  suffices hall : ReservesTemps t n → S nest n ∧ ∀ b, n = .block b →
    B nest b from (hall hreserves).1
  clear hreserves
  induction h with
  | varDef varName expr typed =>
    exact fun h =>
      only (.varDef varName expr typed) h (varDef_leaf varName expr typed (under h rfl))
  | assign varName expr typed =>
    exact fun h => only (.assign varName expr typed) h (assign_leaf varName expr typed h.nodup)
  | elementAssign varName place expr =>
    exact fun h =>
      only (.elementAssign varName place expr) h (elementAssign_leaf place expr h.nodup)
  | @ifThen nest c b cond _ ih =>
    intro h
    have hb := (ih (h.child mem_yes_ifStat)).2 b rfl
    exact ⟨ifStat none cond (hoisted h cond (by simp [children])) h hb (by simp), by simp⟩
  | @ifElse nest c b b' cond _ _ ihyes ihno =>
    intro h
    have hb := (ihyes (h.child mem_yes_ifStat)).2 b rfl
    refine ⟨ifStat (some b') cond (hoisted h cond (by simp [children])) h hb fun d hd => ?_,
      by simp⟩
    exact (ihno (h.child (mem_no_ifStat rfl))).2 d (congrArg Node.block (Option.some.inj hd))
  | @whileStat nest c b cond _ ih =>
    intro h
    have hb := (ih (h.child mem_body_whileStat)).2 b rfl
    exact ⟨whileStat cond (hoisted h cond (by simp [children])) h hb, by simp⟩
  | callStat expr notVar =>
    exact fun h => only (.callStat expr notVar) h (callStat_leaf expr notVar (under h rfl))
  | printNothing => exact fun h => only .printNothing h printNothing_leaf
  | printStat expr => exact fun h => only (.printStat expr) h (printStat_leaf expr (under h rfl))
  | returnStat allowed expr typed =>
    exact fun h =>
      only (.returnStat allowed expr typed) h (returnStat_leaf allowed expr typed h.nodup)
  | blockStat _ ih =>
    exact fun h => ⟨blockStat ((ih (h.child (.head _))).2 _ rfl), by simp⟩
  | @block nest scope vars b shape stats ih =>
    intro h
    have hscoped := Scoped.ofBlock shape h stats
    have hb : B nest b := block shape hscoped fun s hs => (ih s hs (hscoped.child hs)).1
    grind

/-- A built statement is lowered to a setup and the nodes after it. -/
theorem BuiltStat.lowers (h : BuiltStat t returns nest n)
    (hreserves : ReservesTemps t n) : ∃ setup rest, Lowers n setup rest := by
  refine BuiltStat.lowering (S := fun _ n => ∃ setup rest, Lowers n setup rest)
    (B := fun _ _ => True)
    (fun h _ _ => ⟨_, _, h.lowers⟩) (fun {_ c b} other _ hcond hreserves _ _ => ?_)
    (fun _ _ _ _ => ?_) (fun _ => ?_) (fun _ => ?_) (fun _ _ _ => trivial) h hreserves
  · refine ⟨(hoist c).1, [.ifStat (some (hoist c).2) (some (.block b)) (other.map block)], rfl,
      hcond.prepared, fun x hx => ?_, fun x hx hinner => ?_⟩
    · rw [reserved_ifStat]
      exact mem_append_left _ (hcond.reserved x hx)
    · have hnodup := hreserves.nodup
      rw [reserved_ifStat] at hnodup
      exact (nodup_append.mp hnodup).2.2 x (hcond.reserved x hx) x hinner rfl
  all_goals exact ⟨{}, _, rfl, .nil, nofun, nofun⟩

/-- The temporaries of the statements of a block are different from each other and from those of the
blocks inside. -/
structure NamesTemps (ss : List Node) (names : List String) : Prop where
  nodup : names.Nodup
  reserved : ∀ x ∈ names, x ∈ ss.flatMap reserved
  apart : ∀ x ∈ names, x ∉ ss.flatMap innerReserved

theorem lowered_names {ss : List Node} (h : ∀ s ∈ ss, BuiltStat t returns nest s)
    (hreserves : ∀ s ∈ ss, ReservesTemps t s) (hnodup : (ss.flatMap reserved).Nodup) :
    NamesTemps ss (lowered ss).names := by
  induction ss with
  | nil => exact ⟨.nil, nofun, nofun⟩
  | cons s ss ih =>
    rw [flatMap_cons] at hnodup
    obtain ⟨-, htail, hapart⟩ := nodup_append.mp hnodup
    obtain ⟨setup, rest, hs⟩ := BuiltStat.lowers (h s (.head _))
      (hreserves s (.head _))
    have ih := ih (fun c hc => h c (.tail s hc))
      (fun c hc => hreserves c (.tail s hc)) htail
    have hnames : (lowered (s :: ss)).names = setup.names ++ (lowered ss).names := by
      show (lowerStat s ++ lowered ss).names = _
      rw [Setup.names_append, hs.names]
    have hfirst : setup.names ⊆ s.reserved := fun x hx =>
      hs.reserved x (Setup.mem_used_of_mem_names hx)
    have hinner : ss.flatMap innerReserved ⊆ ss.flatMap reserved := by
      intro x hx
      obtain ⟨c, hc, hx⟩ := mem_flatMap.mp hx
      exact mem_flatMap.mpr ⟨c, hc, mem_reserved_of_inner hx⟩
    rw [hnames]
    refine ⟨nodup_append.mpr ⟨hs.prepared.nodup_names, ih.nodup, fun x hx y hy => ?_⟩,
      fun x hx => ?_, fun x hx hx' => ?_⟩
    · exact hapart x (hfirst hx) y (ih.reserved y hy)
    · rw [flatMap_cons]
      exact mem_append.mpr ((mem_append.mp hx).imp (@hfirst x) (ih.reserved x))
    · rw [flatMap_cons] at hx'
      rcases mem_append.mp hx with hx | hx
      · rcases mem_append.mp hx' with hx' | hx'
        · exact hs.apart x (Setup.mem_used_of_mem_names hx) hx'
        · grind
      · rcases mem_append.mp hx' with hx' | hx'
        · exact hapart x (mem_reserved_of_inner hx') x (ih.reserved x hx) rfl
        · exact ih.apart x hx hx'

section Scoped

variable {vars : List (String × Ty)} {b : CBlock Node}

/-- The temporaries of a block that its own statements fill. -/
theorem Scoped.names (h : Scoped t returns nest vars b) :
    NamesTemps b.stats (lowered b.stats).names :=
  lowered_names h.stats (fun _ hs => h.child hs) (h.reserved ▸ h.reserves.nodup)

theorem Scoped.lowered_reserved (h : Scoped t returns nest vars b) :
    (lowered b.stats).names ⊆ (block b).reserved :=
  h.reserved ▸ h.names.reserved

end Scoped

end Counting

end WichToC
