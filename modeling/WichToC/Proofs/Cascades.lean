import WichToC.Proofs.Annotations

/-!
# Faults do not cascade

Two runs of typing over the same statements, where the second starts with some typed variables
spoiled: they have the type of a fault instead of their own.  Everything the second run sees is what
the first sees or the type of a fault, and where the latter appears nothing is reported.  So the two
runs stay in step: expressions and variables get the same types or that of a fault
(`Annotated.Spoils`, `Table.Spoils`), and what the second reports is a sublist of what the first
reports.

`Typing.stmts_do_not_cascade` is the result for statements.
-/

namespace WichToC

open List Annotated

variable (ss : List Stmt)

/-! ## Spoiled types -/

/-- The type `ty'` is `ty` or that of a fault. -/
def Ty.Spoils (ty ty' : Ty) : Prop :=
  ty' = ty ∨ ty' = .error

/-- The expression `e'` is `e` with other annotations, and its type is that of `e` or that of a
fault. -/
structure Annotated.Spoils (e e' : Expr) : Prop where
  plain : e'.plain = e.plain
  ty : e'.ty = e.ty ∨ e'.ty = some .error

/-- A variable that has a type may have that of a fault instead. -/
def SpoilsVariable (ty ty' : Option Ty) : Prop :=
  ty' = ty ∨ ty.isSome ∧ ty' = some .error

/-- The tables are equal, except that typed variables may have the type of a fault in the second. -/
def Table.Spoils (t t' : Table) : Prop :=
  t.UpTo SpoilsVariable t'

namespace Table.Spoils

variable {t t' : Table}

theorem refl (t : Table) : t.Spoils t :=
  UpTo.refl (fun _ => .inl rfl) t

/-- Both runs give a variable a type. -/
theorem setVariableTy (h : t.Spoils t') (id : SymbolId) {ty ty' : Ty} (hty : ty.Spoils ty') :
    (t.setVariableTy id ty).Spoils (t'.setVariableTy id ty') where
  scopes := h.scopes
  var? {i w} hw := by
    rw [Table.var?_setVariableTy] at hw ⊢
    split at hw
    · obtain ⟨v, hv, rfl⟩ := Option.map_eq_some_iff.mp hw
      obtain ⟨old, hv', -⟩ := h.var? hv
      refine ⟨some ty', by rw [if_pos ‹_›, hv']; rfl, ?_⟩
      exact hty.imp (congrArg some) fun herr => ⟨rfl, congrArg some herr⟩
    · obtain ⟨new, hv', hnew⟩ := h.var? hw
      grind
  other {i} hi := by
    have hnone := var?_eq_none_of_setVariableTy hi
    rw [symbol?_setVariableTy (h.var?_eq_none hnone), symbol?_setVariableTy hnone,
      h.other hnone]

end Table.Spoils

/-! ## Expressions -/

/-- All nodes of the second expression are nodes of the first, or spoiled. -/
def Annotated.SpoilsAll (e e' : Expr) : Prop :=
  Forall₂ Spoils e.nodes e'.nodes

namespace Annotated.SpoilsAll

variable {e e' d d' : Expr}

theorem flatMap {es es' : List Expr} (h : Forall₂ SpoilsAll es es') :
    Forall₂ Spoils (es.flatMap nodes) (es'.flatMap nodes) :=
  rel_flatMap h fun _ _ h => h

/-- A node over operands. -/
theorem of_operands (hroot : e.Spoils e')
    (hoperands : Forall₂ SpoilsAll e.kind.operands e'.kind.operands) : e.SpoilsAll e' := by
  rw [SpoilsAll, nodes_eq, nodes_eq e']
  exact .cons hroot (flatMap hoperands)

section

variable (h : e.SpoilsAll e') (target : Ty)

include h

/-- The annotations of the roots may change, as long as the second type stays that of the first or
that of a fault. -/
theorem congr (hkind : d.kind = e.kind) (hspan : d.span = e.span)
    (hkind' : d'.kind = e'.kind) (hspan' : d'.span = e'.span)
    (hty : d'.ty = d.ty ∨ d'.ty = some .error) : d.SpoilsAll d' := by
  rw [SpoilsAll, nodes_eq, nodes_eq e'] at h
  cases h with
  | cons hroot hinside =>
    rw [SpoilsAll, nodes_eq, nodes_eq d', hkind, hkind']
    refine .cons ⟨?_, hty⟩ hinside
    rw [plain_eq, plain_eq d, hkind, hkind', hspan, hspan',
      ← plain_eq, ← plain_eq, hroot.plain]

theorem ty : e'.ty = e.ty ∨ e'.ty = some .error := by
  rw [SpoilsAll, nodes_eq, nodes_eq e'] at h
  cases h with
  | cons hroot => exact hroot.ty

theorem span : e'.span = e.span := by
  rw [SpoilsAll, nodes_eq, nodes_eq e'] at h
  cases h with
  | cons hroot =>
    have hplain := hroot.plain
    rw [plain_eq, plain_eq e] at hplain
    exact (mk.inj hplain).2.1

theorem promote_left : (e.promote target).SpoilsAll e' := by
  unfold promote
  split
  · exact h
  · exact h.congr rfl rfl rfl rfl h.ty

theorem promote_right : e.SpoilsAll (e'.promote target) := by
  unfold promote
  split
  · exact h
  · exact h.congr rfl rfl rfl rfl h.ty

theorem promote : (e.promote target).SpoilsAll (e'.promote target) :=
  (h.promote_left target).promote_right target

end

end Annotated.SpoilsAll

namespace Typing

variable {t t' : Table} {scope : ScopeId} {args args' : List Typed} (function : String)
    (position : Nat) (span : Span) (op : Operator)

/-- What typing an expression gives in the two runs. -/
structure Typed.Spoils (a b : Typed) : Prop where
  nodes : a.expr.SpoilsAll b.expr
  ty : a.ty.Spoils b.ty
  typed : b.expr.ty = some b.ty
  faults : b.faults.Sublist a.faults

/-- What typing a shape gives in the two runs. -/
structure Shaped.Spoils (a b : Shaped) : Prop where
  operands : Forall₂ SpoilsAll a.kind.operands b.kind.operands
  ty : a.ty.Spoils b.ty
  faults : b.faults.Sublist a.faults

namespace Typed.Spoils

variable {a b : Typed}

theorem asValue (h : a.Spoils b) : a.asValue.Spoils b.asValue := by
  unfold Typed.asValue
  obtain hty | hty := h.ty
  · rw [hty]
    split
    · refine ⟨h.nodes.congr rfl rfl rfl rfl (.inl rfl), .inl rfl, rfl, ?_⟩
      rw [h.nodes.span]
      exact h.faults.append (.refl _)
    · exact h
  · have hexpr := h.typed
    rw [hty] at hexpr
    have hvoid : b.ty ≠ .void := by
      rw [hty]
      nofun
    rw [if_neg hvoid]
    split
    · exact ⟨h.nodes.congr rfl rfl rfl rfl (.inr hexpr), .inr hty, h.typed,
        h.faults.trans (sublist_append_left ..)⟩
    · exact h

theorem indexFaults (h : a.Spoils b) : b.indexFaults.Sublist a.indexFaults := by
  unfold Typed.indexFaults
  obtain hty | hty := h.ty
  · rw [hty, h.nodes.span]
  · grind

theorem asElement (h : a.Spoils b) :
    a.asElement.1.SpoilsAll b.asElement.1 ∧ b.asElement.2.Sublist a.asElement.2 := by
  unfold Typed.asElement
  obtain hty | hty := h.ty
  · rw [hty, h.nodes.span]
    split
    · exact ⟨h.nodes.promote _, .refl _⟩
    · exact ⟨h.nodes.promote _, .refl _⟩
    · exact ⟨h.nodes, .refl _⟩
    · exact ⟨h.nodes, .refl _⟩
  · rw [hty]
    split
    · exact ⟨h.nodes.promote_left _, .refl _⟩
    · exact ⟨h.nodes.promote_left _, .refl _⟩
    · exact ⟨h.nodes, .refl _⟩
    · exact ⟨h.nodes, nil_sublist _⟩

end Typed.Spoils

/-- A name has the type of its variable. -/
theorem name_spoils (h : t.Spoils t') (scope : ScopeId) (span : Span) (n : String) :
    (name t scope span n).2.1.Spoils (name t' scope span n).2.1 ∧
      (name t' scope span n).2.2.Sublist (name t scope span n).2.2 := by
  unfold name
  rw [h.resolve]
  cases t.resolve scope n with
  | none => exact ⟨.inl rfl, .refl _⟩
  | some id =>
    dsimp only
    cases hv : t.var? id with
    | none =>
      rw [h.other hv]
      exact ⟨.inl rfl, .refl _⟩
    | some v =>
      obtain ⟨ty, hv', hty⟩ := h.var? hv
      rw [Table.symbol?_of_var? hv, Table.symbol?_of_var? hv']
      dsimp only
      obtain rfl | ⟨hsome, rfl⟩ := hty
      · exact ⟨.inl rfl, .refl _⟩
      · obtain ⟨old, hold⟩ := Option.isSome_iff_exists.mp hsome
        rw [hold]
        exact ⟨.inr rfl, .refl _⟩

/-- A binary expression reports at least what its operands report, and has them as operands. -/
theorem binary_reports {l r : Typed} {x y : Expr}
    (hl : l.expr.SpoilsAll x) (hr : r.expr.SpoilsAll y) :
    Forall₂ SpoilsAll (binary span l op r).kind.operands [x, y] ∧
      (l.faults ++ r.faults).Sublist (binary span l op r).faults := by
  unfold binary
  dsimp only
  split
  · exact ⟨.cons hl (.cons hr .nil), .refl _⟩
  · split
    · exact ⟨.cons hl (.cons hr .nil), .refl _⟩
    · exact ⟨.cons (hl.promote_left _) (.cons (hr.promote_left _) .nil), .refl _⟩
    · exact ⟨.cons hl (.cons hr .nil), sublist_append_left ..⟩
    · exact ⟨.cons hl (.cons hr .nil), sublist_append_left ..⟩

theorem binary_spoils {l l' r r' : Typed} (hl : l.Spoils l')
    (hr : r.Spoils r') : (binary span l op r).Spoils (binary span l' op r') := by
  have hfaults := hl.faults.append hr.faults
  by_cases herr : l'.ty = .error ∨ r'.ty = .error
  · obtain ⟨hoperands, hreports⟩ := binary_reports span op hl.nodes hr.nodes
    have hsecond : binary span l' op r' =
        ⟨.binary l'.expr op r'.expr, .error, l'.faults ++ r'.faults⟩ := by
      unfold binary
      rw [if_pos herr]
    rw [hsecond]
    exact ⟨hoperands, .inr rfl, hfaults.trans hreports⟩
  · -- Neither operand is spoiled, so both runs go the same way.
    obtain ⟨hlerr, hrerr⟩ := not_or.mp herr
    have hlty := hl.ty.resolve_right hlerr
    have hrty := hr.ty.resolve_right hrerr
    unfold binary
    rw [hlty, hrty] at herr ⊢
    simp only [if_neg herr]
    split
    · exact ⟨.cons hl.nodes (.cons hr.nodes .nil), .inl rfl, hfaults⟩
    · exact ⟨.cons (hl.nodes.promote _) (.cons (hr.nodes.promote _) .nil), .inl rfl, hfaults⟩
    · exact ⟨.cons hl.nodes (.cons hr.nodes .nil), .inl rfl, hfaults.append (.refl _)⟩
    · exact ⟨.cons hl.nodes (.cons hr.nodes .nil), .inl rfl, hfaults.append (.refl _)⟩

/-- The expression of an actual parameter stays, and a spoiled one is not reported. -/
theorem argument_spoils {a b : Typed} (h : a.Spoils b)
    {formal formal' : Option Ty} (hformal : SpoilsVariable formal formal') :
    (argument function position a formal).1.SpoilsAll (argument function position b formal').1 ∧
      (argument function position b formal').2.Sublist (argument function position a formal).2 := by
  have hfirst : ∀ {x : Expr}, a.expr.SpoilsAll x →
      (argument function position a formal).1.SpoilsAll x := by
    intro x hx
    cases formal with
    | none => exact hx
    | some expected =>
      simp only [argument]
      split
      · exact hx
      · split
        · exact hx.promote_left _
        · exact hx
  by_cases hspoiled : b.ty = .error ∨ formal' = some .error
  · have hsecond : argument function position b formal' = (b.expr, []) := by
      cases formal' with
      | none => rfl
      | some expected => exact if_pos (hspoiled.imp_right Option.some.inj)
    rw [hsecond]
    exact ⟨hfirst h.nodes, nil_sublist _⟩
  · obtain ⟨hb, hf⟩ := not_or.mp hspoiled
    obtain rfl : formal' = formal := hformal.resolve_right fun h => hf h.2
    cases formal' with
    | none => exact ⟨h.nodes, .refl _⟩
    | some expected =>
      simp only [argument]
      rw [h.ty.resolve_right hb, h.nodes.span]
      split
      · exact ⟨h.nodes, .refl _⟩
      · split
        · exact ⟨h.nodes.promote _, .refl _⟩
        · exact ⟨h.nodes, .refl _⟩

theorem plain_spoils (h : Forall₂ Typed.Spoils args args') :
    Forall₂ SpoilsAll (args.map Typed.expr) (args'.map Typed.expr) := by
  rw [forall₂_map_left_iff, forall₂_map_right_iff]
  exact h.imp fun _ _ h => h.nodes

theorem arguments_spoils
    {formals formals' : List (Option Ty)} (hargs : Forall₂ Typed.Spoils args args')
    (hformals : Forall₂ SpoilsVariable formals formals') :
    Forall₂ SpoilsAll (arguments function position args formals).1
        (arguments function position args' formals').1 ∧
      (arguments function position args' formals').2.Sublist
        (arguments function position args formals).2 := by
  induction hargs generalizing formals formals' position with
  | nil =>
    simp only [arguments]
    exact ⟨.nil, .refl _⟩
  | @cons a b as bs hfirst hrest ih =>
    cases hformals with
    | nil => exact ⟨plain_spoils (.cons hfirst hrest), .refl _⟩
    | cons hformal hformals =>
      obtain ⟨hothers, hlater⟩ := ih (position + 1) hformals
      obtain ⟨hchecked, hfaults⟩ := argument_spoils function position hfirst hformal
      rw [arguments_cons, arguments_cons]
      exact ⟨.cons hchecked hothers, hfaults.append hlater⟩

theorem faults_spoil (h : Forall₂ Typed.Spoils args args') :
    (args'.flatMap Typed.faults).Sublist (args.flatMap Typed.faults) := by
  induction h with
  | nil => exact .refl _
  | cons hfirst _ ih => exact hfirst.faults.append ih

theorem call_spoils (h : t.Spoils t') (scope : ScopeId) (span : Span) (function : String)
    (symbol : Option SymbolId) (hargs : Forall₂ Typed.Spoils args args') :
    (call t scope span function symbol args).Spoils (call t' scope span function symbol args') := by
  have hfaults := faults_spoil hargs
  have hplain := plain_spoils hargs
  unfold call
  dsimp only
  rw [h.resolve]
  cases t.resolve scope function with
  | none => exact ⟨hplain, .inl rfl, hfaults.append (.refl _)⟩
  | some id =>
    dsimp only
    rw [h.func?]
    cases t.func? id with
    | none => exact ⟨hplain, .inl rfl, hfaults.append (.refl _)⟩
    | some f =>
      have hformals : Forall₂ SpoilsVariable
          (f.params.map fun p => (t.var? p).bind Variable.ty)
          (f.params.map fun p => (t'.var? p).bind Variable.ty) := by
        rw [forall₂_map_left_iff, forall₂_map_right_iff, forall₂_same]
        intro p _
        cases hv : t.var? p with
        | none =>
          rw [h.var?_eq_none hv]
          exact .inl rfl
        | some v =>
          obtain ⟨ty, hv', hty⟩ := h.var? hv
          rw [hv']
          exact hty
      dsimp only
      simp only [length_map, ← hargs.length_eq]
      split
      · exact ⟨hplain, .inl rfl, hfaults.append (.refl _)⟩
      · obtain ⟨hchecked, hlater⟩ := arguments_spoils function 1 hargs hformals
        exact ⟨hchecked, .inl rfl, hfaults.append hlater⟩

/-- Shapes over operands. -/
theorem shape_spoils (h : t.Spoils t') (scope : ScopeId) (span : Span) (kind : ExprKind)
    (hoperands : ∀ c ∈ kind.operands, (value t scope c).Spoils (value t' scope c)) :
    (shape t scope span kind).Spoils (shape t' scope span kind) := by
  have hdef : ∀ t c, (expr t scope c).asValue = value t scope c := fun _ _ => rfl
  cases kind with
  | int | float | text | bool => exact ⟨.nil, .inl rfl, .refl _⟩
  | vector elements =>
    have hall : Forall₂ Typed.Spoils (elements.map (value t scope))
        (elements.map (value t' scope)) := by
      rw [forall₂_map_left_iff, forall₂_map_right_iff, forall₂_same]
      exact hoperands
    simp only [shape, exprs_eq_map]
    generalize elements.map (value t scope) = es at hall
    generalize elements.map (value t' scope) = es' at hall
    refine ⟨?_, .inl rfl, ?_⟩
    · simp only [ExprKind.operands]
      rw [forall₂_map_left_iff, forall₂_map_right_iff]
      exact hall.imp fun _ _ h => h.asElement.1
    · induction hall with
      | nil => exact .refl _
      | cons hfirst _ ih => exact (hfirst.faults.append hfirst.asElement.2).append ih
  | name n symbol =>
    obtain ⟨hty, hfaults⟩ := name_spoils h scope span n
    exact ⟨.nil, hty, hfaults⟩
  | binary left op right =>
    exact binary_spoils span op (hoperands left (by simp))
      (hoperands right (by simp))
  | call function args symbol =>
    simp only [shape, exprs_eq_map]
    refine call_spoils h scope span function symbol ?_
    rw [forall₂_map_left_iff, forall₂_map_right_iff, forall₂_same]
    exact hoperands
  | negate operand | not operand | len operand =>
    have ho := hoperands operand (.head _)
    have hnodes := Forall₂.cons ho.nodes .nil
    have hmore : ∀ own, (value t' scope operand).faults.Sublist
        ((value t scope operand).faults ++ own) :=
      fun own => ho.faults.trans (sublist_append_left ..)
    simp only [shape, hdef]
    obtain hty | hty := ho.ty
    · rw [hty]
      split
      all_goals exact ⟨hnodes, .inl rfl, by simp [ho.faults]⟩
    · rw [hty]
      split
      all_goals exact ⟨hnodes, .inr rfl, by simp [ho.faults, hmore]⟩
  | index target i =>
    have ht := hoperands target (.head _)
    have hi := hoperands i (.tail _ (.head _))
    have hnodes := Forall₂.cons ht.nodes (.cons hi.nodes .nil)
    have hfaults := (ht.faults.append hi.faults).append hi.indexFaults
    simp only [shape, hdef]
    generalize value t scope target = e at ht hnodes hfaults ⊢
    generalize value t' scope target = e' at ht hnodes hfaults ⊢
    generalize value t scope i = x at hnodes hfaults ⊢
    generalize value t' scope i = x' at hnodes hfaults ⊢
    obtain hty | hty := ht.ty
    · rw [hty]
      split
      · exact ⟨hnodes, .inl rfl, hfaults⟩
      · exact ⟨hnodes, .inl rfl, hfaults⟩
      · exact ⟨hnodes, .inl rfl, hfaults⟩
      · exact ⟨hnodes, .inl rfl, hfaults.append (.refl _)⟩
    · rw [hty]
      split
      · exact ⟨hnodes, .inr rfl, hfaults⟩
      · exact ⟨hnodes, .inr rfl, hfaults⟩
      · exact ⟨hnodes, .inr rfl, hfaults⟩
      · exact ⟨hnodes, .inr rfl, hfaults.trans (sublist_append_left ..)⟩

/-- **Expressions.**  Typing an expression in a spoiled table. -/
theorem expr_spoils (h : t.Spoils t') (scope : ScopeId) (e : Expr) :
    (expr t scope e).Spoils (expr t' scope e) := by
  induction e using Expr.induction with
  | step e ih =>
    have hplain : (expr t' scope e).expr.plain = (expr t scope e).expr.plain :=
      (expr_annotates t' scope e).plain.trans (expr_annotates t scope e).plain.symm
    rcases e with ⟨kind, span, ty, promoteTo⟩
    have hshape := shape_spoils h scope span kind fun c hc => (ih c hc).asValue
    have hroot := Spoils.mk hplain (hshape.ty.imp (congrArg some) (congrArg some))
    exact ⟨.of_operands hroot hshape.operands, hshape.ty, rfl, hshape.faults⟩

theorem value_spoils (h : t.Spoils t') (scope : ScopeId) (e : Expr) :
    (value t scope e).Spoils (value t' scope e) :=
  (expr_spoils h scope e).asValue

end Typing

/-! ## Statements -/

/-- All expressions of statements with those of the statements inside them, in order. -/
def allExprs : List Expr :=
  (stmtNodes ss).flatMap Located.exprNodes

theorem allExprs_cons (s : Stmt) (ss : List Stmt) :
    allExprs (s :: ss) = allExprs [s] ++ allExprs ss := by
  simp [allExprs, stmtNodes]

/-- A statement has its own expressions and those of its blocks. -/
theorem allExprs_singleton {s : Stmt} : allExprs [s] =
    s.exprNodes ++ s.kind.blocks.flatMap fun b => allExprs b.statements := by
  simp [allExprs, stmtNodes_eq_flatMap, Located.nodes_eq s, flatMap_assoc, BlockOf.nodes_eq]

namespace Typing

variable {t t' : Table}

/-- What typing statements gives in the two runs. -/
structure StmtsSpoil (a b : Passed (List Stmt)) : Prop where
  exprs : Forall₂ Spoils (allExprs a.tree) (allExprs b.tree)
  table : a.table.Spoils b.table
  faults : b.faults.Sublist a.faults

/-- What typing a block gives in the two runs. -/
structure BlockSpoils (a b : Passed Block) : Prop where
  exprs : Forall₂ Spoils (allExprs a.tree.statements) (allExprs b.tree.statements)
  table : a.table.Spoils b.table
  faults : b.faults.Sublist a.faults

theorem condition_spoils (h : t.Spoils t') (scope : ScopeId) (cond : Expr) :
    (condition t scope cond).1.SpoilsAll (condition t' scope cond).1 ∧
      (condition t' scope cond).2.Sublist (condition t scope cond).2 := by
  have he := value_spoils h scope cond
  obtain hty | hty := he.ty
  · unfold condition
    dsimp only
    rw [hty, he.nodes.span]
    split
    · exact ⟨he.nodes, he.faults⟩
    · exact ⟨he.nodes, he.faults.append (.refl _)⟩
  · have hsecond : condition t' scope cond = ((value t' scope cond).expr,
        (value t' scope cond).faults) := if_pos (.inr hty)
    rw [hsecond]
    unfold condition
    dsimp only
    split
    · exact ⟨he.nodes, he.faults⟩
    · exact ⟨he.nodes, he.faults.trans (sublist_append_left ..)⟩

/-- Both runs find the same target, up to its type. -/
theorem target_spoils (h : t.Spoils t') (scope : ScopeId) (span : Span) (name : String) :
    (∃ fault, target t scope span name = .error fault ∧ target t' scope span name = .error fault) ∨
      ∃ id v ty, target t scope span name = .ok (id, v) ∧
        target t' scope span name = .ok (id, { v with ty := ty }) ∧ SpoilsVariable v.ty ty := by
  unfold target
  rw [h.resolve]
  cases t.resolve scope name with
  | none => exact .inl ⟨_, rfl, rfl⟩
  | some id =>
    dsimp only
    cases hv : t.var? id with
    | none =>
      rw [h.var?_eq_none hv]
      exact .inl ⟨_, rfl, rfl⟩
    | some v =>
      obtain ⟨ty, hv', hty⟩ := h.var? hv
      grind

/-- What typing a statement gives in the two runs, given what it gives for its blocks. -/
theorem StmtsSpoil.of_blocks {k k' : StmtKind} {span : Span} {ds ds' : List Diagnostic}
    {u u' : Table} (hexprs : Forall₂ SpoilsAll k.exprs k'.exprs)
    (hblocks : Forall₂ (fun b b' : Block => Forall₂ Spoils
      (allExprs b.statements) (allExprs b'.statements)) k.blocks k'.blocks)
    (htable : u.Spoils u') (hfaults : ds'.Sublist ds) :
    StmtsSpoil ⟨[⟨k, span⟩], u, ds⟩ ⟨[⟨k', span⟩], u', ds'⟩ where
  exprs := by
    rw [allExprs_singleton, allExprs_singleton]
    exact rel_append (SpoilsAll.flatMap hexprs)
      (rel_flatMap hblocks fun _ _ h => h)
  table := htable
  faults := hfaults

section

variable (h : t.Spoils t') (scope : ScopeId) (span : Span) (name : String)

include h scope span

theorem assignment_spoils (symbol : Option SymbolId) {e e' : Typed} (he : e.Spoils e') :
    StmtsSpoil ((assignment t scope span name e symbol).map fun k => [⟨k, span⟩])
      ((assignment t' scope span name e' symbol).map fun k => [⟨k, span⟩]) := by
  have hresult : ∀ {x x' : Expr} {found : Option SymbolId} {u u' : Table}
    {ds ds' : List Diagnostic},
      x.SpoilsAll x' → u.Spoils u' → ds'.Sublist ds →
      StmtsSpoil ⟨[⟨.assign name x found, span⟩], u, ds⟩
        ⟨[⟨.assign name x' found, span⟩], u', ds'⟩ :=
    fun hx hu hds => .of_blocks (.cons hx .nil) .nil hu hds
  unfold assignment
  obtain ⟨fault, hfirst, hsecond⟩ | ⟨id, v, ty, hfirst, hsecond, hty⟩ :=
    target_spoils h scope span name
  · rw [hfirst, hsecond]
    exact hresult he.nodes h (he.faults.append (.refl _))
  · rw [hfirst, hsecond]
    dsimp only
    cases hv : v.ty with
    | none =>
      rw [hv] at hty
      obtain rfl : ty = none := hty.resolve_right fun h => by cases h.1
      exact hresult he.nodes (h.setVariableTy id he.ty) he.faults
    | some expected =>
      rw [hv] at hty
      obtain ⟨expected', rfl, hexpected⟩ : ∃ x, ty = some x ∧ expected.Spoils x :=
        hty.elim (fun heq => ⟨expected, heq, .inl rfl⟩) fun heq => ⟨.error, heq.2, .inr rfl⟩
      dsimp only
      by_cases hspoiled : expected' = .error ∨ e'.ty = .error
      · rw [if_pos hspoiled]
        split
        · exact hresult he.nodes h he.faults
        · split
          · exact hresult (he.nodes.promote_left _) h he.faults
          · exact hresult he.nodes h (he.faults.trans (sublist_append_left ..))
      · obtain ⟨hx, hy⟩ := not_or.mp hspoiled
        obtain rfl := hexpected.resolve_right hx
        rw [he.ty.resolve_right hy] at hspoiled ⊢
        rw [if_neg hspoiled, if_neg hspoiled]
        split
        · exact hresult (he.nodes.promote _) h he.faults
        · exact hresult he.nodes h (he.faults.append (.refl _))

theorem elementTarget_spoils :
    (elementTarget t' scope span name).2.Sublist (elementTarget t scope span name).2 := by
  unfold elementTarget
  obtain ⟨fault, hfirst, hsecond⟩ | ⟨id, v, ty, hfirst, hsecond, hty⟩ :=
    target_spoils h scope span name
  · rw [hfirst, hsecond]
  · rw [hfirst, hsecond]
    dsimp only
    obtain rfl | ⟨-, rfl⟩ := hty
    · exact .refl _
    · exact nil_sublist _

theorem returning_spoils {e e' : Typed} (he : e.Spoils e') :
    ∃ x x', (returning t scope span e).1 = .ret x ∧ (returning t' scope span e').1 = .ret x' ∧
      x.SpoilsAll x' ∧
      (returning t' scope span e').2.Sublist (returning t scope span e).2 := by
  unfold returning
  rw [h.enclosingFunction]
  cases t.enclosingFunction scope with
  | none => exact ⟨_, _, rfl, rfl, he.nodes, he.faults.append (.refl _)⟩
  | some id =>
    dsimp only
    rw [h.func?]
    cases t.func? id with
    | none => exact ⟨_, _, rfl, rfl, he.nodes, he.faults⟩
    | some f =>
      dsimp only
      by_cases hvoid : f.returnTy = .void
      · rw [if_pos hvoid, if_pos hvoid]
        exact ⟨_, _, rfl, rfl, he.nodes, he.faults.append (.refl _)⟩
      · rw [if_neg hvoid, if_neg hvoid]
        obtain hty | hty := he.ty
        · rw [hty]
          split
          · exact ⟨_, _, rfl, rfl, he.nodes, he.faults⟩
          · split
            · exact ⟨_, _, rfl, rfl, he.nodes.promote _, he.faults⟩
            · exact ⟨_, _, rfl, rfl, he.nodes, he.faults.append (.refl _)⟩
        · rw [if_pos (.inr hty : f.returnTy = .error ∨ e'.ty = .error)]
          split
          · exact ⟨_, _, rfl, rfl, he.nodes, he.faults⟩
          · split
            · exact ⟨_, _, rfl, rfl, he.nodes.promote_left _, he.faults⟩
            · exact ⟨_, _, rfl, rfl, he.nodes, he.faults.trans (sublist_append_left ..)⟩

end

/-- What the two runs give for a statement, in any scope. -/
def StmtSpoils (s : Stmt) : Prop :=
  ∀ (scope : ScopeId) {t t' : Table}, t.Spoils t' →
    StmtsSpoil ((stmt scope t s).map ([·])) ((stmt scope t' s).map ([·]))

theorem stmts_spoil_of {ss : List Stmt} (hss : ∀ s ∈ ss, StmtSpoils s) (scope : ScopeId)
    {t t' : Table} (h : t.Spoils t') : StmtsSpoil (stmts scope t ss) (stmts scope t' ss) := by
  induction ss generalizing t t' with
  | nil => exact ⟨.nil, h, .refl _⟩
  | cons s ss ih =>
    have hfirst := hss s (.head _) scope h
    have hrest := ih (fun c hc => hss c (.tail s hc)) hfirst.table
    simp only [stmts]
    refine ⟨?_, hrest.table, hfirst.faults.append hrest.faults⟩
    rw [allExprs_cons, allExprs_cons (stmt scope t' s).tree]
    exact rel_append hfirst.exprs hrest.exprs

theorem block_spoils_of {b : Block} (hb : ∀ s ∈ b.statements, StmtSpoils s) {t t' : Table}
    (h : t.Spoils t') : BlockSpoils (block t b) (block t' b) := by
  rcases b with ⟨statements, span, none | scope⟩
  · refine ⟨forall₂_same.mpr fun e _ => ⟨rfl, .inl rfl⟩, h, .refl _⟩
  · have hinner := stmts_spoil_of hb scope h
    exact ⟨hinner.exprs, hinner.table, hinner.faults⟩

/-- **Statements.**  Typing a statement in a spoiled table. -/
theorem stmt_spoils (s : Stmt) : StmtSpoils s := by
  induction s using Stmt.induction with
  | step s ih =>
    intro scope t t' h
    rcases s with ⟨kind, span⟩
    have hblock : ∀ b ∈ kind.blocks, ∀ {u u' : Table}, u.Spoils u' →
        BlockSpoils (block u b) (block u' b) :=
      fun b hb _ _ hu => block_spoils_of (ih b hb) hu
    cases kind with
    | define name init symbol =>
      have he := value_spoils h scope init
      refine .of_blocks (.cons he.nodes .nil) .nil ?_ he.faults
      cases symbol with
      | none => exact h
      | some id => exact h.setVariableTy id he.ty
    | assign name init symbol =>
      exact assignment_spoils h scope span name symbol (value_spoils h scope init)
    | assignElement name index init symbol =>
      have hi := expr_spoils h scope index
      have he := value_spoils h scope init
      have htarget := elementTarget_spoils h scope span name
      exact .of_blocks (.cons hi.nodes (.cons he.asElement.1 .nil)) .nil h
        ((((hi.faults.append he.faults).append htarget).append hi.indexFaults).append
          he.asElement.2)
    | call c =>
      have hc := expr_spoils h scope c
      exact .of_blocks (.cons hc.nodes .nil) .nil h hc.faults
    | print shown =>
      cases shown with
      | none => exact .of_blocks .nil .nil h (.refl _)
      | some shown =>
        have he := value_spoils h scope shown
        exact .of_blocks (.cons he.nodes .nil) .nil h he.faults
    | ret given =>
      obtain ⟨x, x', hfirst, hsecond, hx, hfaults⟩ :=
        returning_spoils h scope span (value_spoils h scope given)
      simp only [stmt, stmtKind, Passed.map, hfirst, hsecond]
      exact .of_blocks (.cons hx .nil) .nil h hfaults
    | block body =>
      have hbody := hblock body (.head _) h
      exact .of_blocks .nil (.cons hbody.exprs .nil) hbody.table hbody.faults
    | loop cond body =>
      obtain ⟨hcond, hfaults⟩ := condition_spoils h scope cond
      have hbody := hblock body (.head _) h
      exact .of_blocks (.cons hcond .nil) (.cons hbody.exprs .nil) hbody.table
        (hfaults.append hbody.faults)
    | ifElse cond thenBlock elseBlock =>
      obtain ⟨hcond, hfaults⟩ := condition_spoils h scope cond
      have hthen := hblock thenBlock (.head _) h
      cases elseBlock with
      | none =>
        exact .of_blocks (.cons hcond .nil) (.cons hthen.exprs .nil) hthen.table
          (hfaults.append hthen.faults)
      | some elseBlock =>
        have helse := hblock elseBlock (.tail _ (.head _))
          hthen.table
        exact .of_blocks (.cons hcond .nil) (.cons hthen.exprs (.cons helse.exprs .nil))
          helse.table ((hfaults.append hthen.faults).append helse.faults)

/-- **Faults do not cascade.**  Typing statements when some typed variables have the type of a fault
instead of their own reports a sublist of the diagnostics, and afterwards every expression and every
variable has the same type or that of a fault. -/
theorem stmts_do_not_cascade (scope : ScopeId) {t t' : Table} (h : t.Spoils t') :
    (stmts scope t' ss).faults.Sublist (stmts scope t ss).faults ∧
      Forall₂ Annotated.Spoils (allExprs (stmts scope t ss).tree)
        (allExprs (stmts scope t' ss).tree) ∧
      (stmts scope t ss).table.Spoils (stmts scope t' ss).table := by
  have hrun := stmts_spoil_of (fun s (_ : s ∈ ss) => stmt_spoils s) scope h
  exact ⟨hrun.faults, hrun.exprs, hrun.table⟩

/-- Statements that use the number `a` as a text, inside a block and outside. -/
def misusedNumber : Passed Script :=
  Declare.script Table.initial
    (Script.read "var a = 1\nif (a < 2) \x7b var b = a + \"s\" print(b) \x7d\na = \"t\"" {}).1

set_option maxRecDepth 20000 in
/-- With `a` an integer two faults are reported, and with `a` spoiled none of them. -/
theorem stmts_do_not_cascade_misusedNumber : (misusedNumber.table.setVariableTy ⟨5⟩ .int).Spoils
        (misusedNumber.table.setVariableTy ⟨5⟩ .error) ∧
      (let first := stmts Table.global (misusedNumber.table.setVariableTy ⟨5⟩ .int)
        (misusedNumber.tree.statements.drop 1)
      let second := stmts Table.global (misusedNumber.table.setVariableTy ⟨5⟩ .error)
        (misusedNumber.tree.statements.drop 1)
      first.faults.length = 2 ∧ second.faults.length = 0 ∧ second.faults.Sublist first.faults ∧
        Forall₂ Spoils (allExprs first.tree) (allExprs second.tree) ∧
        first.table.Spoils second.table) :=
  have h := (Table.Spoils.refl misusedNumber.table).setVariableTy ⟨5⟩
    (.inr rfl : Ty.int.Spoils .error)
  ⟨h, by decide +kernel, by decide +kernel, stmts_do_not_cascade _ Table.global h⟩

end Typing

end WichToC
