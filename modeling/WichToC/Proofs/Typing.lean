import WichToC.Proofs.Elaboration

/-!
# What typing an expression yields

Typing without a fault gives every expression a type that follows from the types of its operands by
the rule of its shape (`Annotated.Rule`), widens an operand exactly where its consumer asks for
another type, and gives every name the symbol that it stands for (`Annotated.Resolves`).
-/

namespace WichToC

open List Annotated ExprKind

variable {t : Table} {e : Expr}
variable {kind : ExprKind} {scope : ScopeId}

/-! ## Rules of expressions -/

/-- The expression is widened to the type that its consumer expects, unless it has that type. -/
def Annotated.WidenedTo (e : Expr) (target : Ty) : Prop :=
  e.promoteTo = if e.ty = some target then none else some target

/-- The expression can be used as a value: it has a type, which is neither `void` nor `error`. -/
def Annotated.IsValue (e : Expr) : Prop :=
  ∃ ty, e.ty = some ty ∧ ty ≠ .void ∧ ty ≠ .error

/-- An actual parameter goes to a formal one: its type can be stored there, and it is widened to the
type of the formal parameter. -/
def Table.Accepts (t : Table) (param : SymbolId) (arg : Expr) : Prop :=
  ∃ v expected given, t.var? param = some v ∧ v.ty = some expected ∧ arg.ty = some given ∧
    given.assignable expected ∧ arg.WidenedTo expected

/-- How the type of an expression follows from the types of its operands, and which operands are
widened, when variables have the types of the table. -/
def ExprKind.Gives (t : Table) (ty : Ty) : ExprKind → Prop
  | .int _ => ty = .int
  | .float _ => ty = .float
  | .text _ => ty = .string
  | .bool _ => ty = .boolean
  | .vector elements => ty = .vector ∧
      ∀ e ∈ elements, (e.ty = some .int ∨ e.ty = some .float) ∧ e.WidenedTo .float
  | .name n symbol => ∃ id v, symbol = some id ∧ t.var? id = some v ∧ v.name = n ∧
      v.ty = some ty
  | .binary left op right => ∃ l r common, left.ty = some l ∧ right.ty = some r ∧
      op.typing l r = .result ty common ∧
      match common with
      | none => left.promoteTo = none ∧ right.promoteTo = none
      | some wide => left.WidenedTo wide ∧ right.WidenedTo wide
  | .negate operand => operand.ty = some ty ∧ operand.promoteTo = none ∧
      (ty = .int ∨ ty = .float ∨ ty = .vector)
  | .not operand => operand.ty = some ty ∧ operand.promoteTo = none ∧ ty = .boolean
  | .index target i => target.promoteTo = none ∧ i.ty = some .int ∧ i.promoteTo = none ∧
      (target.ty = some .vector ∧ ty = .float ∨ target.ty = some .string ∧ ty = .string)
  | .call _ args symbol => ∃ id f, symbol = some id ∧ t.func? id = some f ∧ ty = f.returnTy ∧
      List.Forall₂ t.Accepts f.params args
  | .len operand => operand.promoteTo = none ∧ ty = .int ∧
      (operand.ty = some .vector ∨ operand.ty = some .string)

/-- An expression has a type by its rule, and its operands are values. -/
structure Annotated.Rule (t : Table) (e : Expr) : Prop where
  gives : ∃ ty, e.ty = some ty ∧ ty ≠ .error ∧ e.kind.Gives t ty
  operands : ∀ c ∈ e.kind.operands, c.IsValue

/-- An expression and all its parts have types by their rules. -/
def Annotated.Ruled (t : Table) (e : Expr) : Prop :=
  ∀ n ∈ e.nodes, n.Rule t

theorem Annotated.ruled_iff : e.Ruled t ↔ e.Rule t ∧ ∀ c ∈ e.kind.operands, c.Ruled t :=
  forall_nodes

/-- What a consumer asks of an expression does not matter for its own type. -/
theorem Annotated.Ruled.widen (h : e.Ruled t) (promoteTo : Option Ty) :
    Ruled t { e with promoteTo := promoteTo } := by
  rw [ruled_iff] at h ⊢
  exact ⟨⟨h.1.gives, h.1.operands⟩, h.2⟩

theorem Annotated.Ruled.promote (h : e.Ruled t) (target : Ty) : Ruled t (e.promote target) := by
  unfold Annotated.promote
  split
  · exact h
  · exact h.widen _

@[simp] theorem Annotated.ty_promote (e : Expr) (target : Ty) : (e.promote target).ty = e.ty := by
  unfold promote
  split <;> rfl

theorem Annotated.widenedTo_promote (h : e.promoteTo = none) (target : Ty) :
    (e.promote target).WidenedTo target := by
  unfold WidenedTo promote
  split <;> simp_all

theorem Annotated.isValue_promote (target : Ty) : (e.promote target).IsValue ↔ e.IsValue := by
  simp [IsValue]

theorem Annotated.effectiveTy_of_promoteTo (h : e.promoteTo = none) : e.effectiveTy = e.ty := by
  rw [effectiveTy, h]
  rfl

theorem Annotated.WidenedTo.effectiveTy {target : Ty} (h : e.WidenedTo target) :
    e.effectiveTy = some target := by
  unfold Annotated.effectiveTy
  rw [h]
  grind

/-! ## Names in expressions -/

/-- The symbol of a name is the one that the name stands for in the scope. -/
def ExprKind.Resolves (t : Table) (scope : ScopeId) : ExprKind → Prop
  | .name n symbol => symbol = t.resolve scope n
  | .call function _ symbol => symbol = t.resolve scope function
  | _ => True

/-- All names of an expression have the symbols that they stand for in the scope. -/
def Annotated.Resolves (t : Table) (scope : ScopeId) (e : Expr) : Prop :=
  ∀ n ∈ e.nodes, n.kind.Resolves t scope

theorem Annotated.resolves_iff :
    e.Resolves t scope ↔ e.kind.Resolves t scope ∧ ∀ c ∈ e.kind.operands, c.Resolves t scope :=
  forall_nodes

theorem Annotated.Resolves.congr {e' : Expr}
    (h : e.Resolves t scope) (hkind : e'.kind = e.kind) : e'.Resolves t scope := by
  rw [resolves_iff] at h ⊢
  rwa [hkind]

@[simp] theorem Annotated.kind_promote {target : Ty} : (e.promote target).kind = e.kind := by
  unfold promote
  split <;> rfl

/-! ## Expressions -/

theorem Annotated.widenedTo_typedAs {ty used : Ty} : (e.typedAs kind ty used).WidenedTo used := by
  simp [WidenedTo, typedAs]

@[simp] theorem Annotated.promoteTo_typedAs {ty : Ty} : (e.typedAs kind ty ty).promoteTo = none :=
  if_pos rfl

namespace Typing

variable {t : Table} {scope : ScopeId} {e : Typed}

/-- An operand that can be stored as a value of the given type. -/
structure UsedAs (t : Table) (scope : ScopeId) (used : Ty) (c : Expr) : Prop where
  stored : ∃ given, c.ty = some given ∧ given.assignable used
  widening : c.WidenedTo used
  isValue : c.IsValue
  ruled : c.Ruled t
  names : c.Resolves t scope

/-- What the rules say of an expression holds of it and its parts. -/
def RuledBy (t : Table) (scope : ScopeId) (e : Expr) : Prop :=
  ∀ ty kind, e.kind.Elaborates t scope ty kind → ∀ used,
    (e.typedAs kind ty used).Ruled t ∧ (e.typedAs kind ty used).Resolves t scope

theorem usedAs_of_elaborateAs (hclean : t.Clean) {es es' : List Expr} {useds : List Ty}
    (hes : ∀ e ∈ es, RuledBy t scope e) (h : ElaborateAs t scope es useds es') :
    List.Forall₂ (UsedAs t scope) useds es' := by
  induction es generalizing useds es' with
  | nil =>
    cases h with
    | nil => exact .nil
  | cons e es ih =>
    obtain ⟨he, hes⟩ := forall_mem_cons.mp hes
    cases h with
    | @cons _ ty used _ _ _ _ first hvoid stored rest =>
      obtain ⟨hruled, hnames⟩ := he _ _ first used
      have hassign : ty.assignable used := by simpa [Ty.assignable] using stored
      exact .cons
        ⟨⟨ty, rfl, hassign⟩, widenedTo_typedAs .., ⟨ty, rfl, hvoid, first.ne_error hclean⟩,
        hruled, hnames⟩ (ih hes rest)

theorem accepts_of_usedAs {params : List SymbolId} {formals : List Ty} {args : List Expr}
    (hknown : (params.map fun p => (t.var? p).bind Variable.ty) = formals.map some)
    (h : List.Forall₂ (UsedAs t scope) formals args) : List.Forall₂ t.Accepts params args := by
  induction h generalizing params with
  | nil =>
    rw [map_eq_nil_iff.mp hknown]
    exact .nil
  | @cons formal arg _ _ harg _ ih =>
    cases params with
    | nil => cases hknown
    | cons p params =>
      obtain ⟨hp, hrest⟩ := cons.inj hknown
      obtain ⟨v, hv, hty⟩ := Option.bind_eq_some_iff.mp hp
      obtain ⟨given, hgiven, hassign⟩ := harg.stored
      exact .cons ⟨v, formal, given, hv, hty, hgiven, hassign, harg.widening⟩ (ih hrest)

theorem ruledBy (hclean : t.Clean) (e : Expr) : RuledBy t scope e := by
  induction e using Expr.induction with
  | step e ih =>
    intro ty kind' h used
    rcases e with ⟨kind, span, ety, promoteTo⟩
    replace ih : ∀ c ∈ kind.operands, RuledBy t scope c := ih
    have hne := h.ne_error hclean
    have hrule : kind'.Gives t ty → kind'.Resolves t scope →
        (∀ c ∈ kind'.operands, c.IsValue ∧ c.Ruled t ∧ c.Resolves t scope) →
          Ruled t (typedAs ⟨kind, span, ety, promoteTo⟩ kind' ty used) ∧
            Resolves t scope (typedAs ⟨kind, span, ety, promoteTo⟩ kind' ty used) :=
      fun hgives hnames hops => ⟨ruled_iff.mpr ⟨⟨⟨ty, rfl, hne, hgives⟩, fun c hc => (hops c hc).1⟩,
        fun c hc => (hops c hc).2.1⟩, resolves_iff.mpr ⟨hnames, fun c hc => (hops c hc).2.2⟩⟩
    have hoperand : ∀ {c : Expr} {cty c' used}, c ∈ kind.operands →
        c.kind.Elaborates t scope cty c' → cty ≠ .void → (c.typedAs c' cty used).IsValue ∧
          (c.typedAs c' cty used).Ruled t ∧ (c.typedAs c' cty used).Resolves t scope :=
      fun hc hcty hvoid => ⟨⟨_, rfl, hvoid, hcty.ne_error hclean⟩, ih _ hc _ _ hcty _⟩
    cases h with
    | int | float | text | bool => exact hrule rfl trivial (by simp)
    | vector elements =>
      have hused := usedAs_of_elaborateAs hclean ih elements
      have hfloat : ∀ c ∈ _, UsedAs t scope .float c := fun c hc => by
        obtain ⟨_, hmem, h⟩ := exists_of_forall₂ hused hc
        grind
      refine hrule ⟨rfl, fun c hc => ⟨?_, (hfloat c hc).widening⟩⟩ trivial fun c hc =>
        ⟨(hfloat c hc).isValue, (hfloat c hc).ruled, (hfloat c hc).names⟩
      obtain ⟨given, hty, hassign⟩ := (hfloat c hc).stored
      cases given <;> simp_all [Ty.assignable]
    | name resolved var known =>
      exact hrule ⟨_, _, rfl, var, Table.name_of_var? (Table.name_of_resolve resolved) var, known⟩
        resolved.symm (by simp)
    | @binary _ _ _ lty rty _ _ _ _ left right rule =>
      obtain ⟨hl, hr⟩ := rule.ne_void
      refine hrule ⟨lty, rty, ?_⟩ trivial (forall_mem_pair.mpr ⟨hoperand (.head _) left hl,
        (hoperand (.tail _ (.head _)) right hr)⟩)
      obtain htyping | ⟨htyping, rfl, rfl⟩ := rule.typing
      · exact ⟨_, rfl, rfl, htyping, widenedTo_typedAs .., widenedTo_typedAs ..⟩
      · exact ⟨_, rfl, rfl, htyping, promoteTo_typedAs .., promoteTo_typedAs ..⟩
    | negate operand number =>
      have hvoid : ty ≠ .void := by obtain rfl | rfl | rfl := number <;> simp
      exact hrule ⟨rfl, promoteTo_typedAs .., number⟩ trivial
        (forall_mem_singleton.mpr (hoperand (.head _) operand hvoid))
    | not operand =>
      exact hrule ⟨rfl, promoteTo_typedAs .., rfl⟩ trivial
        (forall_mem_singleton.mpr (hoperand (.head _) operand (by simp)))
    | element target index =>
      exact hrule ⟨promoteTo_typedAs .., rfl, promoteTo_typedAs .., .inl ⟨rfl, rfl⟩⟩ trivial
        (forall_mem_pair.mpr ⟨hoperand (.head _) target (by simp),
          (hoperand (.tail _ (.head _)) index (by simp))⟩)
    | character target index =>
      exact hrule ⟨promoteTo_typedAs .., rfl, promoteTo_typedAs .., .inr ⟨rfl, rfl⟩⟩ trivial
        (forall_mem_pair.mpr ⟨hoperand (.head _) target (by simp),
          (hoperand (.tail _ (.head _)) index (by simp))⟩)
    | len operand sequence =>
      refine hrule ⟨promoteTo_typedAs .., rfl, sequence.imp (congrArg some) (congrArg some)⟩ trivial
        (forall_mem_singleton.mpr (hoperand (.head _) operand ?_))
      obtain rfl | rfl := sequence <;> simp
    | call resolved func known actuals =>
      have hused := usedAs_of_elaborateAs hclean ih actuals
      refine hrule ⟨_, _, rfl, func, rfl, accepts_of_usedAs known hused⟩ resolved.symm
        fun c hc => ?_
      obtain ⟨_, -, h⟩ := exists_of_forall₂ hused hc
      exact ⟨h.isValue, h.ruled, h.names⟩

/-- A typed expression that has its type by the rules and is not widened yet. -/
structure Typed.Valid (t : Table) (scope : ScopeId) (e : Typed) : Prop where
  ty : e.expr.ty = some e.ty
  widening : e.expr.promoteTo = none
  ruled : e.expr.Ruled t
  names : e.expr.Resolves t scope

namespace Typed.Valid

variable {e : Typed}

theorem ne_error (h : e.Valid t scope) : e.ty ≠ .error := by
  obtain ⟨ty, hty, hne, _⟩ := (ruled_iff.mp h.ruled).1.gives
  rw [h.ty] at hty
  cases hty
  exact hne

theorem isValue (h : e.Valid t scope) (hvoid : e.ty ≠ .void) : e.expr.IsValue :=
  ⟨e.ty, h.ty, hvoid, h.ne_error⟩

end Typed.Valid

theorem asElement_sound (he : e.Valid t scope) (hvoid : e.ty ≠ .void)
    (hfaults : e.asElement.2 = []) :
    (e.asElement.1.ty = some .int ∨ e.asElement.1.ty = some .float) ∧
      e.asElement.1.WidenedTo .float ∧ e.asElement.1.IsValue ∧ e.asElement.1.Ruled t := by
  have hpromoted : (e.expr.promote .float).WidenedTo .float ∧ (e.expr.promote .float).IsValue ∧
      (e.expr.promote .float).Ruled t :=
    ⟨widenedTo_promote he.widening _, (isValue_promote _).mpr (he.isValue hvoid),
      he.ruled.promote _⟩
  cases hty : e.ty <;> simp only [Typed.asElement, hty] at hfaults ⊢ <;> try cases hfaults
  · exact ⟨.inl (by rw [ty_promote, he.ty, hty]), hpromoted⟩
  · exact ⟨.inr (by rw [ty_promote, he.ty, hty]), hpromoted⟩
  · exact absurd hty he.ne_error

theorem indexFaults_sound (he : e.Valid t scope) (hfaults : e.indexFaults = []) :
    e.expr.ty = some .int := by
  unfold Typed.indexFaults at hfaults
  split at hfaults
  · rename_i h
    rw [he.ty, h.resolve_right he.ne_error]
  · cases hfaults

/-- **Typing expressions.**  Without a fault every expression gets its type by the rules. -/
theorem expr_sound (hclean : t.Clean) {e : Expr} (hu : e.Unwidened)
    (hfaults : (expr t scope e).faults = []) : (expr t scope e).Valid t scope := by
  obtain ⟨ty, kind, h⟩ := elaborates_of_faults hclean e hu hfaults
  rw [finds hclean e hu ty kind h]
  obtain ⟨hruled, hnames⟩ := ruledBy hclean e ty kind h ty
  exact ⟨rfl, promoteTo_typedAs .., hruled, hnames⟩

/-- The use of an expression as a value, typed without a fault. -/
theorem value_sound (hclean : t.Clean) {e : Expr} (hu : e.Unwidened)
    (hfaults : (value t scope e).faults = []) :
    (value t scope e).Valid t scope ∧ (value t scope e).ty ≠ .void := by
  obtain ⟨heq, hnone, hvoid⟩ := asValue_of_faults hfaults
  rw [value, heq]
  exact ⟨expr_sound hclean hu hnone, hvoid⟩

@[simp] theorem Typed.kind_asElement : e.asElement.1.kind = e.expr.kind := by
  unfold Typed.asElement
  split <;> simp

end Typing

end WichToC
