import WichToC.Analysis.Typing
import WichToC.Proofs.Declaring

/-!
# The rules for types of expressions

`ExprKind.Elaborates` gives the rules by which expressions have types, and with each rule the types
as which the operands are used: an operand of a narrower type is widened to the type as which it is
used, and no other expression is widened.  The rules say nothing about faults; typing reports none
exactly where the rules give a type, and then it finds that type and marks those operands.

`Typing.finds` and `Typing.elaborates_of_faults` are the two directions.
-/

namespace WichToC

open List Annotated

variable {ty : Ty} {function : String} {position : Nat}

/-! ## Rules -/

/-- The types of arithmetic. -/
def Ty.IsArithmetic (ty : Ty) : Prop :=
  ty = .int ∨ ty = .float ∨ ty = .vector

/-- The wider of two types of arithmetic: vectors if there is one, otherwise `float` if there is
one. -/
def Ty.wider (left right : Ty) : Ty :=
  if left = .vector ∨ right = .vector then .vector
  else if left = .float ∨ right = .float then .float
  else .int

/-- The rules for operators, with the types of the operands, the type as which both of them are
used, and the type of the result. -/
inductive Operator.Rule (op : Operator) : Ty → Ty → Ty → Ty → Prop
  | arithmetic {left right : Ty} (family : op.family = .arithmetic) (leftTy : left.IsArithmetic)
      (rightTy : right.IsArithmetic) : Rule op left right (left.wider right) (left.wider right)
  | concat (plus : op = .plus) : Rule op .string .string .string .string
  | compare {left right : Ty} (family : op.family = .ordering ∨ op.family = .equality)
      (leftTy : left = .int ∨ left = .float) (rightTy : right = .int ∨ right = .float) :
      Rule op left right (left.wider right) .boolean
  | equate {ty : Ty} (family : op.family = .equality)
      (same : ty = .string ∨ ty = .boolean ∨ ty = .vector) : Rule op ty ty ty .boolean
  | logical (family : op.family = .logical) : Rule op .boolean .boolean .boolean .boolean

/-- The expression with its type, used as a value of type `used`: it is widened if that is another
type. -/
def Annotated.typedAs (e : Expr) (kind : ExprKind) (ty used : Ty) : Expr :=
  ⟨kind, e.span, some ty, if ty = used then none else some used⟩

mutual

/-- The rules for expressions in a scope: the type of an expression, and the expression with the
types and widenings of its operands. -/
inductive ExprKind.Elaborates (t : Table) (scope : ScopeId) : ExprKind → Ty → ExprKind → Prop
  | int (value : Nat) : ExprKind.Elaborates t scope (.int value) .int (.int value)
  | float (value : Binary64) : ExprKind.Elaborates t scope (.float value) .float (.float value)
  | text (value : String) : ExprKind.Elaborates t scope (.text value) .string (.text value)
  | bool (value : Bool) : ExprKind.Elaborates t scope (.bool value) .boolean (.bool value)
  | vector {es es' : List Expr} (elements : ElaborateAs t scope es (es.map fun _ => .float) es') :
      ExprKind.Elaborates t scope (.vector es) .vector (.vector es')
  | name {n : String} {symbol : Option SymbolId} {id : SymbolId} {v : Variable} {ty : Ty}
      (resolved : t.resolve scope n = some id) (var : t.var? id = some v)
      (known : v.ty = some ty) : ExprKind.Elaborates t scope (.name n symbol) ty (.name n (some id))
  | binary {l r : Expr} {op : Operator} {lty rty used ty : Ty} {l' r' : ExprKind}
      (left : ExprKind.Elaborates t scope l.kind lty l')
      (right : ExprKind.Elaborates t scope r.kind rty r') (rule : op.Rule lty rty used ty) :
      ExprKind.Elaborates t scope (.binary l op r) ty
        (.binary (l.typedAs l' lty used) op (r.typedAs r' rty used))
  | negate {e : Expr} {ty : Ty} {e' : ExprKind}
      (operand : ExprKind.Elaborates t scope e.kind ty e') (number : ty.IsArithmetic) :
      ExprKind.Elaborates t scope (.negate e) ty (.negate (e.typedAs e' ty ty))
  | not {e : Expr} {e' : ExprKind} (operand : ExprKind.Elaborates t scope e.kind .boolean e') :
      ExprKind.Elaborates t scope (.not e) .boolean (.not (e.typedAs e' .boolean .boolean))
  | element {e i : Expr} {e' i' : ExprKind} (target : ExprKind.Elaborates t scope e.kind .vector e')
      (index : ExprKind.Elaborates t scope i.kind .int i') :
      ExprKind.Elaborates t scope (.index e i) .float
        (.index (e.typedAs e' .vector .vector) (i.typedAs i' .int .int))
  | character {e i : Expr} {e' i' : ExprKind}
      (target : ExprKind.Elaborates t scope e.kind .string e')
      (index : ExprKind.Elaborates t scope i.kind .int i') :
      ExprKind.Elaborates t scope (.index e i) .string
        (.index (e.typedAs e' .string .string) (i.typedAs i' .int .int))
  | len {e : Expr} {ty : Ty} {e' : ExprKind} (operand : ExprKind.Elaborates t scope e.kind ty e')
      (sequence : ty = .vector ∨ ty = .string) :
      ExprKind.Elaborates t scope (.len e) .int (.len (e.typedAs e' ty ty))
  | call {function : String} {symbol : Option SymbolId} {id : SymbolId} {f : Signature}
      {formals : List Ty} {args args' : List Expr} (resolved : t.resolve scope function = some id)
      (func : t.func? id = some f)
      (known : (f.params.map fun p => (t.var? p).bind Variable.ty) = formals.map some)
      (actuals : ElaborateAs t scope args formals args') :
      ExprKind.Elaborates t scope (.call function args symbol) f.returnTy
        (.call function args' (some id))

/-- Expressions used as values of the given types: each has that type, or it is an `int` used as a
`float`. -/
inductive ElaborateAs (t : Table) (scope : ScopeId) : List Expr → List Ty → List Expr → Prop
  | nil : ElaborateAs t scope [] [] []
  | cons {e : Expr} {ty used : Ty} {e' : ExprKind} {es es' : List Expr} {useds : List Ty}
      (first : ExprKind.Elaborates t scope e.kind ty e') (value : ty ≠ .void)
      (stored : ty = used ∨ ty = .int ∧ used = .float) (rest : ElaborateAs t scope es useds es') :
      ElaborateAs t scope (e :: es) (used :: useds) (e.typedAs e' ty used :: es')

end

/-- No variable and no function has the type of a fault, and parameters have types. -/
structure Table.Clean (t : Table) : Prop where
  ty : ∀ {id v}, t.var? id = some v → v.ty ≠ some .error
  param : ∀ {id v}, t.var? id = some v → v.isParameter = true → ∃ ty, v.ty = some ty
  returnTy : ∀ {id f}, t.func? id = some f → f.returnTy ≠ .error
  params : ∀ {id f}, t.func? id = some f → ∀ p ∈ f.params,
    ∃ v, t.var? p = some v ∧ v.isParameter = true

/-! ## Operators -/

/-- The ways in which an operator has a type: the types of the operands, the type of the result and
the type to which the operands are widened. -/
inductive Operator.Typed (op : Operator) : Ty → Ty → Ty → Option Ty → Prop
  | join (plus : op = .plus) : Typed op .string .string .string none
  | arithmetic {left right ty : Ty} (family : op.family = .arithmetic) (leftNe : left ≠ .string)
      (rightNe : right ≠ .string) (common : Ty.arithmetic? left right = some ty) :
      Typed op left right ty (some ty)
  | compare {left right : Ty} (family : op.family = .ordering ∨ op.family = .equality)
      (leftNumber : left.isNumeric) (rightNumber : right.isNumeric) :
      Typed op left right .boolean (Ty.arithmetic? left right)
  | equate {ty : Ty} (family : op.family = .equality) : Typed op ty ty .boolean none
  | logical (family : op.family = .logical) : Typed op .boolean .boolean .boolean none

theorem Operator.typed_of_typing {op : Operator} {left right ty : Ty} {common : Option Ty}
    (h : op.typing left right = .result ty common) : op.Typed left right ty common := by
  unfold Operator.typing at h
  split at h
  · rename_i hfamily
    split at h
    · rename_i hstring
      split at h
      · cases h
      · rename_i heq
        split at h
        · cases h
        · rename_i hplus
          cases h
          obtain rfl : left = right := Decidable.byContradiction heq
          obtain rfl : left = .string := hstring.elim id id
          exact .join (Decidable.byContradiction hplus)
    · rename_i hstring
      split at h <;> cases h
      rename_i hcommon
      exact .arithmetic hfamily (fun hl => hstring (.inl hl)) (fun hr => hstring (.inr hr)) hcommon
  · rename_i hfamily
    split at h <;> cases h
    rename_i hboth
    exact .compare (.inl hfamily) hboth.1 hboth.2
  · rename_i hfamily
    split at h
    · rename_i hboth
      cases h
      exact .compare (.inr hfamily) hboth.1 hboth.2
    · split at h <;> cases h
      rename_i heq
      subst heq
      exact .equate hfamily
  · rename_i hfamily
    split at h <;> cases h
    rename_i hboth
    obtain ⟨rfl, rfl⟩ := hboth
    exact .logical hfamily

theorem Ty.arithmetic?_eq_some_iff {left right : Ty} : Ty.arithmetic? left right = some ty ↔
      left.IsArithmetic ∧ right.IsArithmetic ∧ left.wider right = ty := by
  cases left <;> cases right <;> simp [arithmetic?, rank?, IsArithmetic, wider]

namespace Operator

variable {op : Operator} {left right used ty : Ty}

section

variable (h : op.Rule left right used ty)

include h

theorem Rule.ne_error : left ≠ .error ∧ right ≠ .error ∧ ty ≠ .error := by
  cases h with
  | arithmetic _ hl hr =>
    obtain rfl | rfl | rfl := hl <;> obtain rfl | rfl | rfl := hr <;> simp [Ty.wider]
  | compare _ hl hr => grind
  | equate _ same => obtain rfl | rfl | rfl := same <;> simp
  | concat | logical => simp

theorem Rule.ne_void : left ≠ .void ∧ right ≠ .void := by
  cases h with
  | arithmetic _ hl hr => obtain rfl | rfl | rfl := hl <;> obtain rfl | rfl | rfl := hr <;> simp
  | compare _ hl hr => grind
  | equate _ same => obtain rfl | rfl | rfl := same <;> simp
  | concat | logical => simp

/-- Where a rule applies, the operator has the type of the rule. -/
theorem Rule.typing : op.typing left right = .result ty (some used) ∨
      op.typing left right = .result ty none ∧ left = used ∧ right = used := by
  unfold Operator.typing
  cases h with
  | arithmetic family hl hr =>
    have hcommon : Ty.arithmetic? left right = some (left.wider right) :=
      Ty.arithmetic?_eq_some_iff.mpr ⟨hl, hr, rfl⟩
    have hstring : ¬ (left = .string ∨ right = .string) := by
      obtain rfl | rfl | rfl := hl <;> obtain rfl | rfl | rfl := hr <;> simp
    grind
  | concat plus =>
    subst plus
    exact .inr ⟨rfl, rfl, rfl⟩
  | compare family hl hr =>
    have hboth : left.isNumeric ∧ right.isNumeric := by
      obtain rfl | rfl := hl <;> obtain rfl | rfl := hr <;> exact ⟨rfl, rfl⟩
    have hcommon : Ty.arithmetic? left right = some (left.wider right) :=
      Ty.arithmetic?_eq_some_iff.mpr ⟨hl.imp_right .inl, hr.imp_right .inl, rfl⟩
    grind
  | equate family same =>
    rw [family]
    obtain rfl | rfl | rfl := same <;> exact .inr ⟨rfl, rfl, rfl⟩
  | logical family =>
    rw [family]
    exact .inr ⟨rfl, rfl, rfl⟩

end

/-- Where an operator has a type, a rule applies to its operands. -/
theorem rule_of_typing {common : Option Ty} (h : op.typing left right = .result ty common)
    (hvoid : left ≠ .void) (herror : left ≠ .error) : ∃ used, op.Rule left right used ty := by
  cases typed_of_typing h with
  | join plus => exact ⟨_, .concat plus⟩
  | arithmetic family _ _ common =>
    obtain ⟨hl, hr, rfl⟩ := Ty.arithmetic?_eq_some_iff.mp common
    exact ⟨_, .arithmetic family hl hr⟩
  | compare family hl hr =>
    refine ⟨_, .compare family ?_ ?_⟩
    · cases left <;> simp_all [Ty.isNumeric]
    · cases right <;> simp_all [Ty.isNumeric]
  | equate family =>
    cases left with
    | int | float => exact ⟨_, .compare (.inr family) (by simp) (by simp)⟩
    | string | boolean | vector => exact ⟨_, .equate family (by simp)⟩
    | void => exact absurd rfl hvoid
    | error => exact absurd rfl herror
  | logical family => exact ⟨_, .logical family⟩

end Operator

/-! ## Expressions -/

@[simp] theorem Annotated.promote_typedAs {e : Expr} {kind : ExprKind} {ty used : Ty} :
    (e.typedAs kind ty ty).promote used = e.typedAs kind ty used := by
  unfold promote typedAs
  by_cases h : ty = used <;> simp [h]

/-- In a clean table the rules never give the type of a fault. -/
theorem ExprKind.Elaborates.ne_error {t : Table} {scope : ScopeId} {kind kind' : ExprKind}
    (h : kind.Elaborates t scope ty kind') (hclean : t.Clean) : ty ≠ .error := by
  cases h with
  | name _ var known => exact fun herr => hclean.ty var (herr ▸ known)
  | binary _ _ rule => exact rule.ne_error.2.2
  | negate _ number => obtain rfl | rfl | rfl := number <;> nofun
  | call _ func => exact hclean.returnTy func
  | int | float | text | bool | vector | not | element | character | len => nofun

/-- The rules make no name of another expression. -/
theorem ExprKind.Elaborates.isName {t : Table} {scope : ScopeId} {kind kind' : ExprKind}
    (h : kind.Elaborates t scope ty kind') : kind'.isName = kind.isName := by
  cases h <;> rfl

namespace Typing

variable {t : Table} {scope : ScopeId} {e : Expr} {kind : ExprKind} {ty used : Ty}
  {es es' : List Expr} {useds : List Ty} {span : Span} {args : List Typed}

/-- The use as a value without a fault changes nothing. -/
theorem asValue_of_faults {e : Typed} (h : e.asValue.faults = []) :
    e.asValue = e ∧ e.faults = [] ∧ e.ty ≠ .void := by
  unfold Typed.asValue at h ⊢
  split at h
  · simp at h
  · grind

theorem exprs_eq_map : exprs t scope es = es.map (value t scope) := by
  induction es with
  | nil => rfl
  | cons e es ih => rw [exprs, ih, map_cons, value]

/-- Checks one actual parameter against the type of the formal one. -/
def argument (function : String) (position : Nat) (arg : Typed) : Option Ty → Expr × List Diagnostic
  | none => (arg.expr, [])
  | some expected =>
    if arg.ty = .error ∨ expected = .error then (arg.expr, [])
    else if arg.ty.assignable expected then (arg.expr.promote expected, [])
    else
      (arg.expr, [(Fault.argumentType position function expected arg.ty).located arg.expr.span])

theorem arguments_cons {function : String} {position : Nat} {arg : Typed}
    {formal : Option Ty} {formals : List (Option Ty)} :
    arguments function position (arg :: args) (formal :: formals) =
      ((argument function position arg formal).1 ::
          (arguments function (position + 1) args formals).1,
        (argument function position arg formal).2 ++
          (arguments function (position + 1) args formals).2) := by
  cases formal <;> rfl

/-- A call without a fault has arguments without faults. -/
theorem call_faults {symbol : Option SymbolId}
    (hfaults : (call t scope span function symbol args).faults = []) :
    ∀ a ∈ args, a.faults = [] := by
  have hall : args.flatMap Typed.faults = [] := by
    unfold call at hfaults
    dsimp only at hfaults
    split at hfaults
    · exact (append_eq_nil_iff.mp hfaults).1
    · split at hfaults
      · exact (append_eq_nil_iff.mp hfaults).1
      · split at hfaults <;> exact (append_eq_nil_iff.mp hfaults).1
  exact flatMap_eq_nil_iff.mp hall

/-- Without a fault the operands are without faults. -/
theorem faults_of_operands (h : (shape t scope span kind).faults = []) :
    ∀ c ∈ kind.operands, (value t scope c).faults = [] := by
  have hdef : ∀ c, (expr t scope c).asValue = value t scope c := fun _ => rfl
  cases kind with
  | int | float | text | bool | name => nofun
  | vector elements =>
    intro c hc
    simp only [shape, exprs_eq_map, flatMap_eq_nil_iff, mem_map, forall_exists_index,
      and_imp, forall_apply_eq_imp_iff₂, append_eq_nil_iff] at h
    exact (h c hc).1
  | call function args symbol =>
    intro c hc
    simp only [shape, exprs_eq_map] at h
    exact call_faults h _ (mem_map_of_mem hc)
  | binary left op right =>
    have hparts : (value t scope left).faults = [] ∧ (value t scope right).faults = [] := by
      have : (binary span (value t scope left) op (value t scope right)).faults = [] := h
      unfold binary at this
      dsimp only at this
      split at this
      · simpa using this
      · split at this <;> simp_all
    simpa using hparts
  | negate operand | not operand | len operand =>
    simp only [shape, hdef] at h
    have hone : (value t scope operand).faults = [] := by split at h <;> simp_all
    simpa using hone
  | index target i =>
    simp only [shape, hdef] at h
    have hboth : (value t scope target).faults = [] ∧ (value t scope i).faults = [] := by
      split at h <;> simp_all
    simpa using hboth

/-- What typing gives for an expression with a type by the rules. -/
def elaborated (e : Expr) (kind : ExprKind) (ty : Ty) : Typed :=
  ⟨e.typedAs kind ty ty, ty, []⟩

theorem asValue_elaborated (h : ty ≠ .void) :
    (elaborated e kind ty).asValue = elaborated e kind ty :=
  if_neg h

theorem binary_of_rule {op : Operator} {l r : Expr} {l' r' : ExprKind}
    {lty rty : Ty} (h : op.Rule lty rty used ty) :
    binary span (elaborated l l' lty) op (elaborated r r' rty) =
      ⟨.binary (l.typedAs l' lty used) op (r.typedAs r' rty used), ty, []⟩ := by
  obtain ⟨hl, hr, -⟩ := h.ne_error
  unfold binary elaborated
  dsimp only
  rw [if_neg (not_or.mpr ⟨hl, hr⟩)]
  obtain htyping | ⟨htyping, rfl, rfl⟩ := h.typing
  · simp [htyping]
  · simp [htyping]

theorem argument_of_stored {function : String} {position : Nat}
    (hne : ty ≠ .error) (h : ty = used ∨ ty = .int ∧ used = .float) :
    argument function position (elaborated e kind ty) (some used) =
      (e.typedAs kind ty used, []) := by
  have hused : used ≠ .error := by grind
  have hassign : ty.assignable used := by simpa [Ty.assignable] using h
  unfold argument elaborated
  dsimp only
  rw [if_neg (not_or.mpr ⟨hne, hused⟩), if_pos hassign, promote_typedAs]

/-- Elements of vectors are stored as numbers of type `float`. -/
theorem asElement_of_stored (h : ty = .float ∨ ty = .int ∧ Ty.float = .float) :
    (elaborated e kind ty).asElement = (e.typedAs kind ty .float, []) := by
  obtain rfl | ⟨rfl, -⟩ := h <;> simp [Typed.asElement, elaborated]

/-- What typing does with expressions that elaborate. -/
def Finds (t : Table) (scope : ScopeId) (e : Expr) : Prop :=
  ∀ (ty : Ty) (kind : ExprKind), e.kind.Elaborates t scope ty kind →
    expr t scope e = elaborated e kind ty

theorem Finds.value (h : Finds t scope e)
    (he : e.kind.Elaborates t scope ty kind) (hvoid : ty ≠ .void) :
    value t scope e = elaborated e kind ty := by
  rw [Typing.value, h ty kind he, asValue_elaborated hvoid]

theorem arguments_of_elaborateAs (hclean : t.Clean) (function : String) (position : Nat)
    (hfinds : ∀ e ∈ es, Finds t scope e) (h : ElaborateAs t scope es useds es') :
    arguments function position (es.map (value t scope)) (useds.map some) = (es', []) := by
  induction es generalizing useds es' position with
  | nil =>
    cases h with
    | nil => rfl
  | cons e es ih =>
    cases h with
    | cons first hvoid stored rest =>
      have hvalue := (hfinds e (.head _)).value first hvoid
      have hrest := ih (position + 1) (fun c hc => hfinds c (.tail e hc)) rest
      rw [map_cons, map_cons, arguments_cons, hrest, hvalue,
        argument_of_stored (first.ne_error hclean) stored]
      rfl

theorem faults_of_elaborateAs
    (hfinds : ∀ e ∈ es, Finds t scope e) (h : ElaborateAs t scope es useds es') :
    (es.map (value t scope)).flatMap Typed.faults = [] ∧ useds.length = es.length := by
  induction es generalizing useds es' with
  | nil =>
    cases h with
    | nil => exact ⟨rfl, rfl⟩
  | cons e es ih =>
    cases h with
    | cons first hvoid stored rest =>
      have hvalue := (hfinds e (.head _)).value first hvoid
      obtain ⟨hfaults, hlength⟩ := ih (fun c hc => hfinds c (.tail e hc)) rest
      refine ⟨?_, congrArg (· + 1) hlength⟩
      rw [map_cons, flatMap_cons, hfaults, hvalue]
      rfl

theorem elements_of_elaborateAs (hfinds : ∀ e ∈ es, Finds t scope e)
    (h : ElaborateAs t scope es (es.map fun _ => .float) es') :
    (es.map (value t scope)).map (fun e => e.asElement.1) = es' ∧
      ((es.map (value t scope)).flatMap fun e => e.faults ++ e.asElement.2) = [] := by
  induction es generalizing es' with
  | nil =>
    cases h with
    | nil => exact ⟨rfl, rfl⟩
  | cons e es ih =>
    cases h with
    | cons first hvoid stored rest =>
      have hvalue := (hfinds e (.head _)).value first hvoid
      obtain ⟨helements, hfaults⟩ := ih (fun c hc => hfinds c (.tail e hc)) rest
      simp only [map_cons, flatMap_cons, hvalue, asElement_of_stored stored]
      rw [helements, hfaults]
      exact ⟨rfl, rfl⟩

/-- **Completeness.**  Typing finds the type that the rules give. -/
theorem finds (hclean : t.Clean) (e : Expr) : e.Unwidened → Finds t scope e := by
  induction e using Expr.induction with
  | step e ih =>
    intro hu ty kind' h
    obtain ⟨hnone, hoperands⟩ := unwidened_iff.mp hu
    rcases e with ⟨kind, span, ety, promoteTo⟩
    obtain rfl : promoteTo = none := hnone
    have hfinds : ∀ c ∈ kind.operands, Finds t scope c := fun c hc => ih c hc (hoperands c hc)
    suffices hshape : shape t scope span kind = ⟨kind', ty, []⟩ by
      simp [expr, hshape, Shaped.located, elaborated, typedAs]
    have hdef : ∀ c, (expr t scope c).asValue = value t scope c := fun _ => rfl
    clear ih hu hoperands
    cases h with
    | int | float | text | bool => rfl
    | @vector es es' elements =>
      obtain ⟨helements, hfaults⟩ :=
        elements_of_elaborateAs (show ∀ c ∈ es, Finds t scope c from hfinds) elements
      simp only [shape, exprs_eq_map, helements, hfaults]
    | name resolved var known =>
      simp only [shape, name, resolved, Table.symbol?_of_var? var, known]
      rfl
    | @binary l r op lty rty used ty l' r' left right rule =>
      have hl := (hfinds l (.head _)).value left rule.ne_void.1
      have hr := (hfinds r (.tail _ (.head _))).value right
        rule.ne_void.2
      simp only [shape, hdef, hl, hr]
      exact binary_of_rule rule
    | @negate e ty e' operand number =>
      have hvoid : ty ≠ .void := by obtain rfl | rfl | rfl := number <;> simp
      have he := (hfinds e (.head _)).value operand hvoid
      simp only [shape, hdef, he, elaborated]
      obtain rfl | rfl | rfl := number <;> rfl
    | @not e e' operand =>
      have he := (hfinds e (.head _)).value operand (by simp)
      simp only [shape, hdef, he, elaborated]
    | @element e i e' i' target index | @character e i e' i' target index =>
      have he := (hfinds e (.head _)).value target (by simp)
      have hi := (hfinds i (.tail _ (.head _))).value index (by simp)
      simp only [shape, hdef, he, hi, elaborated]
      rfl
    | @len e ty e' operand sequence =>
      have hvoid : ty ≠ .void := by obtain rfl | rfl := sequence <;> simp
      have he := (hfinds e (.head _)).value operand hvoid
      simp only [shape, hdef, he, elaborated]
      obtain rfl | rfl := sequence <;> rfl
    | @call function symbol id f formals args args' resolved func known actuals =>
      replace hfinds : ∀ c ∈ args, Finds t scope c := hfinds
      obtain ⟨hfaults, hlength⟩ := faults_of_elaborateAs hfinds actuals
      have hchecked := arguments_of_elaborateAs hclean function 1 hfinds actuals
      simp only [shape, exprs_eq_map, call, resolved, func, known, hfaults]
      grind

/-- An operand that typing accepts as a value. -/
def AcceptsValue (t : Table) (scope : ScopeId) (e : Expr) : Prop :=
  ∃ ty kind, e.kind.Elaborates t scope ty kind ∧ ty ≠ .void ∧ value t scope e = elaborated e kind ty

/-- An accepted actual parameter without a fault is stored in the formal one. -/
theorem stored_of_argument (hne : ty ≠ .error) (hused : used ≠ .error)
    (h : (argument function position (elaborated e kind ty) (some used)).2 = []) :
    ty = used ∨ ty = .int ∧ used = .float := by
  unfold argument elaborated at h
  dsimp only at h
  rw [if_neg (not_or.mpr ⟨hne, hused⟩)] at h
  split at h
  · rename_i hassign
    simpa [Ty.assignable] using hassign
  · cases h

theorem elaborateAs_of_arguments (hclean : t.Clean) (haccepted : ∀ e ∈ es, AcceptsValue t scope e)
    (hlength : useds.length = es.length) (hused : ∀ used ∈ useds, used ≠ .error)
    (h : (arguments function position (es.map (value t scope)) (useds.map some)).2 = []) :
    ∃ es', ElaborateAs t scope es useds es' := by
  induction es generalizing useds position with
  | nil =>
    obtain rfl := length_eq_zero_iff.mp hlength
    exact ⟨[], .nil⟩
  | cons e es ih =>
    obtain ⟨used, useds, rfl⟩ := exists_cons_of_length_eq_add_one hlength
    obtain ⟨hfirst, hothers⟩ := forall_mem_cons.mp haccepted
    obtain ⟨hne, huseds⟩ := forall_mem_cons.mp hused
    obtain ⟨ty, kind, he, hvoid, hvalue⟩ := hfirst
    rw [map_cons, map_cons, arguments_cons, hvalue] at h
    obtain ⟨hargument, hrest⟩ := append_eq_nil_iff.mp h
    obtain ⟨es', hes⟩ := ih hothers (Nat.succ.inj hlength) huseds hrest
    exact ⟨_, .cons he hvoid (stored_of_argument (he.ne_error hclean) hne hargument) hes⟩

theorem elaborateAs_of_elements (hclean : t.Clean) (haccepted : ∀ e ∈ es, AcceptsValue t scope e)
    (h : ∀ e ∈ es, (value t scope e).asElement.2 = []) :
    ∃ es', ElaborateAs t scope es (es.map fun _ => .float) es' := by
  induction es with
  | nil => exact ⟨[], .nil⟩
  | cons e es ih =>
    obtain ⟨⟨ty, kind, he, hvoid, hvalue⟩, hothers⟩ := forall_mem_cons.mp haccepted
    obtain ⟨hfirst, hrest⟩ := forall_mem_cons.mp h
    obtain ⟨es', hes⟩ := ih hothers hrest
    refine ⟨_, .cons he hvoid ?_ hes⟩
    have hne := he.ne_error hclean
    rw [hvalue] at hfirst
    cases ty with
    | int => exact .inr ⟨rfl, rfl⟩
    | float => exact .inl rfl
    | error => exact absurd rfl hne
    | string | boolean | vector | void => cases hfirst

/-- In a clean table the formal parameters of a function have types. -/
theorem exists_formals (hclean : t.Clean) {id : SymbolId} {f : Signature}
    (hf : t.func? id = some f) :
    ∃ formals : List Ty, (f.params.map fun p => (t.var? p).bind Variable.ty) = formals.map some ∧
      ∀ formal ∈ formals, formal ≠ .error := by
  have hparams := hclean.params hf
  generalize f.params = params at hparams
  induction params with
  | nil => exact ⟨[], rfl, nofun⟩
  | cons p params ih =>
    obtain ⟨⟨v, hv, hparam⟩, hothers⟩ := forall_mem_cons.mp hparams
    obtain ⟨ty, hty⟩ := hclean.param hv hparam
    obtain ⟨formals, hformals, hne⟩ := ih hothers
    refine ⟨ty :: formals, ?_, forall_mem_cons.mpr ⟨fun herr => ?_, hne⟩⟩
    · grind
    · exact hclean.ty hv (herr ▸ hty)

/-- **Soundness.**  Where typing reports nothing, the rules give a type. -/
theorem elaborates_of_faults (hclean : t.Clean) (e : Expr) : e.Unwidened →
    (expr t scope e).faults = [] → ∃ ty kind, e.kind.Elaborates t scope ty kind := by
  induction e using Expr.induction with
  | step e ih =>
    intro hu hfaults
    obtain ⟨-, hoperands⟩ := unwidened_iff.mp hu
    rcases e with ⟨kind, span, ety, promoteTo⟩
    replace hfaults : (shape t scope span kind).faults = [] := hfaults
    have haccepted : ∀ c ∈ kind.operands, AcceptsValue t scope c := by
      intro c hc
      obtain ⟨-, hnone, hvoid⟩ := asValue_of_faults (faults_of_operands hfaults c hc)
      obtain ⟨ty, kind, he⟩ := ih c hc (hoperands c hc) hnone
      have hfinds : Finds t scope c := finds hclean c (hoperands c hc)
      rw [hfinds ty kind he] at hvoid
      exact ⟨ty, kind, he, hvoid, hfinds.value he hvoid⟩
    have hdef : ∀ c, (expr t scope c).asValue = value t scope c := fun _ => rfl
    clear ih hu hoperands
    dsimp only
    cases kind with
    | int value => exact ⟨_, _, .int value⟩
    | float value => exact ⟨_, _, .float value⟩
    | text value => exact ⟨_, _, .text value⟩
    | bool value => exact ⟨_, _, .bool value⟩
    | vector elements =>
      simp only [shape, exprs_eq_map, flatMap_eq_nil_iff, mem_map, forall_exists_index, and_imp,
        forall_apply_eq_imp_iff₂, append_eq_nil_iff] at hfaults
      obtain ⟨es', hes⟩ := elaborateAs_of_elements hclean haccepted fun e he => (hfaults e he).2
      exact ⟨_, _, .vector hes⟩
    | name n symbol =>
      simp only [shape] at hfaults
      unfold name at hfaults
      split at hfaults
      · cases hfaults
      · rename_i id hid
        split at hfaults
        · rename_i v hv
          split at hfaults
          · rename_i ty hty
            exact ⟨_, _, .name hid (by rw [Table.var?, hv]; rfl) hty⟩
          · cases hfaults
        · cases hfaults
    | binary left op right =>
      obtain ⟨lty, l', hl, hlvoid, hlvalue⟩ := haccepted left (.head _)
      obtain ⟨rty, r', hr, -, hrvalue⟩ :=
        haccepted right (.tail _ (.head _))
      have hlne := hl.ne_error hclean
      have hrne := hr.ne_error hclean
      simp only [shape, hdef, hlvalue, hrvalue] at hfaults
      unfold binary elaborated at hfaults
      dsimp only at hfaults
      rw [if_neg (not_or.mpr ⟨hlne, hrne⟩)] at hfaults
      cases htyping : op.typing lty rty with
      | result ty common =>
        obtain ⟨used, hrule⟩ := Operator.rule_of_typing htyping hlvoid hlne
        exact ⟨_, _, .binary hl hr hrule⟩
      | mixed | invalid => simp [htyping] at hfaults
    | negate operand =>
      obtain ⟨ty, e', he, -, hvalue⟩ := haccepted operand (.head _)
      have hne := he.ne_error hclean
      simp only [shape, hdef, hvalue, elaborated] at hfaults
      refine ⟨_, _, .negate he ?_⟩
      cases ty <;> simp_all [Ty.IsArithmetic]
    | not operand =>
      obtain ⟨ty, e', he, -, hvalue⟩ := haccepted operand (.head _)
      have hne := he.ne_error hclean
      simp only [shape, hdef, hvalue, elaborated] at hfaults
      obtain rfl : ty = .boolean := by cases ty <;> simp_all
      exact ⟨_, _, .not he⟩
    | index target i =>
      obtain ⟨ty, e', he, -, hvalue⟩ := haccepted target (.head _)
      obtain ⟨ity, i', hi, -, hivalue⟩ :=
        haccepted i (.tail _ (.head _))
      have hne := he.ne_error hclean
      have hine := hi.ne_error hclean
      simp only [shape, hdef, hvalue, hivalue, elaborated, Typed.indexFaults] at hfaults
      obtain rfl : ity = .int := by cases ity <;> cases ty <;> simp_all
      cases ty with
      | vector => exact ⟨_, _, .element he hi⟩
      | string => exact ⟨_, _, .character he hi⟩
      | error => exact absurd rfl hne
      | int | float | boolean | void => simp at hfaults
    | len operand =>
      obtain ⟨ty, e', he, -, hvalue⟩ := haccepted operand (.head _)
      have hne := he.ne_error hclean
      simp only [shape, hdef, hvalue, elaborated] at hfaults
      refine ⟨_, _, .len he ?_⟩
      cases ty <;> simp_all
    | call function args symbol =>
      simp only [shape, exprs_eq_map, call] at hfaults
      split at hfaults
      · simp at hfaults
      · rename_i id hid
        split at hfaults
        · simp at hfaults
        · rename_i f hf
          obtain ⟨formals, hformals, hne⟩ := exists_formals hclean hf
          rw [hformals] at hfaults
          split at hfaults
          · simp at hfaults
          · rename_i hlength
            obtain ⟨es', hes⟩ := elaborateAs_of_arguments hclean haccepted
              (by simpa using hlength) hne
              (append_eq_nil_iff.mp hfaults).2
            exact ⟨_, _, .call hid hf hformals hes⟩

end Typing

end WichToC
