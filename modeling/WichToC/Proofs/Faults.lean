import WichToC.Analysis
import WichToC.Proofs.ScopeTree

/-!
# Every fault is an error

Reading, declaring and typing report errors and nothing else, so a script about which no error was
reported is one about which nothing was reported.
-/

namespace WichToC

open List

def AllErrors (ds : List Diagnostic) : Prop := ∀ d ∈ ds, d.isError

namespace AllErrors

@[simp] theorem nil : AllErrors [] := nofun

@[simp] theorem append {ds ds' : List Diagnostic} :
    AllErrors (ds ++ ds') ↔ AllErrors ds ∧ AllErrors ds' :=
  forall_mem_append

@[simp] theorem located (fault : Fault) (span : Span) : AllErrors [fault.located span] := by
  intro d hd
  obtain rfl := mem_singleton.mp hd
  rfl

theorem flatMap {α : Type} {xs : List α} {f : α → List Diagnostic}
    (h : ∀ x ∈ xs, AllErrors (f x)) : AllErrors (xs.flatMap f) := by
  intro d hd
  obtain ⟨x, hx, hd⟩ := mem_flatMap.mp hd
  exact h x hx d hd

end AllErrors

/-! ## Declaring -/

/-- What is reported about declaring a script is its repeated definitions. -/
theorem Declare.allErrors_script {script : Script} (h : script.Pristine) :
    AllErrors (Declare.script Table.initial script).faults := by
  intro d hd
  have hfaults := (Declare.items_grows h Table.stands_initial).faults
  obtain ⟨r, -, rfl⟩ := mem_map.mp (hfaults.mem_iff.mp hd)
  cases r <;> rfl

/-! ## Typing -/

namespace Typing

variable {e : Typed} {scope : ScopeId} {span : Span}

theorem allErrors_asValue (h : AllErrors e.faults) : AllErrors e.asValue.faults := by
  unfold Typed.asValue
  split <;> simp [h]

theorem allErrors_asElement : AllErrors e.asElement.2 := by
  unfold Typed.asElement
  split <;> simp

theorem allErrors_indexFaults : AllErrors e.indexFaults := by
  unfold Typed.indexFaults
  split <;> simp

theorem allErrors_name {t : Table} {n : String} : AllErrors (name t scope span n).2.2 := by
  unfold name
  repeat' split
  all_goals simp

theorem allErrors_binary {left right : Typed} (hl : AllErrors left.faults)
    (hr : AllErrors right.faults) (span : Span) (op : Operator) :
    AllErrors (binary span left op right).faults := by
  simp only [binary]
  repeat' split
  all_goals simp [hl, hr]

theorem allErrors_arguments (function : String) (position : Nat) (args : List Typed)
    (formals : List (Option Ty)) : AllErrors (arguments function position args formals).2 := by
  induction args generalizing position formals with
  | nil => simp [arguments]
  | cons arg args ih =>
    cases formals with
    | nil => simp [arguments]
    | cons formal formals =>
      simp only [arguments, AllErrors.append]
      refine ⟨?_, ih _ _⟩
      repeat' split
      all_goals simp

theorem allErrors_call {args : List Typed} (h : ∀ a ∈ args, AllErrors a.faults) (t : Table)
    (scope : ScopeId) (span : Span) (function : String) (symbol : Option SymbolId) :
    AllErrors (call t scope span function symbol args).faults := by
  have hargs : AllErrors (args.flatMap Typed.faults) := .flatMap h
  simp only [call]
  repeat' split
  all_goals simp [hargs, allErrors_arguments]

theorem allErrors_exprs {t : Table} {es : List Expr}
    (h : ∀ e ∈ es, AllErrors (expr t scope e).faults) :
    ∀ a ∈ exprs t scope es, AllErrors a.faults := by
  induction es with
  | nil => nofun
  | cons e es ih =>
    intro a ha
    rcases mem_cons.mp ha with rfl | ha
    · exact allErrors_asValue (h e (.head _))
    · exact ih (fun c hc => h c (.tail e hc)) a ha

theorem allErrors_expr (t : Table) (scope : ScopeId) (e : Expr) :
    AllErrors (expr t scope e).faults := by
  induction e using Expr.induction with
  | step e ih =>
    rcases e with ⟨kind, span, ty, promoteTo⟩
    show AllErrors (shape t scope span kind).faults
    have hval : ∀ c ∈ kind.operands, AllErrors (expr t scope c).asValue.faults :=
      fun c hc => allErrors_asValue (ih c hc)
    cases kind with
    | int | float | text | bool => exact .nil
    | vector elements =>
      refine AllErrors.flatMap fun a ha => AllErrors.append.mpr ⟨?_, allErrors_asElement⟩
      exact allErrors_exprs ih a ha
    | name n symbol => exact allErrors_name
    | binary left op right =>
      exact allErrors_binary (hval left (by simp))
        (hval right (by simp)) span op
    | negate operand | not operand | len operand =>
      have h := hval operand (by simp)
      simp only [shape]
      split <;> simp [h]
    | index target i =>
      have ht := hval target (by simp)
      have hi := hval i (by simp)
      simp only [shape]
      split <;> simp [ht, hi, allErrors_indexFaults]
    | call function args symbol => exact allErrors_call (allErrors_exprs ih) t scope span _ _

theorem allErrors_value (t : Table) (scope : ScopeId) (e : Expr) :
    AllErrors (value t scope e).faults :=
  allErrors_asValue (allErrors_expr t scope e)

theorem allErrors_condition (t : Table) (scope : ScopeId) (cond : Expr) :
    AllErrors (condition t scope cond).2 := by
  unfold condition
  dsimp only
  split <;> simp [allErrors_value]

theorem isError_target {t : Table} {name : String}
    {fault : Diagnostic} (h : target t scope span name = .error fault) : AllErrors [fault] := by
  unfold target at h
  repeat' split at h
  all_goals cases h
  all_goals exact .located _ _

theorem allErrors_assignment (he : AllErrors e.faults) (t : Table) (scope : ScopeId)
    (span : Span) (name : String) (symbol : Option SymbolId) :
    AllErrors (assignment t scope span name e symbol).faults := by
  unfold assignment
  split
  · rename_i h
    exact AllErrors.append.mpr ⟨he, isError_target h⟩
  · dsimp only
    repeat' split
    all_goals simp [he]

theorem allErrors_elementTarget {t : Table} {name : String} :
    AllErrors (elementTarget t scope span name).2 := by
  unfold elementTarget
  split
  · rename_i h
    exact isError_target h
  · split <;> simp

theorem allErrors_returning (he : AllErrors e.faults) (t : Table) (scope : ScopeId)
    (span : Span) : AllErrors (returning t scope span e).2 := by
  unfold returning
  repeat' split
  all_goals simp [he]

theorem allErrors_stmts {ss : List Stmt}
    (h : ∀ s ∈ ss, ∀ t, AllErrors (stmt scope t s).faults) (t : Table) :
    AllErrors (stmts scope t ss).faults := by
  induction ss generalizing t with
  | nil => exact .nil
  | cons s ss ih =>
    simp only [stmts, AllErrors.append]
    grind

theorem allErrors_block {b : Block}
    (h : ∀ s ∈ b.statements, ∀ scope t, AllErrors (stmt scope t s).faults) (t : Table) :
    AllErrors (block t b).faults := by
  rcases b with ⟨statements, span, _ | scope⟩
  · exact .nil
  · exact allErrors_stmts (fun s hs t => h s hs scope t) t

theorem allErrors_stmt (s : Stmt) : ∀ scope t, AllErrors (stmt scope t s).faults := by
  induction s using Stmt.induction with
  | step s ih =>
    intro scope t
    rcases s with ⟨kind, span⟩
    have hblock : ∀ b ∈ kind.blocks, ∀ t, AllErrors (block t b).faults :=
      fun b hb => allErrors_block (ih b hb)
    cases kind with
    | define name value symbol => exact allErrors_value t scope value
    | assign name value symbol =>
      exact allErrors_assignment (allErrors_value t scope value) t scope span name symbol
    | assignElement name i value symbol =>
      simp [stmt, stmtKind, Passed.map, allErrors_expr, allErrors_value, allErrors_elementTarget,
        allErrors_indexFaults, allErrors_asElement]
    | ifElse cond thenBlock elseBlock =>
      cases elseBlock with
      | none =>
        simp only [stmt, stmtKind, Passed.map, AllErrors.append]
        exact ⟨allErrors_condition t scope cond, hblock thenBlock (by simp) _⟩
      | some elseBlock =>
        simp only [stmt, stmtKind, Passed.map, AllErrors.append]
        exact ⟨⟨allErrors_condition t scope cond, hblock thenBlock (by simp) _⟩,
          hblock elseBlock (by simp) _⟩
    | loop cond body =>
      simp only [stmt, stmtKind, Passed.map, AllErrors.append]
      exact ⟨allErrors_condition t scope cond, hblock body (by simp) _⟩
    | call c => exact allErrors_expr t scope c
    | print value =>
      cases value with
      | none => exact .nil
      | some value => exact allErrors_value t scope value
    | ret value => exact allErrors_returning (allErrors_value t scope value) t scope span
    | block body => exact hblock body (by simp) t

theorem allErrors_items (scope : ScopeId) (t : Table) (its : List Item) :
    AllErrors (items scope t its).faults := by
  induction its generalizing t with
  | nil => exact .nil
  | cons item its ih =>
    cases item with
    | function f =>
      simp only [items, AllErrors.append]
      exact ⟨allErrors_block (fun s _ => allErrors_stmt s) t, ih _⟩
    | statement s =>
      simp only [items, AllErrors.append]
      exact ⟨allErrors_stmt s scope t, ih _⟩

end Typing

end WichToC
