import WichToC.Proofs.Declared

/-!
# Typing follows the rules

In the tables in which expressions are typed, typing reports nothing exactly where the rules of
`ExprKind.Elaborates` give a type (`Typing.value_faults_iff_elaborates`).
-/

namespace WichToC

open List
open Table (initial global)

variable {ty : Ty}

/-- The table `t'` is `t` with types given to some variables, none of them that of a fault. -/
def Table.GivesTypes (t t' : Table) : Prop :=
  t.UpTo (fun ty ty' => ty' = ty ∨ ∃ given ≠ Ty.error, ty' = some given) t'

namespace Table.GivesTypes

variable {t t' : Table}

theorem refl (t : Table) : t.GivesTypes t :=
  UpTo.refl (fun _ => .inl rfl) t

/-- One more variable gets a type. -/
theorem setVariableTy (h : t.GivesTypes t') (id : SymbolId) (hty : ty ≠ .error) :
    t.GivesTypes (t'.setVariableTy id ty) where
  scopes := h.scopes
  var? {i v} hv := by
    obtain ⟨old, hv', hold⟩ := h.var? hv
    rw [Table.var?_setVariableTy, hv']
    grind
  other {i} hi := by
    rw [symbol?_setVariableTy (h.var?_eq_none hi), h.other hi]

theorem clean (h : t.GivesTypes t') (hclean : t.Clean) : t'.Clean := by
  refine ⟨fun {id v'} hv' herr => ?_, fun {id v'} hv' hparam => ?_, fun hf => ?_, fun hf p hp => ?_⟩
  · obtain ⟨v, hv, -, hty⟩ := h.var?_back hv'
    obtain hty | ⟨given, hne, hty⟩ := hty
    · exact hclean.ty hv (hty ▸ herr)
    · grind
  · obtain ⟨v, hv, heq, hty⟩ := h.var?_back hv'
    obtain hty | ⟨given, -, hty⟩ := hty
    · rw [heq] at hparam
      rw [hty]
      exact hclean.param hv hparam
    · exact ⟨given, hty⟩
  · rw [h.func?] at hf
    exact hclean.returnTy hf
  · rw [h.func?] at hf
    obtain ⟨v, hv, hparam⟩ := hclean.params hf p hp
    obtain ⟨ty, hv', -⟩ := h.var? hv
    exact ⟨_, hv', hparam⟩

end Table.GivesTypes

/-- **Typing follows the rules.**  In a table made by declaring a script, with types given to any of
the variables, typing an expression as a value reports nothing exactly if the rules give it a type
other than `void`; and then it finds that type, and marks exactly the operands that the rules
widen. -/
theorem Typing.value_faults_iff_elaborates (source : String) (report : Report) {t : Table}
    (ht : (Declare.script initial (Script.read source report).1).table.GivesTypes t)
    (scope : ScopeId) {e : Expr} (he : e.Unwidened) :
    ((value t scope e).faults = [] ↔
        ∃ ty kind, ty ≠ .void ∧ e.kind.Elaborates t scope ty kind) ∧
      ∀ ty kind, ty ≠ .void → e.kind.Elaborates t scope ty kind →
        (value t scope e).ty = ty ∧ (value t scope e).expr = e.typedAs kind ty ty := by
  obtain ⟨ts, hread⟩ := Script.read_derived source report
  have hclean := ht.clean (Declare.script_declared hread).clean
  have hfinds : Finds t scope e := finds hclean e he
  refine ⟨⟨fun hfaults => ?_, ?_⟩, fun ty kind hvoid h => ?_⟩
  · obtain ⟨-, hnone, hvoid⟩ := asValue_of_faults hfaults
    obtain ⟨ty, kind, h⟩ := elaborates_of_faults hclean e he hnone
    rw [hfinds ty kind h] at hvoid
    exact ⟨ty, kind, hvoid, h⟩
  · rintro ⟨ty, kind, hvoid, h⟩
    rw [hfinds.value h hvoid]
    rfl
  · rw [hfinds.value h hvoid]
    exact ⟨rfl, rfl⟩

/-- A script with a number, a vector and a function. -/
def numberAndVector : String :=
  "var n = 1 var v = [n] func f(x : float, s : string) : [] \x7b return v \x7d"

/-- Its table, where the number and the vector have their types. -/
def numberAndVectorTable : Table :=
  ((Declare.script initial (Script.read numberAndVector {}).1).table.setVariableTy ⟨5⟩
    .int).setVariableTy ⟨6⟩ .vector

/-- The expression `f(n, "s") + n == v`. -/
def mixedSum : Expr :=
  let place : Span := ⟨0, 0⟩
  ⟨.binary ⟨.binary ⟨.call "f" [⟨.name "n" none, place, none, none⟩,
    ⟨.text "s", place, none, none⟩] none, place, none, none⟩ .plus
    ⟨.name "n" none, place, none, none⟩, place, none, none⟩ .equal
    ⟨.name "v" none, place, none, none⟩, place, none, none⟩

set_option maxRecDepth 20000 in
/-- The number is widened once to `float` and once to a vector. -/
theorem value_faults_iff_elaborates_mixedSum :
    (Declare.script initial (Script.read numberAndVector {}).1).table.GivesTypes
        numberAndVectorTable ∧ mixedSum.Unwidened ∧
      (Typing.value numberAndVectorTable global mixedSum).expr.nodes.filterMap
        Annotated.promoteTo = [.float, .vector] ∧
      ∃ kind, mixedSum.kind.Elaborates numberAndVectorTable global .boolean kind ∧
        (Typing.value numberAndVectorTable global mixedSum).expr =
          mixedSum.typedAs kind .boolean .boolean := by
  have ht : (Declare.script initial (Script.read numberAndVector {}).1).table.GivesTypes
      numberAndVectorTable :=
    ((Table.GivesTypes.refl _).setVariableTy ⟨5⟩ (nofun : Ty.int ≠ .error)).setVariableTy ⟨6⟩
      (nofun : Ty.vector ≠ .error)
  have he : mixedSum.Unwidened := by
    unfold Annotated.Unwidened
    decide +kernel
  have hfaults : (Typing.value numberAndVectorTable global mixedSum).faults.isEmpty := by
    decide +kernel
  have hboolean : (Typing.value numberAndVectorTable global mixedSum).ty = .boolean := by
    decide +kernel
  obtain ⟨hiff, hfound⟩ :=
    Typing.value_faults_iff_elaborates numberAndVector {} ht global he
  obtain ⟨ty, kind, hvoid, h⟩ := hiff.mp (isEmpty_iff.mp hfaults)
  obtain ⟨hty, hexpr⟩ := hfound ty kind hvoid h
  rw [hboolean] at hty
  subst hty
  exact ⟨ht, he, by decide +kernel, kind, h, hexpr⟩

end WichToC
