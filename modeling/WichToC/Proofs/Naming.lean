import Mathlib.Data.List.Dedup
import Mathlib.Data.List.Nodup
import Mathlib.Data.List.Perm.Subperm
import WichToC.Model.Fresh

/-!
# Fresh names are fresh

The first free candidate is free: candidates with different numbers differ, and there are more of
them than taken names.  Temporaries and variants of variable names never meet, for a variant has an
underscore and a temporary has none.
-/

namespace WichToC.Fresh

open List

variable {m n : Nat} {name : String}

theorem toString_injective (h : toString m = toString n) : m = n := by
  rw [Nat.toString_eq_ofList_toDigits, Nat.toString_eq_ofList_toDigits] at h
  have hdigits : Nat.toDigits 10 m = Nat.toDigits 10 n := by
    simpa using congrArg String.toList h
  calc
    m = Nat.ofDigitChars 10 (Nat.toDigits 10 m) 0 := Nat.ofDigitChars_ten_toDigits.symm
    _ = n := by rw [hdigits, Nat.ofDigitChars_ten_toDigits]

theorem temporary_injective (h : temporary m = temporary n) : m = n := by
  apply toString_injective
  simpa [temporary] using h

theorem variant_injective (h : variant name m = variant name n) : m = n := by
  apply toString_injective
  simpa [variant] using h

/-- A temporary has no underscore, and a variant has one. -/
theorem temporary_ne_variant : temporary m ≠ variant name n := by
  intro h
  have hmem : '_' ∈ (temporary m).toList := by
    rw [h]
    simp [variant]
  rw [temporary, String.toList_append, mem_append, Nat.toString_eq_ofList_toDigits] at hmem
  rcases hmem with hmem | hmem <;> simp at hmem

variable {taken : List String} {candidate : Nat → String}

/-- A search goes on over taken candidates only, and it ends at a taken one only when its fuel is
used up. -/
theorem firstFrom_spec (taken : List String) (candidate : Nat → String) (fuel start : Nat) :
    start ≤ firstFrom taken candidate fuel start ∧
    (∀ m, start ≤ m → m < firstFrom taken candidate fuel start → candidate m ∈ taken) ∧
    (candidate (firstFrom taken candidate fuel start) ∈ taken →
      firstFrom taken candidate fuel start = start + fuel) := by
  induction fuel generalizing start with
  | zero => exact ⟨Nat.le_refl _, fun m hle hlt => absurd hlt (Nat.not_lt.mpr hle), fun _ => rfl⟩
  | succ fuel ih =>
    obtain ⟨hle, hbelow, hend⟩ := ih (start + 1)
    unfold firstFrom
    grind

theorem le_length_of_mem (hinj : ∀ {m n}, candidate m = candidate n → m = n) (start : Nat) {k : Nat}
    (h : ∀ i < k, candidate (start + i) ∈ taken) : k ≤ taken.length := by
  have hnodup : ((range k).map fun i => candidate (start + i)).Nodup := by
    refine Nodup.map (fun a b hab => ?_) nodup_range
    have := hinj hab
    omega
  have hsub : ((range k).map fun i => candidate (start + i)) ⊆ taken := by grind
  simpa using (hnodup.subperm hsub).length_le

/-- A search among candidates ends at the first free one, after at most as many failures as there
are different taken names. -/
structure Search (taken : List String) (candidate : Nat → String) (start : Nat) : Prop where
  le : start ≤ first taken candidate start
  free : candidate (first taken candidate start) ∉ taken
  failed : ∀ m, start ≤ m → m < first taken candidate start → candidate m ∈ taken
  bound : first taken candidate start - start ≤ taken.dedup.length

theorem Search.of_injective (hinj : ∀ {m n}, candidate m = candidate n → m = n) (start : Nat) :
    Search taken candidate start := by
  obtain ⟨hle, hbelow, hend⟩ := firstFrom_spec taken candidate taken.length start
  refine ⟨hle, fun hmem => ?_, hbelow, le_length_of_mem hinj start fun i hi => ?_⟩
  · -- One more candidate than there are taken names, all of them different and taken.
    have hlast := hend hmem
    have : taken.length + 1 ≤ taken.length := le_length_of_mem hinj start fun i hi => by
      by_cases heq : i = taken.length
      · exact heq ▸ hlast ▸ hmem
      · grind
    omega
  · exact mem_dedup.mpr (hbelow _ (Nat.le_add_right start i) (by unfold first at hi; omega))

/-- The first free candidate is free. -/
theorem candidate_first_not_mem (hinj : ∀ {m n}, candidate m = candidate n → m = n) (start : Nat) :
    candidate (first taken candidate start) ∉ taken :=
  (Search.of_injective hinj start).free

end WichToC.Fresh
