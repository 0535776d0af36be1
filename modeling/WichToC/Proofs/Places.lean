import WichToC.Script.Cursor

/-!
# Places of reading

Reading only goes on: what is left at a later place is the end of what was left at an earlier one
(`Cursor.Reaches`), and faults are met in this order (`Cursor.Meets`).
-/

namespace WichToC.Cursor

open List

variable {a b c d m : Cursor} {ds ds' : List Diagnostic}

/-- Reading comes from one place to another. -/
structure Reaches (c d : Cursor) : Prop where
  rest : d.rest <:+ c.rest
  endPosition : d.endPosition = c.endPosition

theorem Reaches.refl (c : Cursor) : c.Reaches c := ⟨suffix_rfl, rfl⟩

theorem Reaches.trans (h : a.Reaches b) (h' : b.Reaches c) : a.Reaches c :=
  ⟨h'.rest.trans h.rest, h'.endPosition.trans h.endPosition⟩

theorem reaches_advance (c : Cursor) : c.Reaches c.advance := by
  unfold advance
  split
  · rename_i heq
    exact ⟨heq ▸ suffix_cons .., rfl⟩
  · exact .refl c

theorem reaches_skipToStatement (c : Cursor) : c.Reaches c.skipToStatement := ⟨drop_suffix .., rfl⟩

theorem reaches_recover {start : Cursor} : c.Reaches (c.recover start) := by
  unfold recover
  split
  · exact c.reaches_advance.trans (reaches_skipToStatement _)
  · exact reaches_skipToStatement c

theorem length_advance_lt (h : c.rest ≠ []) : c.advance.rest.length < c.rest.length := by
  unfold advance
  grind

/-- After a fault reading goes on behind the place where the failed part began. -/
theorem length_recover_lt (h : c.Reaches d) (hmore : c.rest ≠ []) :
    (d.recover c).rest.length < c.rest.length := by
  unfold recover
  split
  case isTrue heq =>
    have hd : d.rest ≠ [] := length_pos_iff.mp (heq ▸ length_pos_iff.mpr hmore)
    exact heq ▸ Nat.lt_of_le_of_lt (reaches_skipToStatement _).rest.length_le (length_advance_lt hd)
  case isFalse hne =>
    exact Nat.lt_of_le_of_lt (reaches_skipToStatement d).rest.length_le
      (Nat.lt_of_le_of_ne h.rest.length_le hne)

/-- Between two places the faults are met one after the other. -/
inductive Meets : Cursor → List Diagnostic → Cursor → Prop
  | nil {c d : Cursor} : c.Reaches d → Meets c [] d
  | cons {c m d : Cursor} {fault : Diagnostic} {ds : List Diagnostic} : c.Reaches m →
    fault.span = some m.here → Meets m ds d → Meets c (fault :: ds) d

theorem Meets.reaches (h : c.Meets ds d) : c.Reaches d := by
  induction h with
  | nil h => exact h
  | cons h _ _ ih => exact h.trans ih

theorem Reaches.meets (h : c.Reaches m) (hm : m.Meets ds d) : c.Meets ds d := by
  cases hm with
  | nil h' => exact .nil (h.trans h')
  | cons h' hspan hm => exact .cons (h.trans h') hspan hm

theorem Meets.append (h : c.Meets ds m) (h' : m.Meets ds' d) : c.Meets (ds ++ ds') d := by
  induction h with
  | nil h => exact h.meets h'
  | cons h hspan _ ih => exact .cons h hspan (ih h')

/-! ## Order of faults -/

/-- The lexemes ahead begin one after the other, and before the end. -/
structure InOrder (c : Cursor) : Prop where
  starts : c.rest.Pairwise fun a b => a.span.start ≤ b.span.start
  le_end : ∀ l ∈ c.rest, l.span.start ≤ c.endPosition

theorem InOrder.reaches (h : c.InOrder) (hd : c.Reaches d) : d.InOrder :=
  ⟨h.starts.sublist hd.rest.sublist, fun l hl => hd.endPosition ▸ h.le_end l (hd.rest.subset hl)⟩

theorem InOrder.here_le (h : c.InOrder) (hd : c.Reaches d) : c.here.start ≤ d.here.start := by
  obtain ⟨before, hbefore⟩ := hd.rest
  have hend := hd.endPosition
  rcases h with ⟨hstarts, hle⟩
  unfold here
  cases before <;> cases hrest : d.rest <;> simp_all <;> grind

theorem Meets.start_le (h : c.Meets ds d) (hc : c.InOrder) :
    ∀ fault ∈ ds, ∀ span ∈ fault.span, c.here.start ≤ span.start := by
  induction h with
  | nil => nofun
  | cons hm hspan _ ih =>
    have hle := hc.here_le hm
    refine forall_mem_cons.mpr ⟨fun span h => ?_, fun fault hf span h => ?_⟩
    · rw [hspan] at h
      cases h
      exact hle
    · exact Nat.le_trans hle (ih (hc.reaches hm) fault hf span h)

/-- Faults that are met one after the other are in the order of their starts. -/
theorem Meets.sorted (h : c.Meets ds d) (hc : c.InOrder) :
    ds.Pairwise fun a b => ∀ s ∈ a.span, ∀ s' ∈ b.span, s.start ≤ s'.start := by
  induction h with
  | nil => exact .nil
  | cons hm hspan hmeets ih =>
    have hm' := hc.reaches hm
    refine .cons (fun fault hf s hs s' hs' => ?_) (ih hm')
    rw [hspan] at hs
    cases hs
    exact hmeets.start_le hm' fault hf s' hs'

end WichToC.Cursor
