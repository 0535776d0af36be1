import Mathlib.Data.List.Basic
import WichToC.Proofs.Joining
import WichToC.Proofs.Literals

/-!
# String literals as tokens

The C literal for a string is also a string token of scripts.  Each character of the string is
written so that the closing quote is found behind it and that its value is read back, with one
exception: scripts have no escape sequence for the carriage return, so its backslash and letter are
read as they stand.
-/

namespace WichToC

open List Text

/-- The string with a backslash and the letter `r` for each carriage return. -/
def spellReturns (value : String) : String :=
  String.ofList (value.toList.flatMap fun c => if c = '\r' then ['\\', 'r'] else [c])

namespace CLiteral

variable {cs : List Char} (value : List Char)

/-- The closing quote is not found inside an escaped character. -/
theorem quoted_escape {width : Nat} (c : Char) (h : Quoted width cs) :
    Quoted ((escape c).length + width) (escape c ++ cs) := by
  rw [Nat.add_comm]
  unfold escape
  split
  case h_6 hquote hbackslash _ _ _ => exact .plain hquote hbackslash h
  all_goals exact .escape (by decide) h

theorem quoted_chars : Quoted (value.flatMap escape).length (value.flatMap escape ++ ['"']) := by
  induction value with
  | nil => exact .close
  | cons c value ih =>
    rw [flatMap_cons, length_append, append_assoc]
    exact quoted_escape c ih

theorem unescape_escape {c : Char} :
    unescape (escape c ++ cs) = (if c = '\r' then ['\\', 'r'] else [c]) ++ unescape cs := by
  unfold escape
  split
  case h_6 hbackslash _ _ hreturn =>
    have hplain : c ≠ '\\' := hbackslash
    simp [if_neg hreturn, unescape, hplain]
  all_goals rfl

theorem unescape_chars : unescape (value.flatMap escape) =
    value.flatMap fun c => if c = '\r' then ['\\', 'r'] else [c] := by
  induction value with
  | nil => rfl
  | cons c value ih => rw [flatMap_cons, flatMap_cons, unescape_escape, ih]

/-- A literal is one token, for nothing is left behind its closing quote. -/
theorem lex_ofString (value : String) : lex (ofString value) =
    [⟨.text (spellReturns value), ⟨0, byteLength (ofString value).toList⟩⟩] := by
  have hscan : Token.scan '"' (value.toList.flatMap escape ++ ['"']) =
      ⟨some (.text (spellReturns value)), (value.toList.flatMap escape).length + 1⟩ := by
    show scanString _ = _
    rw [scanString, findQuote_eq_closed.mpr (quoted_chars value.toList)]
    dsimp only
    rw [take_left, unescape_chars, spellReturns]
  have htext : stepText '"' (value.toList.flatMap escape ++ ['"']) = chars value.toList := by
    rw [stepText, hscan, take_of_length_le (by simp), chars, cons_append]
  have hrest : stepRest '"' (value.toList.flatMap escape ++ ['"']) = [] := by
    rw [stepRest, hscan, drop_eq_nil_of_le (by simp)]
  show lexAt 0 (ofString value).toList = _
  rw [ofString, String.toList_ofList]
  calc lexAt 0 (chars value.toList)
      = lexAt 0 ('"' :: (value.toList.flatMap escape ++ ['"'])) := by rw [chars, cons_append]
    _ = _ := by rw [lexAt_token (by rw [hscan]), htext, hrest, Nat.zero_add]; rfl

/-- Reading by the C rules tells two literals apart. -/
theorem ofString_injective : Function.Injective ofString := by
  intro v w h
  have hchars : chars v.toList = chars w.toList := by
    simpa [ofString] using congrArg String.toList h
  rw [chars, chars, cons_append, cons_append, cons.injEq] at hchars
  let fuel := v.toList.length + w.toList.length + 1
  have hv := readChars?_escape v.toList [] fuel (by omega)
  have hw := readChars?_escape w.toList [] fuel (by omega)
  rw [hchars.2, hw] at hv
  exact String.toList_injective (congrArg Prod.fst (Option.some.inj hv)).symm

theorem spellReturns_eq_self {value : String} (h : '\r' ∉ value.toList) :
    spellReturns value = value := by
  have hsame : ∀ c ∈ value.toList, (if c = '\r' then ['\\', 'r'] else [c]) = [c] := by grind
  rw [spellReturns, flatMap_congr hsame, flatMap_singleton', String.ofList_toList]

end CLiteral

open CLiteral in
/-- **Literals are tokens.**  The literal for a string is read as one string token, which spans it.
Its value is the string, with carriage returns spelled out, and different strings have different
literals. -/
theorem lex_literal : (∀ value : String, '\r' ∉ value.toList → lex (ofString value) =
      [⟨.text value, ⟨0, byteLength (ofString value).toList⟩⟩]) ∧
    Function.Injective ofString ∧
    ∀ value : String, lex (ofString value) =
      [⟨.text (spellReturns value), ⟨0, byteLength (ofString value).toList⟩⟩] := by
  refine ⟨fun value h => ?_, ofString_injective, lex_ofString⟩
  rw [lex_ofString, spellReturns_eq_self h]

open CLiteral in
/-- A string that ends in a backslash, and quotes behind backslashes. -/
theorem lex_literal_backslashes : '\r' ∉ "\\\"\\\\\"é\n\\".toList ∧
    lex (ofString "\\\"\\\\\"é\n\\") = [⟨.text "\\\"\\\\\"é\n\\", ⟨0, 18⟩⟩] :=
  ⟨by decide, lex_literal.1 _ (by decide)⟩

end WichToC
