import WichToC.C.Quoted

/-!
# Reading string literals

How a C compiler reads the literal for a string.  First every trigraph, two question marks and a
third character, is replaced by the character that it stands for.  What is left must be a quote,
characters that stand for themselves or are escaped, and a quote; a line feed breaks it off.

Without trigraphs the literal for a string is read as this string (`literal_reads_back`).  Question
marks are not escaped, so a string that holds a trigraph is read as something else.
-/

namespace WichToC

open List

namespace CLiteral

variable (value : List Char) (base : Nat)

/-! ## The reader -/

/-- The character that two question marks and a third character stand for. -/
def trigraph? : Char → Option Char
  | '=' => some '#'
  | '/' => some '\\'
  | '\x27' => some '^'
  | '(' => some '['
  | ')' => some ']'
  | '!' => some '|'
  | '<' => some '\x7b'
  | '>' => some '\x7d'
  | '-' => some '~'
  | _ => none

/-- The text with its trigraphs replaced, from left to right. -/
def replaceTrigraphs : List Char → List Char
  | a :: b :: c :: cs =>
    match (if a = '?' ∧ b = '?' then trigraph? c else none) with
    | some d => d :: replaceTrigraphs cs
    | none => a :: replaceTrigraphs (b :: c :: cs)
  | cs => cs

/-- The character that a backslash and one more character stand for. -/
def simpleEscape? : Char → Option Char
  | 'a' => some '\x07'
  | 'b' => some '\x08'
  | 't' => some '\t'
  | 'n' => some '\n'
  | 'v' => some '\x0b'
  | 'f' => some '\x0c'
  | 'r' => some '\r'
  | c => if c ∈ ['"', '\x27', '?', '\\'] then some c else none

/-- The value of a digit in a base up to sixteen. -/
def digit? (c : Char) : Option Nat :=
  let n :=
    if c.isDigit then c.toNat - '0'.toNat
    else if 'a' ≤ c ∧ c ≤ 'f' then c.toNat - 'a'.toNat + 10
    else if 'A' ≤ c ∧ c ≤ 'F' then c.toNat - 'A'.toNat + 10
    else base
  if n < base then some n else none

/-- The character with the number that at least `least` and at most `most` digits write, and what
follows them. -/
def readNumber? (least most : Nat) (cs : List Char) : Option (Char × List Char) :=
  let digits := ((cs.take most).map (digit? base)).takeWhile Option.isSome
  if digits.length < least then none
  else some (.ofNat (digits.reduceOption.foldl (fun n d => base * n + d) 0), cs.drop digits.length)

/-- The character that an escape sequence stands for and what follows it; `cs` comes after the
backslash. -/
def readEscape? (cs : List Char) : Option (Char × List Char) :=
  match cs with
  | [] => none
  | 'x' :: cs => readNumber? 16 1 cs.length cs
  | 'u' :: cs => readNumber? 16 4 4 cs
  | 'U' :: cs => readNumber? 16 8 8 cs
  | c :: rest =>
    match simpleEscape? c with
    | some d => some (d, rest)
    | none => readNumber? 8 1 3 cs

/-- Reads characters up to the closing quote: their value and what follows the quote.  `fuel` bounds
their number. -/
def readChars? : Nat → List Char → Option (List Char × List Char)
  | fuel + 1, c :: cs =>
    if c = '"' then some ([], cs)
    else if c = '\n' then none
    else do
      let (first, cs) ← if c = '\\' then readEscape? cs else some (c, cs)
      let (others, cs) ← readChars? fuel cs
      return (first :: others, cs)
  | _, _ => none

/-- Reads a literal: its value and what follows it. -/
def readLiteral? (text : List Char) : Option (List Char × List Char) :=
  match replaceTrigraphs text with
  | '"' :: cs => readChars? cs.length cs
  | _ => none

/-! ## Literals for strings -/

/-- Whether two question marks stand before a character that makes a trigraph of them. -/
def hasTrigraph : List Char → Bool
  | a :: b :: c :: cs => (a = '?' && b = '?' && (trigraph? c).isSome) || hasTrigraph (b :: c :: cs)
  | _ => false

/-- A character is written as it is, or as a backslash and a character that stands for it. -/
theorem escape_cases (c : Char) : (escape c = [c] ∧ c ≠ '"' ∧ c ≠ '\n' ∧ c ≠ '\\') ∨
      ∃ x, escape c = ['\\', x] ∧ x ≠ '?' ∧ ∀ cs, readEscape? (x :: cs) = some (c, cs) := by
  unfold escape
  split
  case h_6 hquote hbackslash hfeed _ _ => exact .inl ⟨rfl, hquote, hfeed, hbackslash⟩
  all_goals exact .inr ⟨_, rfl, by decide, fun _ => rfl⟩

theorem cons_eq_of_escape {c d : Char} {cs rest : List Char} (h : escape c ++ cs = d :: rest)
    (hd : d ≠ '\\') : c = d ∧ cs = rest := by
  rcases escape_cases c with ⟨hc, -⟩ | ⟨x, hc, -⟩ <;> rw [hc] at h
  · exact cons.inj h
  · exact absurd (cons.inj h).1.symm hd

/-- A character that begins no trigraph stays. -/
theorem replaceTrigraphs_cons {c : Char} {cs : List Char}
    (h : ∀ d rest, c = '?' → cs = '?' :: d :: rest → trigraph? d = none) :
    replaceTrigraphs (c :: cs) = c :: replaceTrigraphs cs := by
  rcases cs with _ | ⟨b, _ | ⟨d, rest⟩⟩
  · rfl
  · rfl
  · have hnone : (if c = '?' ∧ b = '?' then trigraph? d else none) = none := by
      split
      case isTrue hmarks => exact h d rest hmarks.1 (by rw [hmarks.2])
      case isFalse => rfl
    rw [replaceTrigraphs, hnone]

/-- Escaping makes no trigraphs. -/
theorem replaceTrigraphs_escape (h : hasTrigraph value = false) :
    replaceTrigraphs (value.flatMap escape ++ ['"']) = value.flatMap escape ++ ['"'] := by
  induction value with
  | nil => rfl
  | cons c value ih =>
    have hrest : hasTrigraph value = false := by
      rcases value with _ | ⟨a, _ | ⟨b, value⟩⟩
      · rfl
      · rfl
      · rw [hasTrigraph, Bool.or_eq_false_iff] at h
        exact h.2
    rw [flatMap_cons, append_assoc]
    rcases escape_cases c with ⟨hc, -⟩ | ⟨x, hc, hx, -⟩
    · rw [hc, singleton_append, replaceTrigraphs_cons, ih hrest]
      rintro d rest rfl heq
      cases hd : trigraph? d with
      | none => rfl
      | some x =>
        -- the characters ahead are the next two of the string
        rcases value with _ | ⟨b, value⟩
        · cases heq
        rw [flatMap_cons, append_assoc] at heq
        obtain ⟨rfl, hnext⟩ := cons_eq_of_escape heq (by decide)
        rcases value with _ | ⟨e, value⟩
        · cases hnext
          cases hd
        rw [flatMap_cons, append_assoc] at hnext
        obtain ⟨rfl, -⟩ := cons_eq_of_escape hnext (by rintro rfl; cases hd)
        simp [hasTrigraph, hd] at h
    · have hback : ('\\' : Char) ≠ '?' := by decide
      rw [hc, cons_append, singleton_append, replaceTrigraphs_cons (fun _ _ h => absurd h hback),
        replaceTrigraphs_cons (fun _ _ h => absurd h hx), ih hrest]

/-- Reading undoes escaping. -/
theorem readChars?_escape (rest : List Char) (fuel : Nat) (h : value.length < fuel) :
    readChars? fuel (value.flatMap escape ++ '"' :: rest) = some (value, rest) := by
  induction value generalizing fuel with
  | nil =>
    obtain ⟨f, rfl⟩ : ∃ f, fuel = f + 1 := ⟨fuel - 1, by omega⟩
    rfl
  | cons c value ih =>
    obtain ⟨f, rfl⟩ : ∃ f, fuel = f + 1 := ⟨fuel - 1, by omega⟩
    have hrest := ih f (Nat.lt_of_succ_lt_succ h)
    rw [flatMap_cons, append_assoc]
    rcases escape_cases c with ⟨hc, hquote, hfeed, hbackslash⟩ | ⟨x, hc, -, hread⟩
    · simp [hc, readChars?, hquote, hfeed, hbackslash, hrest]
    · simp [hc, readChars?, hread, hrest]

theorem length_le_flatMap_escape : value.length ≤ (value.flatMap escape).length := by
  induction value with
  | nil => exact Nat.le_refl _
  | cons c value ih =>
    have hone : 1 ≤ (escape c).length := by
      rcases escape_cases c with ⟨hc, -⟩ | ⟨x, hc, -⟩ <;> simp [hc]
    grind

end CLiteral

open CLiteral in
/-- **Literals mean what they are made of.**  The literal for a string without trigraphs is read as
one literal, with nothing left over, whose value is this string. -/
theorem literal_reads_back (value : String) (h : hasTrigraph value.toList = false) :
    readLiteral? (CLiteral.ofString value).toList = some (value.toList, []) := by
  have hquote : replaceTrigraphs (chars value.toList) = chars value.toList := by
    rw [chars, cons_append, replaceTrigraphs_cons (fun _ _ h => absurd h (by decide)),
      replaceTrigraphs_escape _ h]
  rw [readLiteral?, CLiteral.ofString, String.toList_ofList, hquote]
  have hlength : value.toList.length < (value.toList.flatMap escape ++ ['"']).length := by
    rw [length_append]
    exact Nat.lt_succ_of_le (length_le_flatMap_escape _)
  exact readChars?_escape value.toList [] _ hlength

open CLiteral in
theorem literal_reads_back_questions : hasTrigraph "\"what??\"\t??\\?/\n".toList = false ∧
    readLiteral? (CLiteral.ofString "\"what??\"\t??\\?/\n").toList =
      some ("\"what??\"\t??\\?/\n".toList, []) :=
  ⟨by decide, literal_reads_back _ (by decide)⟩

open CLiteral in
/-- The literal for `what??!` is read as `what|`, and the one for `??/` is no literal. -/
theorem literal_with_trigraph_misread :
    readLiteral? (CLiteral.ofString "what??!").toList = some ("what|".toList, []) ∧
      readLiteral? (CLiteral.ofString "??/").toList = none := by
  decide

end WichToC
