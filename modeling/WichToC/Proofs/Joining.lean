import WichToC.Proofs.Lexing

/-!
# Reading one text after another

White space ends every lexeme that is not an error: a lexeme that is read alone is read the same way
before a text that begins with white space (`Scan.IsToken.append`).  Strings need a view of their
own for this, since they go on over white space; `Quoted` is that view.

From there the lexemes of a long text are those of its parts.  `lexAt_append` takes a text off at
the end of a line and `Skipped.lexAt_append` takes off a gap, and the main statements follow:

* `lex_joined`: texts that are single lexemes, joined by separators, are read one by one;
* `lex_block_comment`: a block comment is no gap, but an error token and a slash.
-/

namespace WichToC

open List Text

variable (s : Separator)

/-! ## What white space ends -/

/-- A text at whose beginning every lexeme but a string has ended: it is empty or begins with white
space. -/
def Parted (cs : List Char) : Prop := ∀ c ∈ cs.head?, isBlank c = true

theorem isBlank_of_isNameChar (c : Char) (h : isNameChar c = true) : isBlank c = false := by
  unfold isNameChar Char.isAlphanum Char.isAlpha Char.isUpper Char.isLower Char.isDigit at h
  simp only [Bool.or_eq_true, Bool.and_eq_true, decide_eq_true_eq, UInt32.le_iff_toNat_le,
    ge_iff_le] at h
  obtain h | rfl := h
  · have hrange : 48 ≤ c.toNat ∧ c.toNat ≤ 122 := by
      have : c.toNat = c.val.toNat := rfl
      simp at h
      omega
    simp only [isBlank, Bool.or_eq_false_iff, Bool.and_eq_false_iff, decide_eq_false_iff_not,
      beq_eq_false_iff_ne]
    omega
  · decide

theorem isBlank_of_isDigit (c : Char) (h : c.isDigit = true) : isBlank c = false :=
  isBlank_of_isNameChar c (by simp [isNameChar, Char.isAlphanum, h])

section Parted

variable {c d : Char} {cs rest : List Char} {p : Char → Bool}

theorem Parted.nil : Parted [] := fun _ h => nomatch h

theorem Parted.cons (h : isBlank c = true) : Parted (c :: cs) :=
  fun _ hd => Option.some.inj hd ▸ h

theorem Parted.not_head (h : Parted (d :: rest)) (hd : isBlank d = false) : False :=
  Bool.noConfusion ((h d rfl).symm.trans hd)

theorem Parted.head?_append (h : Parted rest) (hd : isBlank d = false) :
    (cs ++ rest).head? = some d ↔ cs.head? = some d := by
  cases cs with
  | nil =>
    cases rest with
    | nil => rfl
    | cons c rest =>
      refine iff_of_false (fun hc => ?_) (fun hnil => nomatch hnil)
      obtain rfl : c = d := Option.some.inj hc
      exact h.not_head hd
  | cons => rfl

theorem Parted.beginsWithDigit_append (h : Parted rest) :
    ((cs ++ rest).head?.map Char.isDigit).getD false = (cs.head?.map Char.isDigit).getD false := by
  cases cs with
  | nil =>
    cases rest with
    | nil => rfl
    | cons d rest => exact Bool.eq_false_iff.mpr fun hd => h.not_head (isBlank_of_isDigit d hd)
  | cons => rfl

theorem Parted.takeWhile_append (h : Parted rest) (hp : ∀ c, p c = true → isBlank c = false) :
    (cs ++ rest).takeWhile p = cs.takeWhile p := by
  induction cs with
  | nil =>
    cases rest with
    | nil => rfl
    | cons d rest => exact takeWhile_cons_of_neg fun hd => h.not_head (hp d hd)
  | cons c cs ih => rw [cons_append, takeWhile_cons, takeWhile_cons, ih]

theorem drop_length_takeWhile_append :
    (cs ++ rest).drop (cs.takeWhile p).length = cs.drop (cs.takeWhile p).length ++ rest :=
  drop_append_of_le_length (takeWhile_sublist p).length_le

/-- The sign that may stand after the letter of an exponent: whether it is a minus, and its
width. -/
def exponentSign (next : Option Char) : Bool × Nat :=
  match next with
  | some '+' => (false, 1)
  | some '-' => (true, 1)
  | _ => (false, 0)

/-- The exponent with this sign and these digits, if there are any. -/
def exponentOf (sign : Bool × Nat) (digits : List Char) : Option Exponent :=
  if digits.isEmpty then none
  else
    let n : Int := digitsValue digits
    some ⟨if sign.1 then -n else n, 1 + sign.2 + digits.length⟩

theorem readExponent?_cons {e : Char} : readExponent? (e :: cs) = if e = 'e' ∨ e = 'E' then
      exponentOf (exponentSign cs.head?)
        ((cs.drop (exponentSign cs.head?).2).takeWhile Char.isDigit)
    else none := rfl

theorem exponentSign_le (cs : List Char) : (exponentSign cs.head?).2 ≤ cs.length := by
  cases cs with
  | nil => exact Nat.le_refl 0
  | cons d cs =>
    have hsign : (exponentSign (some d)).2 ≤ 1 := by
      unfold exponentSign
      split <;> decide
    exact Nat.le_trans hsign (Nat.le_add_left ..)

section

variable (h : Parted rest)

include h

theorem Parted.exponentSign_append : exponentSign (cs ++ rest).head? = exponentSign cs.head? := by
  cases cs with
  | nil =>
    show exponentSign rest.head? = (false, 0)
    unfold exponentSign
    split
    case h_1 hplus => exact nomatch h _ hplus
    case h_2 hminus => exact nomatch h _ hminus
    case h_3 => rfl
  | cons => rfl

theorem Parted.readExponent?_append : readExponent? (cs ++ rest) = readExponent? cs := by
  cases cs with
  | nil =>
    cases rest with
    | nil => rfl
    | cons d rest =>
      have hd : ¬(d = 'e' ∨ d = 'E') := by
        rintro (rfl | rfl) <;> exact nomatch h _ rfl
      exact if_neg hd
  | cons e cs =>
    rw [cons_append, readExponent?_cons, readExponent?_cons, h.exponentSign_append,
      drop_append_of_le_length (exponentSign_le cs), h.takeWhile_append isBlank_of_isDigit]

theorem Parted.scanFraction_append (whole : List Char) :
    scanFraction whole (cs ++ rest) = scanFraction whole cs := by
  unfold scanFraction
  dsimp only
  rw [h.takeWhile_append isBlank_of_isDigit, drop_length_takeWhile_append, h.readExponent?_append]

theorem Parted.scanNumber_append : scanNumber c (cs ++ rest) = scanNumber c cs := by
  unfold scanNumber
  dsimp only
  rw [h.takeWhile_append isBlank_of_isDigit, drop_length_takeWhile_append]
  generalize cs.drop _ = after
  -- only a point goes on, and white space is none
  cases after with
  | nil =>
    split
    case h_1 hpoint => exact nomatch h '.' (congrArg head? hpoint)
    case h_2 => rfl
  | cons d after =>
    by_cases hd : d = '.' <;> simp [hd, h.scanFraction_append]

theorem Parted.scanWord_append : scanWord c (cs ++ rest) = scanWord c cs := by
  unfold scanWord
  rw [h.takeWhile_append isBlank_of_isNameChar]

/-- White space ends every lexeme but a string, whatever follows it. -/
theorem Parted.scan_append (hblank : isBlank c = false) (hquote : c ≠ '"')
    (hslash : c ≠ '/') : Token.scan c (cs ++ rest) = Token.scan c cs := by
  have hform := scan_form c
  generalize Token.scan c = scan at hform ⊢
  cases hform with
  | blank blank => exact nomatch blank.symm.trans hblank
  | word => exact h.scanWord_append
  | number => exact h.scanNumber_append
  | string quote => exact absurd quote hquote
  | slash slash => exact absurd slash hslash
  | point =>
    dsimp only
    rw [h.scanFraction_append, h.beginsWithDigit_append]
  | pair visible =>
    dsimp only [scanPair]
    simp only [h.head?_append visible]
  | single => rfl

end

end Parted

/-! ## Strings and slashes -/

/-- Something was read, and it is no error. -/
def Scan.IsToken (s : Scan) : Prop := ∃ token, s.token = some token ∧ token ≠ .error

/-- A text in which the closing quote of a string stands after `width` characters. -/
inductive Quoted : Nat → List Char → Prop
  | close {cs : List Char} : Quoted 0 ('"' :: cs)
  | escape {width : Nat} {c : Char} {cs : List Char} (visible : c ≠ '\n') (next : Quoted width cs) :
      Quoted (width + 2) ('\\' :: c :: cs)
  | plain {width : Nat} {c : Char} {cs : List Char} (inside : c ≠ '"') (itself : c ≠ '\\')
      (next : Quoted width cs) : Quoted (width + 1) (c :: cs)

section Strings

variable {c : Char} {cs rest : List Char} {width : Nat}

theorem QuoteEnd.later_eq_closed {e : QuoteEnd} {n : Nat} :
    e.later n = .closed width ↔ ∃ w, e = .closed w ∧ w + n = width := by
  cases e <;> simp [QuoteEnd.later]

theorem findQuote_eq_closed : findQuote cs = .closed width ↔ Quoted width cs := by
  constructor
  · intro h
    fun_induction findQuote cs generalizing width with
    | case1 | case3 | case4 => cases h
    | case2 =>
      cases h
      exact .close
    | case5 c cs visible ih =>
      obtain ⟨w, hw, rfl⟩ := QuoteEnd.later_eq_closed.mp h
      exact .escape visible (ih hw)
    | case6 c cs inside hlast hbreak hescape ih =>
      obtain ⟨w, hw, rfl⟩ := QuoteEnd.later_eq_closed.mp h
      refine .plain inside (fun hc => ?_) (ih hw)
      cases cs with
      | nil => exact hlast hc rfl
      | cons d cs => exact hescape d cs hc rfl
  · intro h
    induction h with
    | close => rfl
    | escape _ _ ih => simp [findQuote, ih, QuoteEnd.later]
    | plain _ itself _ ih => simp [findQuote, itself, ih, QuoteEnd.later]

theorem Quoted.lt_length (h : Quoted width cs) : width < cs.length := by
  induction h with
  | close => exact Nat.succ_pos _
  | escape _ _ ih => exact Nat.add_lt_add_right ih 2
  | plain _ _ _ ih => exact Nat.add_lt_add_right ih 1

theorem Quoted.append (h : Quoted width cs) (rest : List Char) : Quoted width (cs ++ rest) := by
  induction h with
  | close => exact .close
  | escape visible _ ih => exact .escape visible ih
  | plain inside itself _ ih => exact .plain inside itself ih

/-- A line feed closes no string. -/
theorem Quoted.of_append (h : Quoted width (cs ++ ['\n'])) : Quoted width cs := by
  generalize hcs : cs ++ ['\n'] = ds at h
  induction h generalizing cs with
  | close =>
    cases cs with
    | nil => cases hcs
    | cons c cs =>
      cases hcs
      exact .close
  | escape visible _ ih =>
    match cs, hcs with
    | [], hcs => cases hcs
    | [_], hcs =>
      cases hcs
      exact absurd rfl visible
    | _ :: _ :: cs, hcs =>
      cases hcs
      exact .escape visible (ih rfl)
  | plain inside itself next ih =>
    cases cs with
    | nil =>
      cases hcs
      cases next
    | cons c cs =>
      cases hcs
      exact .plain inside itself (ih rfl)

theorem scanString_sound : (scanString cs).IsToken ↔ ∃ width, Quoted width cs := by
  simp only [← findQuote_eq_closed]
  unfold scanString Scan.IsToken
  cases findQuote cs <;> simp

theorem Quoted.scanString_append (h : Quoted width cs) (rest : List Char) :
    scanString (cs ++ rest) = scanString cs := by
  unfold scanString
  rw [findQuote_eq_closed.mpr h, findQuote_eq_closed.mpr (h.append rest)]
  dsimp only
  rw [take_append_of_le_length (Nat.le_of_lt h.lt_length)]

theorem scanSlash_sound : (scanSlash cs).IsToken ↔ cs.head? ≠ some '/' ∧ cs.head? ≠ some '*' := by
  unfold scanSlash Scan.IsToken
  split <;> simp_all [head?_eq_some_iff]

theorem scanSlash_eq (h : (scanSlash cs).IsToken) : scanSlash cs = ⟨some (.mark .slash), 0⟩ := by
  obtain ⟨hline, hblock⟩ := scanSlash_sound.mp h
  unfold scanSlash
  grind

theorem Scan.IsToken.visible (h : (Token.scan c cs).IsToken) : isBlank c = false := by
  refine Bool.eq_false_iff.mpr fun hblank => ?_
  obtain ⟨token, htoken, -⟩ := h
  rw [scan_of_isBlank hblank] at htoken
  cases htoken

theorem scanSlash_append_sound (hrest : Parted rest) :
    (scanSlash (cs ++ rest)).IsToken ↔ (scanSlash cs).IsToken := by
  rw [scanSlash_sound, scanSlash_sound, Ne, hrest.head?_append rfl, Ne, hrest.head?_append rfl]

/-- Adding a line feed makes no lexeme. -/
theorem Scan.IsToken.of_append (h : (Token.scan c (cs ++ ['\n'])).IsToken) :
    (Token.scan c cs).IsToken := by
  have hbreak : Parted ['\n'] := .cons rfl
  by_cases hquote : c = '"'
  · subst hquote
    obtain ⟨width, hwidth⟩ := scanString_sound.mp h
    exact scanString_sound.mpr ⟨width, hwidth.of_append⟩
  by_cases hslash : c = '/'
  · subst hslash
    exact (scanSlash_append_sound hbreak).mp h
  rwa [hbreak.scan_append h.visible hquote hslash] at h

/-- **A lexeme that is read alone is read before white space too.** -/
theorem Scan.IsToken.append (h : (Token.scan c cs).IsToken) (hrest : Parted rest) :
    Token.scan c (cs ++ rest) = Token.scan c cs := by
  by_cases hquote : c = '"'
  · subst hquote
    obtain ⟨width, hwidth⟩ := scanString_sound.mp h
    exact hwidth.scanString_append rest
  by_cases hslash : c = '/'
  · subst hslash
    exact (scanSlash_eq ((scanSlash_append_sound hrest).mpr h)).trans (scanSlash_eq h).symm
  exact hrest.scan_append h.visible hquote hslash

end Strings

/-! ## No step takes more than there is -/

section Widths

variable {c : Char} {cs rest : List Char}

theorem readExponent?_width_le {e : Exponent} (h : readExponent? cs = some e) :
    e.width ≤ cs.length := by
  cases cs with
  | nil => cases h
  | cons d cs =>
    rw [readExponent?_cons] at h
    split at h
    · have hsign := exponentSign_le cs
      generalize exponentSign cs.head? = sign at h hsign
      have hdigits := (takeWhile_sublist (l := cs.drop sign.2) Char.isDigit).length_le
      rw [length_drop] at hdigits
      unfold exponentOf at h
      grind
    · cases h

theorem scanFraction_extra_le (whole cs : List Char) :
    (scanFraction whole cs).extra ≤ cs.length := by
  have hfraction := (takeWhile_sublist (l := cs) Char.isDigit).length_le
  unfold scanFraction
  dsimp only
  split
  · rename_i e he
    have hwidth := readExponent?_width_le he
    grind
  · exact hfraction

theorem scanNumber_extra_le : (scanNumber c cs).extra ≤ cs.length := by
  have hmore := (takeWhile_sublist (l := cs) Char.isDigit).length_le
  unfold scanNumber
  dsimp only
  split
  · rename_i rest hpoint
    have hfraction := scanFraction_extra_le (c :: cs.takeWhile Char.isDigit) rest
    have hrest := congrArg length hpoint
    grind
  · exact hmore

theorem Scan.IsToken.extra_le (h : (Token.scan c cs).IsToken) :
    (Token.scan c cs).extra ≤ cs.length := by
  have hform := scan_form c
  generalize Token.scan c = scan at hform h ⊢
  cases hform with
  | blank => exact (takeWhile_sublist _).length_le
  | word =>
    unfold scanWord
    dsimp only
    split <;> exact (takeWhile_sublist _).length_le
  | number => exact scanNumber_extra_le
  | string =>
    obtain ⟨width, hwidth⟩ := scanString_sound.mp h
    unfold scanString
    rw [findQuote_eq_closed.mpr hwidth]
    exact hwidth.lt_length
  | slash =>
    rw [scanSlash_eq h]
    exact Nat.zero_le _
  | point =>
    dsimp only
    split
    · exact scanFraction_extra_le ..
    · exact Nat.zero_le _
  | pair =>
    dsimp only [scanPair]
    split
    · grind
    · exact Nat.zero_le _
  | single => exact Nat.zero_le _

end Widths

/-! ## Gaps -/

section Gaps

variable {offset : Nat} {c : Char} {cs body after gap rest : List Char}

theorem lexAt_blanks (offset : Nat) (cs : List Char) : lexAt offset cs =
    lexAt (offset + byteLength (cs.takeWhile isBlank)) (cs.dropWhile isBlank) := by
  cases cs with
  | nil => rfl
  | cons c cs =>
    by_cases hc : isBlank c = true
    · rw [lexAt_skip (by rw [scan_of_isBlank hc]), stepText, stepRest, scan_of_isBlank hc,
        take_length_takeWhile, drop_length_takeWhile, takeWhile_cons_of_pos hc,
        dropWhile_cons_of_pos hc]
    · rw [takeWhile_cons_of_neg hc, dropWhile_cons_of_neg hc]
      rfl

theorem lexAt_blank (hc : isBlank c = true) :
    lexAt offset (c :: cs) = lexAt (offset + c.utf8Size) cs := by
  rw [lexAt_blanks offset (c :: cs), lexAt_blanks _ cs, takeWhile_cons_of_pos hc,
    dropWhile_cons_of_pos hc, byteLength_cons, Nat.add_assoc]

theorem takeWhile_append_of_stop {p : Char → Bool} (hbody : ∀ c ∈ body, p c = true)
    (hstop : ∀ c ∈ cs.head?, p c = false) : (body ++ cs).takeWhile p = body := by
  have hcs : cs.takeWhile p = [] := by
    cases cs with
    | nil => rfl
    | cons c cs => exact takeWhile_cons_of_neg (Bool.eq_false_iff.mp (hstop c rfl))
  rw [takeWhile_append_of_pos hbody, hcs, append_nil]

theorem lexAt_comment (inLine : ∀ c ∈ body, isLineBreak c = false)
    (ends : ∀ c ∈ cs.head?, isLineBreak c = true) :
    lexAt offset ('/' :: '/' :: (body ++ cs)) =
      lexAt (offset + byteLength ('/' :: '/' :: body)) cs := by
  have hbody : (body ++ cs).takeWhile (fun c => !isLineBreak c) = body :=
    takeWhile_append_of_stop (fun c hc => congrArg not (inLine c hc))
      (fun c hc => congrArg not (ends c hc))
  have hscan : Token.scan '/' ('/' :: (body ++ cs)) = ⟨none, body.length + 1⟩ :=
    calc Token.scan '/' ('/' :: (body ++ cs))
        = ⟨none, 1 + ((body ++ cs).takeWhile fun c => c != '\r' && c != '\n').length⟩ := rfl
      _ = ⟨none, body.length + 1⟩ := by rw [inLine_eq, hbody, Nat.add_comm]
  rw [lexAt_skip (by rw [hscan]), stepText, stepRest, hscan, take_succ_cons, drop_succ_cons,
    take_left, drop_left]

/-- **A gap is passed over.** -/
theorem Skipped.lexAt_append (h : Skipped after gap) :
    lexAt offset (gap ++ after) = lexAt (offset + byteLength gap) after := by
  induction h generalizing offset with
  | nil => rfl
  | blank blank _ ih =>
    rw [cons_append, lexAt_blank blank, ih, byteLength_cons, Nat.add_assoc]
  | comment inLine ends _ ih =>
    rw [cons_append, cons_append, append_assoc, lexAt_comment inLine ends, ih, Nat.add_assoc,
      ← byteLength_append]
    rfl

end Gaps

/-! ## One text after another -/

/-- The same lexeme in a text that begins `n` bytes later. -/
def Lexeme.shifted (n : Nat) (l : Lexeme) : Lexeme := ⟨l.token, ⟨n + l.span.start, n + l.span.stop⟩⟩

theorem lexAt_add (n offset : Nat) (cs : List Char) :
    lexAt (n + offset) cs = (lexAt offset cs).map (Lexeme.shifted n) := by
  induction offset, cs using lexAt_induction with
  | nil => rfl
  | step offset c cs ih =>
    rw [lexAt_cons, lexAt_cons, map_append, ← ih, map_map, Nat.add_assoc]
    rfl

theorem lexAt_eq_shifted {n : Nat} {source : String} :
    lexAt n source.toList = (lex source).map (Lexeme.shifted n) :=
  lexAt_add n 0 source.toList

/-- The last line of a text is ended by a line feed. -/
def Finished (cs : List Char) : Prop := ∀ c ∈ cs.getLast?, c = '\n'

section Append

variable {offset : Nat} {c : Char} {cs after gap rest : List Char}

theorem Finished.of_append (cs : List Char) (h : Finished (cs ++ rest)) : Finished rest :=
  fun c hc => h c (by rw [getLast?_append, hc]; rfl)

theorem Finished.comment_continues {body : List Char} (h : Finished ('/' :: '/' :: (body ++ cs)))
    (inLine : ∀ c ∈ body, isLineBreak c = false) : cs ≠ [] := by
  rintro rfl
  rw [append_nil] at h
  have hlast := getLast_mem (cons_ne_nil '/' ('/' :: body))
  rw [h _ (getLast?_eq_some_getLast _)] at hlast
  simp only [mem_cons, Char.reduceEq, false_or] at hlast
  exact nomatch inLine _ hlast

/-- A gap in a finished text stays one when text is added. -/
theorem Skipped.extend (h : Skipped after gap) (hfinished : Finished (gap ++ after))
    (rest : List Char) : Skipped (after ++ rest) gap := by
  induction h with
  | nil => exact .nil
  | @blank c cs blank _ ih => exact .blank blank (ih (Finished.of_append [c] hfinished))
  | @comment body cs inLine ends _ ih =>
    rw [cons_append, cons_append, append_assoc] at hfinished
    obtain ⟨d, ds, hds⟩ := exists_cons_of_ne_nil (hfinished.comment_continues inLine)
    refine .comment inLine ?_ (ih (Finished.of_append ('/' :: '/' :: body) hfinished))
    rw [hds] at ends
    rwa [← append_assoc, hds]

theorem Finished.scan_append (hfinished : Finished (c :: cs)) (h : (Token.scan c cs).IsToken)
    (rest : List Char) : Token.scan c (cs ++ rest) = Token.scan c cs := by
  obtain rfl | ⟨cs, d, hcs⟩ := eq_nil_or_concat cs
  · rw [hfinished c rfl] at h
    exact nomatch h.visible
  · rw [concat_eq_append] at hcs
    subst hcs
    obtain rfl := hfinished d (by rw [← cons_append, getLast?_concat]; rfl)
    have hbreak : ∀ rest, Parted ('\n' :: rest) := fun _ => .cons rfl
    rw [append_assoc, cons_append, h.of_append.append (hbreak _), h.of_append.append (hbreak _)]

theorem lexAt_append_of_scan_eq {token : Token} (htoken : (Token.scan c cs).token = some token)
    (hextra : (Token.scan c cs).extra ≤ cs.length)
    (heq : Token.scan c (cs ++ rest) = Token.scan c cs) :
    lexAt offset (c :: cs ++ rest) = ⟨token, ⟨offset, offset + byteLength (stepText c cs)⟩⟩ ::
      lexAt (offset + byteLength (stepText c cs)) (stepRest c cs ++ rest) := by
  have htext : stepText c (cs ++ rest) = stepText c cs := by
    rw [stepText, heq, take_append_of_le_length hextra, stepText]
  have hrest : stepRest c (cs ++ rest) = stepRest c cs ++ rest := by
    rw [stepRest, heq, drop_append_of_le_length hextra, stepRest]
  rw [cons_append, lexAt_token (heq ▸ htoken), htext, hrest]

/-- **Text after a finished text** without errors does not change how the text is read. -/
theorem lexAt_append (hfinished : Finished cs) (hclean : ∀ l ∈ lexAt offset cs, l.token ≠ .error)
    (rest : List Char) :
    lexAt offset (cs ++ rest) = lexAt offset cs ++ lexAt (offset + byteLength cs) rest := by
  induction offset, cs using lexAt_induction with
  | nil => rfl
  | step offset c cs ih =>
    have hparts := stepText_append_stepRest c cs
    have hlength : byteLength (c :: cs) = byteLength (stepText c cs) +
        byteLength (stepRest c cs) := by
      rw [← hparts, byteLength_append]
    have hfinished' : Finished (stepRest c cs) :=
      Finished.of_append (stepText c cs) (hparts ▸ hfinished)
    cases htoken : (Token.scan c cs).token with
    | none =>
      rw [lexAt_skip htoken] at hclean ⊢
      have hgap := (stepText_skipped htoken).extend (hparts ▸ hfinished) rest
      rw [← hparts, append_assoc, hgap.lexAt_append, ih hfinished' hclean, hparts, hlength,
        Nat.add_assoc]
    | some token =>
      rw [lexAt_token htoken] at hclean ⊢
      obtain ⟨hsound, hclean⟩ := forall_mem_cons.mp hclean
      have hscan : (Token.scan c cs).IsToken := ⟨token, htoken, hsound⟩
      rw [lexAt_append_of_scan_eq htoken hscan.extra_le (hfinished.scan_append hscan rest),
        ih hfinished' hclean, hlength, Nat.add_assoc]
      rfl

end Append

/-! ## Block comments -/

section BlockComments

variable {offset : Nat} {body rest : List Char}

/-- The error token of a block comment goes up to the slash of its end. -/
theorem commentWidth_eq (h : ¬['*', '/'] <:+: body) :
    commentWidth (body ++ '*' :: '/' :: rest) = body.length + 1 := by
  induction body with
  | nil => rfl
  | cons c body ih =>
    have hnext : ∀ cs, c = '*' → body ++ '*' :: '/' :: rest = '/' :: cs → False := by
      rintro cs rfl hcs
      cases body with
      | nil => cases hcs
      | cons d body =>
        obtain rfl : d = '/' := (cons.inj hcs).1
        exact h ⟨[], body, rfl⟩
    rw [cons_append, commentWidth.eq_3 _ _ hnext, ih fun hinfix => h (infix_cons hinfix),
      length_cons]

/-- What is read for a block comment at byte `offset` whose body takes `width` bytes. -/
def commentLexemes (offset width : Nat) : List Lexeme :=
  [⟨.error, ⟨offset, offset + width + 3⟩⟩, ⟨.mark .slash, ⟨offset + width + 3, offset + width + 4⟩⟩]

theorem lexAt_block_comment (h : ¬['*', '/'] <:+: body) :
    lexAt offset ('/' :: '*' :: (body ++ '*' :: '/' :: ' ' :: rest)) =
      commentLexemes offset (byteLength body) ++ lexAt (offset + byteLength body + 5) rest := by
  have hscan : Token.scan '/' ('*' :: (body ++ '*' :: '/' :: ' ' :: rest)) =
      ⟨some .error, body.length + 1 + 1⟩ := by
    rw [← commentWidth_eq h, Nat.add_comm _ 1]
    rfl
  have hparts : body ++ '*' :: '/' :: ' ' :: rest = (body ++ ['*']) ++ '/' :: ' ' :: rest := by simp
  have htext : stepText '/' ('*' :: (body ++ '*' :: '/' :: ' ' :: rest)) =
      '/' :: '*' :: (body ++ ['*']) := by
    rw [stepText, hscan, take_succ_cons, hparts, take_left' (by simp)]
  have hrest : stepRest '/' ('*' :: (body ++ '*' :: '/' :: ' ' :: rest)) = '/' :: ' ' :: rest := by
    rw [stepRest, hscan, drop_succ_cons, hparts, drop_left' (by simp)]
  have hwidth : byteLength ('/' :: '*' :: (body ++ ['*'])) = byteLength body + 3 := by
    rw [byteLength_cons, byteLength_cons, byteLength_append]
    show 1 + (1 + (byteLength body + 1)) = _
    omega
  have hslash : (Token.scan '/' (' ' :: rest)).token = some (.mark .slash) := rfl
  calc lexAt offset ('/' :: '*' :: (body ++ '*' :: '/' :: ' ' :: rest))
      = ⟨.error, ⟨offset, offset + byteLength body + 3⟩⟩ ::
          lexAt (offset + byteLength body + 3) ('/' :: ' ' :: rest) := by
        rw [lexAt_token (by rw [hscan]), htext, hrest, hwidth, ← Nat.add_assoc]
    _ = commentLexemes offset (byteLength body) ++
          lexAt (offset + byteLength body + 4) (' ' :: rest) := by
        rw [lexAt_token hslash]
        rfl
    _ = commentLexemes offset (byteLength body) ++ lexAt (offset + byteLength body + 5) rest := by
        rw [lexAt_blank rfl]
        rfl

end BlockComments

/-- A block comment is not passed over.  After a finished text without errors it is read as an error
token and a slash, where white space alone leaves nothing. -/
theorem lex_block_comment (p q body : String) (finished : p = "" ∨ ∃ lines, p = lines ++ "\n")
    (clean : ∀ l ∈ lex p, l.token ≠ .error) (inside : ¬"*/".toList <:+: body.toList) :
    lex (p ++ "/*" ++ body ++ "*/" ++ " " ++ q) =
        lex p ++ commentLexemes (byteLength p.toList) (byteLength body.toList) ++
          (lex q).map (Lexeme.shifted (byteLength p.toList + byteLength body.toList + 5)) ∧
      lex (p ++ " " ++ q) = lex p ++ (lex q).map (Lexeme.shifted (byteLength p.toList + 1)) := by
  have hfinished : Finished p.toList := by
    obtain rfl | ⟨lines, rfl⟩ := finished
    · exact fun c hc => nomatch hc
    · intro c hc
      rw [String.toList_append, getLast?_append] at hc
      exact (Option.some.inj hc).symm
  have happend : ∀ r : String, lex (p ++ r) = lex p ++ lexAt (byteLength p.toList) r.toList := by
    intro r
    have h := lexAt_append hfinished clean r.toList
    rw [Nat.zero_add, ← String.toList_append] at h
    exact h
  constructor
  · have htext : ("/*" ++ body ++ "*/" ++ " " ++ q).toList =
        '/' :: '*' :: (body.toList ++ '*' :: '/' :: ' ' :: q.toList) := by
      simp [String.toList_append]
    simp only [String.append_assoc] at htext ⊢
    rw [happend, htext, lexAt_block_comment inside, lexAt_eq_shifted, append_assoc]
  · rw [String.append_assoc, happend, String.toList_append]
    show lex p ++ lexAt _ (' ' :: q.toList) = _
    rw [lexAt_blank rfl, lexAt_eq_shifted]
    rfl

theorem lex_block_comment_after_line : lex ("x\n" ++ "/*" ++ " a " ++ "*/" ++ " " ++ "y") =
        lex "x\n" ++ commentLexemes 2 3 ++ (lex "y").map (Lexeme.shifted 10) ∧
      lex ("x\n" ++ " " ++ "y") = lex "x\n" ++ (lex "y").map (Lexeme.shifted 3) :=
  lex_block_comment "x\n" "y" " a " (.inr ⟨"x", rfl⟩) (by decide) (by decide)

/-- A text with a comment does not give the lexemes of the text without it. -/
theorem block_comment_not_skipped : ¬∀ p q body : String,
    (p = "" ∨ ∃ lines, p = lines ++ "\n") → (∀ l ∈ lex p, l.token ≠ .error) →
    ¬"*/".toList <:+: body.toList →
    (lex (p ++ "/*" ++ body ++ "*/" ++ " " ++ q)).map Lexeme.token =
      (lex (p ++ " " ++ q)).map Lexeme.token := by
  intro h
  have hread := h "" "x" " a " (.inl rfl) (by decide) (by decide)
  revert hread
  decide

/-! ## Texts joined by separators -/

/-- White space, and then perhaps a line comment with the line feed that ends it. -/
structure Separator where
  blanks : String
  comment : Option String
  nonempty : blanks ≠ ""
  blank : ∀ c ∈ blanks.toList, isBlank c = true
  inLine : ∀ body ∈ comment, ∀ c ∈ body.toList, isLineBreak c = false

def Separator.text : String :=
  match s.comment with
  | none => s.blanks
  | some body => s.blanks ++ "//" ++ body ++ "\n"

/-- A text that is read alone as a single lexeme. -/
structure SoleLexeme where
  text : String
  token : Token
  sound : token ≠ .error
  reads : lex text = [⟨token, ⟨0, byteLength text.toList⟩⟩]

/-- The texts with a separator between each two of them; `separators` says which stands after the
text at an index. -/
def joined (separators : Nat → Separator) : List SoleLexeme → String
  | [] => ""
  | [t] => t.text
  | t :: next :: ts =>
    t.text ++ (separators 0).text ++ joined (fun i => separators (i + 1)) (next :: ts)

/-- The lexemes of joined texts that begin at byte `offset`, each where its text stands. -/
def placed (separators : Nat → Separator) (offset : Nat) : List SoleLexeme → List Lexeme
  | [] => []
  | t :: ts =>
    let stop := offset + byteLength t.text.toList
    ⟨t.token, ⟨offset, stop⟩⟩ ::
      placed (fun i => separators (i + 1)) (stop + byteLength (separators 0).text.toList) ts

section Joined

variable {offset : Nat} {rest : List Char} (t : SoleLexeme)

theorem Separator.parted : Parted (s.text.toList ++ rest) := by
  have hblanks : s.blanks.toList ≠ [] := fun h => s.nonempty (String.toList_eq_nil_iff.mp h)
  obtain ⟨c, cs, hcs⟩ := exists_cons_of_ne_nil hblanks
  have hc : isBlank c = true := s.blank c (hcs ▸ mem_cons_self)
  unfold Separator.text
  split <;> simp only [String.toList_append, hcs, cons_append] <;> exact .cons hc

theorem Separator.skipped (after : List Char) : Skipped after s.text.toList := by
  have hblanks : ∀ after, Skipped after s.blanks.toList := fun _ => .of_blanks s.blank
  unfold Separator.text
  split
  · exact hblanks after
  · rename_i body hbody
    rw [String.append_assoc, String.append_assoc, String.toList_append]
    refine (hblanks _).append ?_
    rw [String.toList_append, String.toList_append]
    show Skipped after ('/' :: '/' :: (body.toList ++ ['\n']))
    refine .comment (s.inLine body hbody) (fun c hc => ?_) (.blank rfl .nil)
    obtain rfl : '\n' = c := Option.some.inj hc
    rfl

/-- A single lexeme is the first step, and the step takes the whole text. -/
theorem SoleLexeme.scan : ∃ c cs, t.text.toList = c :: cs ∧
    (Token.scan c cs).token = some t.token ∧ stepRest c cs = [] := by
  have hreads : lexAt 0 t.text.toList = [⟨t.token, ⟨0, byteLength t.text.toList⟩⟩] := t.reads
  cases htext : t.text.toList with
  | nil =>
    rw [htext] at hreads
    cases hreads
  | cons c cs =>
    refine ⟨c, cs, rfl, ?_⟩
    have hparts := congrArg byteLength (stepText_append_stepRest c cs)
    rw [byteLength_append] at hparts
    rw [htext] at hreads
    cases htoken : (Token.scan c cs).token with
    | none =>
      -- a gap before the lexeme would move it
      rw [lexAt_skip htoken] at hreads
      have htiled := lexAt_tiled (0 + byteLength (stepText c cs)) (stepRest c cs)
      rw [hreads] at htiled
      have hstart := htiled.start_le _ mem_cons_self
      have hpos := byteLength_pos (stepText_ne_nil c cs)
      dsimp only at hstart
      omega
    | some token =>
      rw [lexAt_token htoken] at hreads
      obtain ⟨hlexeme, -⟩ := cons.inj hreads
      obtain ⟨htoken, hspan⟩ := Lexeme.mk.inj hlexeme
      have hstop := (Span.mk.inj hspan).2
      refine ⟨congrArg some htoken, Decidable.by_contra fun hne => ?_⟩
      have hpos := byteLength_pos hne
      omega

theorem SoleLexeme.lexAt_append (hrest : Parted rest) : lexAt offset (t.text.toList ++ rest) =
      ⟨t.token, ⟨offset, offset + byteLength t.text.toList⟩⟩ ::
        lexAt (offset + byteLength t.text.toList) rest := by
  obtain ⟨c, cs, htext, htoken, hend⟩ := t.scan
  have hsound : (Token.scan c cs).IsToken := ⟨t.token, htoken, t.sound⟩
  have hwhole : stepText c cs = c :: cs := by
    rw [← stepText_append_stepRest c cs, hend, append_nil]
  rw [htext, lexAt_append_of_scan_eq htoken hsound.extra_le (hsound.append hrest), hend, hwhole,
    nil_append]

theorem lexAt_joined {separators : Nat → Separator} {ts : List SoleLexeme} :
    lexAt offset (joined separators ts).toList = placed separators offset ts := by
  induction ts generalizing separators offset with
  | nil => rfl
  | cons t ts ih =>
    cases ts with
    | nil =>
      rw [joined, ← append_nil t.text.toList, t.lexAt_append .nil]
      rfl
    | cons next ts =>
      rw [joined, String.append_assoc, String.toList_append, String.toList_append,
        t.lexAt_append (separators 0).parted, ((separators 0).skipped _).lexAt_append, ih]
      rfl

end Joined

/-- Joined texts are read one by one. -/
theorem lex_joined (separators : Nat → Separator) (ts : List SoleLexeme) :
    lex (joined separators ts) = placed separators 0 ts :=
  lexAt_joined

/-- A name, an operator and a string that looks like a comment. -/
def conditionTexts : List SoleLexeme :=
  [⟨"x", .identifier "x", by decide, by decide⟩, ⟨"==", .mark .equal, by decide, by decide⟩,
    ⟨"\"// a\"", .text "// a", by decide, by decide⟩]

/-- A separator with a comment in which a string seems to begin. -/
def noteSeparator : Separator :=
  ⟨"\t", some " = \"", by decide, by simp [Text.isBlank], by simp [isLineBreak]⟩

theorem lex_joined_condition :
    joined (fun _ => noteSeparator) conditionTexts = "x\t// = \"\n==\t// = \"\n\"// a\"" ∧
      lex (joined (fun _ => noteSeparator) conditionTexts) =
        [⟨.identifier "x", ⟨0, 1⟩⟩, ⟨.mark .equal, ⟨9, 11⟩⟩, ⟨.text "// a", ⟨19, 25⟩⟩] :=
  ⟨by decide, (lex_joined _ _).trans (by decide)⟩

end WichToC
