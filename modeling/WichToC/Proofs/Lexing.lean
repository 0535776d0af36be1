import WichToC.Token.Lexer

/-!
# Lexemes and the text between them

What begins at a place is told by its first character: `ScanForm` says how the reading goes on from
there.  `lexAt` reads a text step by step, and `Tiled` is the picture of a text that was read: it is
cut into the texts of the lexemes and into gaps of white space and line comments.

`lex_covers` is the main statement: the spans of the lexemes stand one after the other between
characters, and every stretch of text outside them is white space and line comments.
-/

namespace WichToC

open List Text

variable (source : String)

/-! ## One step -/

/-- How the reading of a lexeme goes on after its first character. -/
inductive ScanForm (c : Char) : (List Char → Scan) → Prop
  | blank (blank : isBlank c = true) : ScanForm c fun cs => ⟨none, (cs.takeWhile isBlank).length⟩
  | word (start : isNameStart c = true) : ScanForm c (scanWord c)
  | number (digit : c.isDigit = true) : ScanForm c (scanNumber c)
  | string (quote : c = '"') : ScanForm c scanString
  | slash (slash : c = '/') : ScanForm c scanSlash
  | point (point : c = '.') : ScanForm c fun cs =>
      if (cs.head?.map Char.isDigit).getD false then scanFraction [] cs else ⟨some .error, 0⟩
  | pair {second : Char} {long : Mark} {short : Token} (visible : isBlank second = false) :
      ScanForm c fun cs => scanPair cs second long short
  | single {token : Token} : ScanForm c fun _ => ⟨some token, 0⟩

theorem scan_of_isBlank {c : Char} {cs : List Char} (h : isBlank c = true) :
    Token.scan c cs = ⟨none, (cs.takeWhile isBlank).length⟩ :=
  if_pos h

theorem scan_form (c : Char) : ScanForm c (Token.scan c) := by
  by_cases hblank : isBlank c = true
  · rw [show Token.scan c = _ from funext fun _ => scan_of_isBlank hblank]
    exact .blank hblank
  by_cases hstart : isNameStart c = true
  · rw [show Token.scan c = scanWord c from
      funext fun cs => (if_neg hblank).trans (if_pos hstart)]
    exact .word hstart
  by_cases hdigit : c.isDigit = true
  · rw [show Token.scan c = scanNumber c from
      funext fun cs => (if_neg hblank).trans ((if_neg hstart).trans (if_pos hdigit))]
    exact .number hdigit
  delta Token.scan
  simp only [hblank, hstart, hdigit, Bool.false_eq_true, ↓reduceIte]
  split
  case h_1 => exact .string rfl
  case h_2 => exact .slash rfl
  case h_3 => exact .point rfl
  all_goals first | exact .single | exact .pair rfl

/-- The text that a step takes from a text that begins with `c`. -/
def stepText (c : Char) (cs : List Char) : List Char := c :: cs.take (Token.scan c cs).extra

/-- The text after a step. -/
def stepRest (c : Char) (cs : List Char) : List Char := cs.drop (Token.scan c cs).extra

theorem stepText_append_stepRest (c : Char) (cs : List Char) :
    stepText c cs ++ stepRest c cs = c :: cs :=
  congrArg (cons c) (take_append_drop ..)

theorem stepText_ne_nil (c : Char) (cs : List Char) : stepText c cs ≠ [] :=
  cons_ne_nil _ _

theorem length_stepRest_le (c : Char) (cs : List Char) : (stepRest c cs).length ≤ cs.length := by
  rw [stepRest, length_drop]
  omega

/-! ## All steps -/

/-- The lexemes of a text that begins at byte `offset`. -/
def lexAt (offset : Nat) (cs : List Char) : List Lexeme := lexFrom cs.length offset cs

section Steps

variable {offset fuel : Nat} {c : Char} {cs : List Char} {token : Token}

theorem lexFrom_succ : lexFrom (fuel + 1) offset (c :: cs) = (Token.scan c cs).token.toList.map
        (fun token => ⟨token, ⟨offset, offset + byteLength (stepText c cs)⟩⟩) ++
      lexFrom fuel (offset + byteLength (stepText c cs)) (stepRest c cs) := by
  rw [lexFrom]
  cases (Token.scan c cs).token <;> rfl

/-- As many steps as there are characters are enough. -/
theorem lexFrom_eq_lexAt (h : cs.length ≤ fuel) : lexFrom fuel offset cs = lexAt offset cs := by
  suffices hany : ∀ fuel', cs.length ≤ fuel' → lexFrom fuel offset cs = lexFrom fuel' offset cs from
    hany cs.length (Nat.le_refl _)
  induction fuel generalizing cs offset with
  | zero =>
    obtain rfl := length_eq_zero_iff.mp (Nat.le_zero.mp h)
    intro fuel' _
    cases fuel' <;> rfl
  | succ fuel ih =>
    intro fuel' h'
    cases cs with
    | nil => cases fuel' <;> rfl
    | cons c cs =>
      cases fuel' with
      | zero => cases h'
      | succ fuel' =>
        have hrest := length_stepRest_le c cs
        rw [length_cons] at h h'
        rw [lexFrom_succ, lexFrom_succ, ih (by omega) fuel' (by omega)]

theorem lexAt_cons : lexAt offset (c :: cs) = (Token.scan c cs).token.toList.map
        (fun token => ⟨token, ⟨offset, offset + byteLength (stepText c cs)⟩⟩) ++
      lexAt (offset + byteLength (stepText c cs)) (stepRest c cs) := by
  rw [lexAt, length_cons, lexFrom_succ, lexFrom_eq_lexAt (length_stepRest_le c cs)]

theorem lexAt_token (h : (Token.scan c cs).token = some token) :
    lexAt offset (c :: cs) = ⟨token, ⟨offset, offset + byteLength (stepText c cs)⟩⟩ ::
      lexAt (offset + byteLength (stepText c cs)) (stepRest c cs) := by
  rw [lexAt_cons, h]
  rfl

theorem lexAt_skip (h : (Token.scan c cs).token = none) :
    lexAt offset (c :: cs) = lexAt (offset + byteLength (stepText c cs)) (stepRest c cs) := by
  rw [lexAt_cons, h]
  rfl

/-- **Induction over the steps of reading.** -/
theorem lexAt_induction {P : Nat → List Char → Prop} (nil : ∀ offset, P offset [])
    (step : ∀ offset c cs, P (offset + byteLength (stepText c cs)) (stepRest c cs) →
      P offset (c :: cs))
    (offset : Nat) (cs : List Char) : P offset cs := by
  induction hn : cs.length using Nat.strongRecOn generalizing offset cs with
  | ind n ih =>
    cases cs with
    | nil => exact nil offset
    | cons c cs =>
      rw [length_cons] at hn
      have hrest := length_stepRest_le c cs
      exact step offset c cs (ih _ (by omega) _ _ rfl)

end Steps

/-! ## Gaps -/

/-- Whether a character ends a line comment. -/
def isLineBreak (c : Char) : Bool := c = '\r' || c = '\n'

theorem inLine_eq : (fun c => c != '\r' && c != '\n') = fun c => !isLineBreak c :=
  funext fun _ => (Bool.not_or ..).symm

/-- A text of white space and line comments that stands before the text `after`.  A comment goes on
up to the end of its line. -/
inductive Skipped (after : List Char) : List Char → Prop
  | nil : Skipped after []
  | blank {c : Char} {cs : List Char} (blank : isBlank c = true) (rest : Skipped after cs) :
      Skipped after (c :: cs)
  | comment {body cs : List Char} (inLine : ∀ c ∈ body, isLineBreak c = false)
      (ends : ∀ c ∈ (cs ++ after).head?, isLineBreak c = true) (rest : Skipped after cs) :
      Skipped after ('/' :: '/' :: (body ++ cs))

section Gaps

variable {offset : Nat} {c : Char} {cs after gap gap' : List Char} (p : Char → Bool)

theorem Skipped.of_blanks (h : ∀ c ∈ gap, isBlank c = true) : Skipped after gap := by
  induction gap with
  | nil => exact .nil
  | cons c gap ih =>
    obtain ⟨hc, hgap⟩ := forall_mem_cons.mp h
    exact .blank hc (ih hgap)

theorem Skipped.append (h : Skipped (gap' ++ after) gap) (h' : Skipped after gap') :
    Skipped after (gap ++ gap') := by
  induction h with
  | nil => exact h'
  | blank blank _ ih => exact .blank blank ih
  | comment inLine ends _ ih =>
    rw [cons_append, cons_append, append_assoc]
    exact .comment inLine (by rwa [append_assoc]) ih

theorem take_length_takeWhile : cs.take (cs.takeWhile p).length = cs.takeWhile p := by
  have h : cs.takeWhile p <+: cs := takeWhile_prefix p
  exact (prefix_iff_eq_take.mp h).symm

theorem drop_length_takeWhile : cs.drop (cs.takeWhile p).length = cs.dropWhile p := by
  calc cs.drop (cs.takeWhile p).length
      = (cs.takeWhile p ++ cs.dropWhile p).drop (cs.takeWhile p).length := by
        rw [takeWhile_append_dropWhile]
    _ = cs.dropWhile p := drop_left

theorem scanFraction_isSome (whole cs : List Char) :
    (scanFraction whole cs).token.isSome = true := by
  unfold scanFraction
  dsimp only
  split <;> rfl

/-- What a step skips is white space or a comment. -/
theorem stepText_skipped (h : (Token.scan c cs).token = none) :
    Skipped (stepRest c cs) (stepText c cs) := by
  unfold stepRest stepText
  have hform := scan_form c
  generalize Token.scan c = scan at hform h ⊢
  cases hform with
  | blank blank =>
    refine .of_blanks (forall_mem_cons.mpr ⟨blank, fun d hd => ?_⟩)
    rw [take_length_takeWhile] at hd
    exact all_eq_true.mp all_takeWhile d hd
  | slash slash =>
    unfold scanSlash at h ⊢
    split at h
    · rename_i body
      dsimp only
      rw [slash, Nat.add_comm 1, take_succ_cons, drop_succ_cons, take_length_takeWhile,
        drop_length_takeWhile, inLine_eq, ← append_nil (body.takeWhile _)]
      refine .comment (fun d hd => ?_) (fun d hd => ?_) .nil
      · exact Bool.not_eq_true' _ ▸ all_eq_true.mp all_takeWhile d hd
      · have hnext := head?_dropWhile_not (fun c => !isLineBreak c) body
        grind
    · cases h
    · cases h
  | word =>
    unfold scanWord at h
    dsimp only at h
    split at h <;> cases h
  | number =>
    unfold scanNumber at h
    dsimp only at h
    split at h
    · cases (scanFraction_isSome _ _).symm.trans (congrArg Option.isSome h)
    · cases h
  | string =>
    unfold scanString at h
    split at h <;> cases h
  | point =>
    dsimp only at h
    split at h
    · cases (scanFraction_isSome _ _).symm.trans (congrArg Option.isSome h)
    · cases h
  | pair =>
    dsimp only [scanPair] at h
    split at h <;> cases h
  | single => cases h

end Gaps

/-! ## The picture of a text that was read -/

/-- A text that begins at byte `offset`, cut into gaps and the texts of lexemes. -/
inductive Tiled : Nat → List Char → List Lexeme → Prop
  | done {offset : Nat} : Tiled offset [] []
  | gap {offset : Nat} {gap rest : List Char} {lexemes : List Lexeme} (skipped : Skipped rest gap)
      (next : Tiled (offset + byteLength gap) rest lexemes) : Tiled offset (gap ++ rest) lexemes
  | lexeme {offset : Nat} {text rest : List Char} {token : Token} {lexemes : List Lexeme}
      (visible : text ≠ []) (next : Tiled (offset + byteLength text) rest lexemes) :
      Tiled offset (text ++ rest) (⟨token, ⟨offset, offset + byteLength text⟩⟩ :: lexemes)

theorem lexAt_tiled (offset : Nat) (cs : List Char) : Tiled offset cs (lexAt offset cs) := by
  induction offset, cs using lexAt_induction with
  | nil offset => exact .done
  | step offset c cs ih =>
    cases htoken : (Token.scan c cs).token with
    | none =>
      have htiled := Tiled.gap (stepText_skipped htoken) ih
      rwa [stepText_append_stepRest, ← lexAt_skip htoken] at htiled
    | some token =>
      rw [lexAt_token htoken, ← stepText_append_stepRest c cs]
      exact .lexeme (stepText_ne_nil c cs) ih

/-- A byte offset between two characters of a text, or at one of its ends. -/
def IsBoundary (cs : List Char) (n : Nat) : Prop :=
  ∃ before after, cs = before ++ after ∧ byteLength before = n

/-- The byte at `i` belongs to the span. -/
def Span.Covers (s : Span) (i : Nat) : Prop := s.start ≤ i ∧ i < s.stop

/-- The bytes from `lo` up to `hi` of a text from `start` to `stop` belong to no span, and the
stretch cannot be made longer on either side. -/
structure Uncovered (start stop : Nat) (spans : List Span) (lo hi : Nat) : Prop where
  proper : lo < hi
  start_le : start ≤ lo
  le_stop : hi ≤ stop
  free : ∀ i, lo ≤ i → i < hi → ∀ s ∈ spans, ¬s.Covers i
  left : lo = start ∨ ∃ s ∈ spans, s.Covers (lo - 1)
  right : hi = stop ∨ ∃ s ∈ spans, s.Covers hi

/-- The spans stand in a text one after the other, each from one character to another, and what none
of them covers is white space and line comments. -/
structure CoversText (cs : List Char) (spans : List Span) : Prop where
  nonempty : ∀ s ∈ spans, s.start < s.stop
  inside : ∀ s ∈ spans, s.stop ≤ byteLength cs
  ordered : spans.Pairwise fun a b => a.stop ≤ b.start
  boundaries : ∀ s ∈ spans, IsBoundary cs s.start ∧ IsBoundary cs s.stop
  gaps : ∀ lo hi, Uncovered 0 (byteLength cs) spans lo hi →
    ∃ before gap after, cs = before ++ gap ++ after ∧ byteLength before = lo ∧
      byteLength (before ++ gap) = hi ∧ Skipped after gap

theorem byteLength_pos {cs : List Char} (h : cs ≠ []) : 0 < byteLength cs := by
  obtain ⟨c, cs, rfl⟩ := exists_cons_of_ne_nil h
  have := c.utf8Size_pos
  rw [byteLength_cons]
  omega

namespace Uncovered

variable {start mid stop lo hi : Nat} {spans : List Span}

/-- A stretch that does not begin with the text begins after a span. -/
theorem begins (h : Uncovered start stop spans lo hi) (hspans : ∀ s ∈ spans, mid ≤ s.start) :
    lo = start ∨ Uncovered mid stop spans lo hi := by
  refine h.left.imp_right fun ⟨s, hs, hcovers⟩ =>
    { h with start_le := ?_, left := .inr ⟨s, hs, hcovers⟩ }
  exact Nat.le_trans (Nat.le_trans (hspans s hs) hcovers.1) (Nat.sub_le ..)

/-- A stretch that begins with the text ends at or after the place where the spans begin. -/
theorem after_gap (h : Uncovered start stop spans start hi) (hspans : ∀ s ∈ spans, mid ≤ s.start)
    (hmid : start ≤ mid) (hstop : mid ≤ stop) : mid = hi ∨ Uncovered mid stop spans mid hi := by
  have hend : mid ≤ hi := by
    obtain rfl | ⟨s, hs, hcovers⟩ := h.right
    · exact hstop
    · exact Nat.le_trans (hspans s hs) hcovers.1
  refine (Nat.eq_or_lt_of_le hend).imp_right fun hlt => ?_
  exact { h with
    proper := hlt
    start_le := Nat.le_refl _
    free := fun i hi => h.free i (Nat.le_trans hmid hi)
    left := .inl rfl }

/-- A stretch in a text that begins with a span lies after the span. -/
theorem after_span {n : Nat} (h : Uncovered start stop (⟨start, start + n⟩ :: spans) lo hi)
    (hn : 0 < n) : Uncovered (start + n) stop spans lo hi := by
  obtain ⟨hfirst, hfree⟩ := forall_mem_cons.mp (h.free lo (Nat.le_refl _) h.proper)
  have hlo : start + n ≤ lo := Nat.le_of_not_lt fun hlt => hfirst ⟨h.start_le, hlt⟩
  have hproper := h.proper
  exact {
    proper := hproper
    start_le := hlo
    le_stop := h.le_stop
    free := fun i hi hi' => (forall_mem_cons.mp (h.free i hi hi')).2
    left := by
      obtain rfl | ⟨s, hs, hcovers⟩ := h.left
      · omega
      · obtain rfl | hs := mem_cons.mp hs
        · have hlt : lo - 1 < start + n := hcovers.2
          exact .inl (by omega)
        · exact .inr ⟨s, hs, hcovers⟩
    right := by
      refine h.right.imp_right fun ⟨s, hs, hcovers⟩ => ?_
      obtain rfl | hs := mem_cons.mp hs
      · have hlt : hi < start + n := hcovers.2
        omega
      · exact ⟨s, hs, hcovers⟩ }

end Uncovered

namespace Tiled

variable {offset : Nat} {cs : List Char} {lexemes : List Lexeme}

section

variable (h : Tiled offset cs lexemes)

include h

theorem start_le : ∀ l ∈ lexemes, offset ≤ l.span.start := by
  induction h with
  | done => exact nofun
  | gap _ _ ih => grind
  | lexeme _ _ ih => grind

theorem nonempty : ∀ l ∈ lexemes, l.span.start < l.span.stop := by
  induction h with
  | done => exact nofun
  | gap _ _ ih => exact ih
  | lexeme visible _ ih =>
    exact forall_mem_cons.mpr ⟨Nat.lt_add_of_pos_right (byteLength_pos visible), ih⟩

theorem ordered : lexemes.Pairwise fun a b => a.span.stop ≤ b.span.start := by
  induction h with
  | done => exact .nil
  | gap _ _ ih => exact ih
  | lexeme _ next ih => exact .cons next.start_le ih

/-- Both ends of every lexeme lie between characters, counted from the beginning of the text. -/
theorem boundaries : ∀ l ∈ lexemes, (∃ n, IsBoundary cs n ∧ l.span.start = offset + n) ∧
      ∃ n, IsBoundary cs n ∧ l.span.stop = offset + n := by
  -- a boundary of the rest is one of the whole, further on
  have hshift : ∀ {offset m : Nat} {text rest : List Char},
      (∃ n, IsBoundary rest n ∧ m = offset + byteLength text + n) →
      ∃ n, IsBoundary (text ++ rest) n ∧ m = offset + n := by
    rintro offset m text rest ⟨n, ⟨before, after, rfl, rfl⟩, rfl⟩
    exact ⟨_, ⟨text ++ before, after, by rw [append_assoc], rfl⟩,
      by rw [byteLength_append, Nat.add_assoc]⟩
  induction h with
  | done => exact nofun
  | gap _ _ ih => exact fun l hl => (ih l hl).imp hshift hshift
  | lexeme _ _ ih =>
    refine forall_mem_cons.mpr ⟨⟨?_, ?_⟩, fun l hl => (ih l hl).imp hshift hshift⟩
    · exact ⟨0, ⟨[], _, rfl, rfl⟩, rfl⟩
    · exact ⟨_, ⟨_, _, rfl, rfl⟩, rfl⟩

/-- **What no lexeme covers is skipped.** -/
theorem gaps {lo hi : Nat}
    (hfree : Uncovered offset (offset + byteLength cs) (lexemes.map Lexeme.span) lo hi) :
    ∃ before gap after, cs = before ++ gap ++ after ∧ offset + byteLength before = lo ∧
      lo + byteLength gap = hi ∧ Skipped after gap := by
  induction h generalizing lo with
  | done =>
    have hproper := hfree.proper
    have hstop := hfree.le_stop
    have hstart := hfree.start_le
    rw [byteLength_nil] at hstop
    omega
  | @gap offset gap rest lexemes skipped next ih =>
    rw [byteLength_append, ← Nat.add_assoc] at hfree
    have hspans : ∀ s ∈ lexemes.map Lexeme.span, offset + byteLength gap ≤ s.start :=
      forall_mem_map.mpr next.start_le
    obtain rfl | hlo := hfree.begins hspans
    · -- the stretch begins with the gap, and may go on after it
      obtain rfl | hrest := hfree.after_gap hspans (Nat.le_add_right ..)
        (Nat.le_add_right ..)
      · exact ⟨[], gap, rest, rfl, rfl, rfl, skipped⟩
      · obtain ⟨before, gap', after, rfl, hbefore, hgap', hskipped⟩ := ih hrest
        obtain rfl : before = [] := Decidable.by_contra fun hne => by
          have := byteLength_pos hne
          omega
        refine ⟨[], gap ++ gap', after, (append_assoc ..).symm, rfl, ?_, skipped.append hskipped⟩
        rw [byteLength_append, ← Nat.add_assoc, hgap']
    · obtain ⟨before, gap', after, rfl, hbefore, hgap', hskipped⟩ := ih hlo
      refine ⟨gap ++ before, gap', after, by simp only [append_assoc], ?_, hgap', hskipped⟩
      rw [byteLength_append, ← Nat.add_assoc, hbefore]
  | @lexeme offset text rest token lexemes visible next ih =>
    rw [byteLength_append, ← Nat.add_assoc] at hfree
    obtain ⟨before, gap, after, rfl, hbefore, hgap, hskipped⟩ :=
      ih (hfree.after_span (byteLength_pos visible))
    refine ⟨text ++ before, gap, after, by simp only [append_assoc], ?_, hgap, hskipped⟩
    rw [byteLength_append, ← Nat.add_assoc, hbefore]

end

end Tiled

theorem IsBoundary.le {cs : List Char} {n : Nat} (h : IsBoundary cs n) : n ≤ byteLength cs := by
  obtain ⟨before, after, rfl, rfl⟩ := h
  rw [byteLength_append]
  exact Nat.le_add_right ..

theorem lex_tiled : Tiled 0 source.toList (lex source) :=
  lexAt_tiled 0 source.toList

theorem lex_boundaries : ∀ l ∈ lex source,
    IsBoundary source.toList l.span.start ∧ IsBoundary source.toList l.span.stop := by
  intro l hl
  obtain ⟨⟨n, hn, hstart⟩, m, hm, hstop⟩ := (lex_tiled source).boundaries l hl
  rw [Nat.zero_add] at hstart hstop
  exact ⟨hstart ▸ hn, hstop ▸ hm⟩

/-- The lexemes of every text stand in it one after the other, and the text between them is white
space and line comments. -/
theorem lex_covers : CoversText source.toList ((lex source).map Lexeme.span) := by
  have htiled := lex_tiled source
  have hboundaries := lex_boundaries source
  refine
    { nonempty := forall_mem_map.mpr htiled.nonempty
      inside := forall_mem_map.mpr fun l hl => (hboundaries l hl).2.le
      ordered := pairwise_map.mpr htiled.ordered
      boundaries := forall_mem_map.mpr hboundaries
      gaps := fun lo hi houter => ?_ }
  rw [← Nat.zero_add (byteLength _)] at houter
  obtain ⟨before, gap, after, hcs, hlo, hhi, hskipped⟩ := htiled.gaps houter
  rw [Nat.zero_add] at hlo
  exact ⟨before, gap, after, hcs, hlo, by rw [byteLength_append, hlo, hhi], hskipped⟩

end WichToC
