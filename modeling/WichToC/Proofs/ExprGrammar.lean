import WichToC.Proofs.Places
import WichToC.Proofs.Spelling

/-!
# The tokens of an expression

A step of reading takes the tokens between the place where it begins and the place where it ends.
`Reading.TakesAt` says how these tokens belong to the value that the step yields, and goes through
the steps one by one.  Nothing is taken that the value does not account for: what is read as an
expression is spelled by the tokens that were taken for it (`Reading.expr_takes`).

The loops over operators and indices hold an expression together with the tokens taken so far.  At
an operator, what the loop holds is spelled at the level of this operator: the loop that ended
before took everything that binds more tightly.
-/

namespace WichToC

open List Cursor Reading Operator

variable {e : Expr} {ts : List Token}
variable {next : Cursor} {m : Mark} {what : String} {level level' least : Nat}

/-! ## Tokens ahead -/

/-- The tokens that are still to be read. -/
def Cursor.tokens (c : Cursor) : List Token := c.rest.map Lexeme.token

namespace Cursor

variable {c : Cursor} {t t' : Token} {ts : List Token}

theorem length_rest : c.rest.length = c.tokens.length := by
  rw [tokens, length_map]

theorem token?_eq (c : Cursor) : c.token? = c.tokens.head? := by
  rw [token?, tokens, head?_map]

theorem nextToken?_eq : c.nextToken? = c.tokens[1]? := by
  rw [nextToken?, tokens, getElem?_map]

theorem tokens_advance : c.advance.tokens = c.tokens.tail := by
  unfold advance tokens
  split <;> simp [*]

theorem token?_of_cons (h : c.tokens = t :: ts) : c.token? = some t := by
  rw [token?_eq, h, head?_cons]

theorem advance_of_cons (h : c.tokens = t :: ts) : c.advance.tokens = ts := by
  rw [tokens_advance, h, tail_cons]

theorem isEmpty_of_cons (h : c.tokens = t :: ts) : c.rest.isEmpty = false := by
  rw [isEmpty_eq_false_iff_exists_mem]
  unfold tokens at h
  cases hrest : c.rest with
  | nil => simp [hrest] at h
  | cons lexeme rest => exact ⟨lexeme, .head _⟩

theorem token?_advance : c.advance.token? = c.nextToken? := by
  rw [token?_eq, nextToken?_eq, tokens_advance, head?_tail]

/-- The present token is the first of those ahead. -/
theorem tokens_of_token? (h : c.token? = some t) : c.tokens = t :: c.advance.tokens := by
  rw [token?_eq, head?_eq_some_iff] at h
  obtain ⟨rest, hrest⟩ := h
  rw [advance_of_cons hrest, hrest]

end Cursor

/-- Every fault of form is reported as an error. -/
theorem SyntaxFault.isError_diagnostic {fault : SyntaxFault} {span : Span} :
    (fault.diagnostic span).isError := rfl

/-! ## Steps -/

namespace Reading

variable {α β : Type} {c : Cursor}

/-- A step of reading from one place reaches another and takes tokens that stand in the relation `R`
to the value that it yields and to the place where it ends; it fails only with errors, and at the
place that it has reached. -/
def TakesAt (p : Reading α) (c : Cursor) (R : α → List Token → Cursor → Prop) : Prop :=
  match p c with
  | .ok a next => c.Reaches next ∧ ∃ ts, c.tokens = ts ++ next.tokens ∧ R a ts next
  | .fail fault next => c.Reaches next ∧ fault.span = some next.here ∧ fault.isError

namespace TakesAt

variable {R : α → List Token → Cursor → Prop} {Q : β → List Token → Cursor → Prop}
  {p : Reading α} {f : α → Reading β}

theorem of_ok {a : α} (h : p.TakesAt c R) (hread : p c = .ok a next) :
    c.Reaches next ∧ ∃ ts, c.tokens = ts ++ next.tokens ∧ R a ts next := by
  rwa [TakesAt, hread] at h

theorem of_fail {fault : Diagnostic} (h : p.TakesAt c R) (hread : p c = .fail fault next) :
    c.Reaches next ∧ fault.span = some next.here ∧ fault.isError := by
  rwa [TakesAt, hread] at h

theorem mono {R' : α → List Token → Cursor → Prop} (h : p.TakesAt c R)
    (himp : ∀ a ts next, R a ts next → R' a ts next) : p.TakesAt c R' := by
  unfold TakesAt
  split <;> rename_i hread
  · obtain ⟨hnext, ts, htokens, hr⟩ := h.of_ok hread
    exact ⟨hnext, ts, htokens, himp _ _ _ hr⟩
  · exact h.of_fail hread

theorem pure {a : α} (h : R a [] c) : TakesAt (Pure.pure a) c R :=
  ⟨.refl c, [], rfl, h⟩

theorem fail (fault : SyntaxFault) : TakesAt (fail fault) c R :=
  ⟨.refl c, rfl, SyntaxFault.isError_diagnostic⟩

/-- One step after the other; the second begins where the first ended. -/
theorem bind (hp : p.TakesAt c R) (hf : ∀ a ts next, R a ts next →
      (f a).TakesAt next fun b ts' last => Q b (ts ++ ts') last) :
    TakesAt (p >>= f) c Q := by
  show TakesAt (Reading.bind p f) c Q
  unfold TakesAt Reading.bind
  cases hread : p c with
  | fail fault next => exact hp.of_fail hread
  | ok a next =>
    obtain ⟨hnext, ts, htokens, hr⟩ := hp.of_ok hread
    dsimp only
    have hrest := hf a ts next hr
    unfold TakesAt at hrest
    split at hrest
    · obtain ⟨hlast, ts', htokens', hq⟩ := hrest
      exact ⟨hnext.trans hlast, ts ++ ts', by rw [htokens, htokens', append_assoc], hq⟩
    · exact ⟨hnext.trans hrest.1, hrest.2⟩

theorem ite {q q' : Reading α} {b : Prop} [Decidable b] (hq : b → q.TakesAt c R)
    (hq' : ¬b → q'.TakesAt c R) : TakesAt (if b then q else q') c R := by grind

/-! Steps that take at most one token, with what follows them. -/

theorem cursor {f : Cursor → Reading β} (hf : (f c).TakesAt c Q) : TakesAt (cursor >>= f) c Q :=
  hf

theorem spanFrom {f : Span → Reading β} {start : Nat} (hf : ∀ span, (f span).TakesAt c Q) :
    TakesAt (spanFrom start >>= f) c Q :=
  hf _

theorem advance {t : Token} {f : Unit → Reading β} (ht : c.token? = some t)
    (hf : (f ()).TakesAt c.advance fun b ts last => Q b (t :: ts) last) :
    TakesAt (Reading.advance >>= f) c Q := by
  have hone : TakesAt Reading.advance c fun _ ts last => ts = [t] ∧ last = c.advance :=
    ⟨c.reaches_advance, [t], tokens_of_token? ht, rfl, rfl⟩
  refine hone.bind ?_
  rintro ⟨⟩ _ _ ⟨rfl, rfl⟩
  exact hf

theorem matchMark {f : Bool → Reading β} (hthere : c.token? = some (.mark m) →
      (f true).TakesAt c.advance fun b ts last => Q b (.mark m :: ts) last)
    (hother : c.token? ≠ some (.mark m) → (f false).TakesAt c Q) :
    TakesAt (matchMark m >>= f) c Q := by
  by_cases h : c.token? = some (.mark m)
  · have hone : TakesAt (Reading.matchMark m) c fun b ts last =>
        b = true ∧ ts = [.mark m] ∧ last = c.advance := by
      unfold TakesAt Reading.matchMark
      simpa [isAtMark, h] using ⟨c.reaches_advance, tokens_of_token? h⟩
    refine hone.bind ?_
    grind
  · have hnone : TakesAt (Reading.matchMark m) c fun b ts last =>
        b = false ∧ ts = [] ∧ last = c := by
      unfold TakesAt Reading.matchMark
      simpa [isAtMark, h] using Reaches.refl c
    refine hnone.bind ?_
    rintro _ _ _ ⟨rfl, rfl, rfl⟩
    exact hother h

theorem expectMark {f : Unit → Reading β}
    (hf : (f ()).TakesAt c.advance fun b ts last => Q b (.mark m :: ts) last) :
    TakesAt (Reading.expectMark m what >>= f) c Q := by
  have hone : TakesAt (Reading.expectMark m what) c fun _ ts last =>
      ts = [.mark m] ∧ last = c.advance := by
    unfold TakesAt Reading.expectMark
    by_cases h : c.token? = some (.mark m)
    · simpa [isAtMark, h] using ⟨c.reaches_advance, tokens_of_token? h⟩
    · rw [if_neg (by simpa [isAtMark] using h)]
      exact ⟨.refl c, rfl, SyntaxFault.isError_diagnostic⟩
  refine hone.bind ?_
  rintro _ _ _ ⟨rfl, rfl⟩
  exact hf

theorem expectWord {w : Keyword} {f : Unit → Reading β}
    (hf : (f ()).TakesAt c.advance fun b ts last => Q b (.keyword w :: ts) last) :
    TakesAt (Reading.expectWord w what >>= f) c Q := by
  have hone : TakesAt (Reading.expectWord w what) c fun _ ts last =>
      ts = [.keyword w] ∧ last = c.advance := by
    unfold TakesAt Reading.expectWord
    by_cases h : c.token? = some (.keyword w)
    · simpa [isAtWord, h] using ⟨c.reaches_advance, tokens_of_token? h⟩
    · rw [if_neg (by simpa [isAtWord] using h)]
      exact ⟨.refl c, rfl, SyntaxFault.isError_diagnostic⟩
  refine hone.bind ?_
  rintro _ _ _ ⟨rfl, rfl⟩
  exact hf

theorem identifier {f : String → Reading β}
    (hf : ∀ name, (f name).TakesAt c.advance fun b ts last => Q b (.identifier name :: ts) last) :
    TakesAt (identifier >>= f) c Q := by
  have hone : TakesAt Reading.identifier c fun name ts last =>
      ts = [.identifier name] ∧ last = c.advance := by
    unfold TakesAt Reading.identifier
    split <;> rename_i h <;> split at h <;> cases h
    · exact ⟨c.reaches_advance, _, tokens_of_token? ‹_›, rfl, rfl⟩
    · exact ⟨.refl c, rfl, SyntaxFault.isError_diagnostic⟩
  refine hone.bind ?_
  rintro _ _ _ ⟨rfl, rfl⟩
  exact hf _

end TakesAt

end Reading

/-! ## Levels -/

/-- What is spelled at a level is spelled at all lower ones. -/
theorem Annotated.Spelled.mono
    (h : e.Spelled level ts) (hle : level' ≤ level) : e.Spelled level' ts := by
  cases h with
  | parens inner => exact .parens inner
  | atom token => exact .atom token
  | call args => exact .call args
  | vector elements => exact .vector elements
  | len operand => exact .len operand
  | index target index => exact .index target index
  | negate fits operand => exact .negate (Nat.le_trans hle fits) operand
  | not fits operand => exact .not (Nat.le_trans hle fits) operand
  | binary fits left right => exact .binary (Nat.le_trans hle fits) left right

/-- No expression is spelled by nothing. -/
theorem Annotated.Spelled.ne_nil (h : e.Spelled level ts) : ts ≠ [] := by
  cases h <;> simp [inParens, inBrackets]

theorem Operator.token_of_ofToken? {t : Token} {op : Operator} (h : ofToken? t = some op) :
    t = op.token := by
  unfold ofToken? at h
  split at h <;> cases h <;> rfl

theorem Operator.precedence_lt_signLevel (op : Operator) : op.precedence < signLevel := by
  cases op <;> decide

/-- Expressions with commas between them. -/
def SpelledList (es : List Expr) (ts : List Token) : Prop :=
  ∃ parts : List (Expr × List Token), es = parts.map Prod.fst ∧ ts = commas (parts.map Prod.snd) ∧
    ∀ p ∈ parts, p.1.Spelled 0 p.2

theorem SpelledList.nil : SpelledList [] [] :=
  ⟨[], rfl, rfl, by simp⟩

theorem SpelledList.single (h : e.Spelled 0 ts) : SpelledList [e] ts :=
  ⟨[(e, ts)], rfl, rfl, by simpa using h⟩

theorem SpelledList.cons {es : List Expr} {ts' : List Token} (h : e.Spelled 0 ts)
    (hes : SpelledList es ts') (hne : es ≠ []) :
    SpelledList (e :: es) (ts ++ .mark .comma :: ts') := by
  obtain ⟨parts, rfl, rfl, hparts⟩ := hes
  refine ⟨(e, ts) :: parts, rfl, ?_, forall_mem_cons.mpr ⟨h, hparts⟩⟩
  cases parts with
  | nil => exact absurd rfl hne
  | cons p parts => rfl

namespace Reading

/-! ## Readers of expressions -/

/-- At the place `c` an operator that comes next binds less tightly than `least`. -/
def StopsBelow (least : Nat) (c : Cursor) : Prop :=
  ∀ op ∈ c.token?.bind ofToken?, op.precedence < least

/-- The tokens that were taken for an expression at a level, up to the place `last`. -/
structure Taken (level : Nat) (e : Expr) (ts : List Token) (last : Cursor) : Prop where
  spelled : e.Spelled level ts
  /-- A name that stands alone is not the name of a call. -/
  name : ∀ n, ts = [.identifier n] → last.token? ≠ some (.mark .leftParen)

namespace Taken

variable {level : Nat} {e : Expr} {t : Token} {ts ts' : List Token} {last : Cursor}

theorem mono (h : Taken level e ts last) (hle : level' ≤ level) : Taken level' e ts last :=
  ⟨h.spelled.mono hle, h.name⟩

/-- Tokens that begin with no name. -/
theorem of_head (h : e.Spelled level (t :: ts)) (ht : ∀ n, t ≠ .identifier n) :
    Taken level e (t :: ts) last :=
  ⟨h, fun n heq => absurd (cons.inj heq).1 (ht n)⟩

/-- More than one token. -/
theorem of_tail (h : e.Spelled level (t :: ts)) (hts : ts ≠ []) : Taken level e (t :: ts) last :=
  ⟨h, fun _ heq => absurd (cons.inj heq).2 hts⟩

/-- Tokens that go on with a mark. -/
theorem of_append (h : e.Spelled level (ts ++ .mark m :: ts')) :
    Taken level e (ts ++ .mark m :: ts') last := by
  refine ⟨h, fun n heq => ?_⟩
  rcases append_eq_singleton_iff.mp heq with ⟨-, heq⟩ | ⟨-, heq⟩
  · cases heq
  · cases heq

end Taken

/-- What all readers of expressions take, for one amount of fuel. -/
structure ExprReaders (fuel : Nat) : Prop where
  binary : ∀ least c, least ≤ signLevel → (binary fuel least).TakesAt c fun e ts last =>
    Taken least e ts last ∧ StopsBelow least last
  /-- The loop over operators holds `left`, for which `ts` were taken. -/
  operators : ∀ least left ts c, Taken least left ts c →
    (∀ op ∈ c.token?.bind ofToken?, left.Spelled op.precedence ts) →
      (operators fuel least left).TakesAt c fun e ts' last =>
        Taken least e (ts ++ ts') last ∧ StopsBelow least last
  unary : ∀ c, (unary fuel).TakesAt c (Taken signLevel)
  /-- The loop over indices holds `target`, for which `ts` were taken. -/
  indices : ∀ target ts c, Taken indexLevel target ts c →
    (indices fuel target).TakesAt c fun e ts' last => Taken indexLevel e (ts ++ ts') last
  primary : ∀ c, (primary fuel).TakesAt c (Taken indexLevel)
  list : ∀ close c, (list fuel close).TakesAt c fun es ts _ => SpelledList es ts
  items : ∀ c, (items fuel).TakesAt c fun es ts _ => SpelledList es ts ∧ es ≠ []

namespace ExprReaders

variable {fuel : Nat}

section

variable (h : ExprReaders fuel)

include h

theorem binary_succ (c : Cursor) (hleast : least ≤ signLevel) :
    (Reading.binary (fuel + 1) least).TakesAt c fun e ts last =>
      Taken least e ts last ∧ StopsBelow least last := by
  unfold Reading.binary
  refine (h.unary c).bind fun left ts next hl => ?_
  exact h.operators least left ts next (hl.mono hleast) fun op _ =>
    hl.spelled.mono (Nat.le_of_lt op.precedence_lt_signLevel)

theorem operators_succ {left : Expr} (c : Cursor) (hl : Taken least left ts c)
    (hat : ∀ op ∈ c.token?.bind ofToken?, left.Spelled op.precedence ts) :
    (Reading.operators (fuel + 1) least left).TakesAt c fun e ts' last =>
      Taken least e (ts ++ ts') last ∧ StopsBelow least last := by
  unfold Reading.operators
  refine .cursor ?_
  split
  case h_1 hnone =>
    refine .pure ⟨by rwa [append_nil], fun op hop => ?_⟩
    rw [hnone] at hop
    cases hop
  case h_2 op hop =>
    refine .ite (fun hlt => .pure ⟨by rwa [append_nil], fun op' hop' => ?_⟩) fun hge => ?_
    · grind
    obtain ⟨t, ht, hofToken⟩ := Option.bind_eq_some_iff.mp hop
    obtain rfl := token_of_ofToken? hofToken
    obtain ⟨m, hm⟩ : ∃ m, op.token = .mark m := by cases op <;> exact ⟨_, rfl⟩
    refine .advance ht ?_
    refine (h.binary (op.precedence + 1) _ op.precedence_lt_signLevel).bind ?_
    rintro right ts' next ⟨hr, hstops⟩
    -- the right operand took all operators that bind more tightly than this one
    have hnew : ∀ level ≤ op.precedence, Annotated.Spelled level
        ⟨.binary left op right, ⟨left.span.start, right.span.stop⟩, none, none⟩
        (ts ++ op.token :: ts') := by
      intro level hlevel
      exact .binary hlevel (hat op hop) hr.spelled
    rw [hm] at hnew ⊢
    refine (h.operators least _ _ next (.of_append (hnew least (by omega))) fun op' hop' =>
      hnew _ (Nat.lt_succ_iff.mp (hstops op' hop'))).mono fun e ts'' last he => ?_
    rwa [append_assoc, cons_append] at he

theorem unary_succ (c : Cursor) : (Reading.unary (fuel + 1)).TakesAt c (Taken signLevel) := by
  unfold Reading.unary
  refine .cursor (.matchMark (fun _ => ?_) fun _ => .matchMark (fun _ => ?_) fun _ => ?_)
  · refine (h.unary _).bind fun operand ts _ ho => .spanFrom fun span => .pure ?_
    rw [append_nil]
    exact .of_head (.negate (Nat.le_refl _) ho.spelled) (by simp)
  · refine (h.unary _).bind fun operand ts _ ho => .spanFrom fun span => .pure ?_
    rw [append_nil]
    exact .of_head (.not (Nat.le_refl _) ho.spelled) (by simp)
  · refine (h.primary c).bind fun target ts next ht => ?_
    exact (h.indices target ts next ht).mono fun e ts' _ he => he.mono (by decide)

theorem indices_succ {target : Expr} (c : Cursor) (ht : Taken indexLevel target ts c) :
    (Reading.indices (fuel + 1) target).TakesAt c fun e ts' last =>
      Taken indexLevel e (ts ++ ts') last := by
  unfold Reading.indices
  refine .matchMark (fun _ => ?_) fun _ => .pure (by rwa [append_nil])
  refine (h.binary 0 _ (by decide)).bind ?_
  rintro index ts' next ⟨hi, -⟩
  refine .expectMark (.spanFrom fun span => ?_)
  refine (h.indices _ (ts ++ inBrackets ts') _
    (.of_append (.index ht.spelled hi.spelled))).mono fun e ts'' _ he => ?_
  simpa [inBrackets] using he

theorem primary_succ (c : Cursor) : (Reading.primary (fuel + 1)).TakesAt c (Taken indexLevel) := by
  unfold Reading.primary
  refine .cursor ?_
  split
  case h_6 name ht =>
    refine .advance ht (.matchMark (fun _ => ?_) fun hnot => .pure ⟨.atom rfl, fun _ _ => hnot⟩)
    refine (h.list _ _).bind ?_
    rintro _ _ next ⟨parts, rfl, rfl, hparts⟩
    exact .expectMark (.spanFrom fun span => .pure (.of_tail (.call hparts) (cons_ne_nil _ _)))
  case h_7 ht =>
    refine .advance ht (.expectMark ((h.binary 0 _ (by decide)).bind ?_))
    rintro operand ts next ⟨ho, -⟩
    exact .expectMark (.spanFrom fun span => .pure (.of_head (.len ho.spelled) (by simp)))
  case h_8 ht =>
    refine .advance ht ((h.list _ _).bind ?_)
    rintro _ _ next ⟨parts, rfl, rfl, hparts⟩
    exact .expectMark (.spanFrom fun span => .pure (.of_head (.vector hparts) (by simp)))
  case h_9 ht =>
    refine .advance ht ((h.binary 0 _ (by decide)).bind ?_)
    rintro inner ts next ⟨hi, -⟩
    exact .expectMark (.pure (.of_head (.parens hi.spelled) (by simp)))
  case h_10 => exact .fail _
  all_goals exact .advance ‹_› (.pure (.of_head (.atom rfl) (by simp)))

theorem items_succ (c : Cursor) :
    (Reading.items (fuel + 1)).TakesAt c fun es ts _ => SpelledList es ts ∧ es ≠ [] := by
  unfold Reading.items
  refine (h.binary 0 c (by decide)).bind ?_
  rintro first ts next ⟨hf, -⟩
  refine .matchMark (fun _ => ?_) fun _ => .pure ?_
  · refine (h.items _).bind ?_
    rintro others ts' _ ⟨ho, hne⟩
    refine .pure ⟨?_, cons_ne_nil _ _⟩
    rw [append_nil]
    exact .cons hf.spelled ho hne
  · rw [append_nil]
    exact ⟨.single hf.spelled, cons_ne_nil _ _⟩

theorem list_succ (close : Mark) (c : Cursor) :
    (Reading.list (fuel + 1) close).TakesAt c fun es ts _ => SpelledList es ts := by
  unfold Reading.list
  refine .cursor (.ite (fun _ => .pure .nil) fun _ => ?_)
  exact (h.items c).mono fun es ts _ hes => hes.1

end

end ExprReaders

theorem exprReaders (fuel : Nat) : ExprReaders fuel := by
  induction fuel with
  | zero =>
    constructor
    case binary => intro least c _; unfold binary; exact .fail _
    case operators => intro least left ts c _ _; unfold operators; exact .fail _
    case unary => intro c; unfold unary; exact .fail _
    case indices => intro target ts c _; unfold indices; exact .fail _
    case primary => intro c; unfold primary; exact .fail _
    case list => intro close c; unfold list; exact .fail _
    case items => intro c; unfold items; exact .fail _
  | succ fuel ih =>
    exact {
      binary := fun _ => ih.binary_succ
      operators := fun _ _ _ => ih.operators_succ
      unary := ih.unary_succ
      indices := fun _ _ => ih.indices_succ
      primary := ih.primary_succ
      list := ih.list_succ
      items := ih.items_succ }

/-- **Expressions.**  What is read as an expression is spelled by the tokens that were taken. -/
theorem expr_takes (c : Cursor) : expr.TakesAt c (Taken 0) := by
  have h := ((exprReaders (6 * c.rest.length + 6)).binary 0 c (Nat.zero_le _)).mono
    fun e ts _ he => he.1
  unfold TakesAt at h ⊢
  unfold expr
  exact h

end Reading

end WichToC
