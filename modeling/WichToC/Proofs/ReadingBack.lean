import WichToC.Proofs.ExprGrammar

/-!
# Reading back what is spelled

Reading the tokens that spell a tree gives this tree.  Where an expression stands at some level, the
tokens after it must not go on with it (`Ends`): no operator that binds more tightly than the level,
no bracket, and no parenthesis that would turn a name into a call.

Operators and indices are read by loops that hold what was read so far.  So a spelled expression is
described by the state in which it leaves the loop, from which reading goes on (`ReadsPrimary`,
`ReadsBinary`), and each constructor of the spelling is one step of a loop.  Readers run on fuel:
six units a token suffice for expressions and four for statements.
-/

namespace WichToC

open List Prod Annotated Cursor Reading Operator

variable {ts : List Token}
variable {item : Item} {α : Type} {rest resultTokens : List Token} {what : String} {least : Nat}
    {ps : List (Param × List Token)} {s : Stmt}

/-- Whether a token can be the first one of a statement. -/
def Token.beginsStatement : Token → Bool
  | keyword .ifWord | keyword .whileWord | keyword .var | keyword .print | keyword .returnWord
  | mark .leftBrace | identifier _ => true
  | _ => false

/-- Whether a mark closes a list. -/
def Mark.closes : Mark → Bool
  | rightParen | rightBracket => true
  | _ => false

theorem Mark.closes_apart {m : Mark} (h : m.closes = true) :
    ofToken? (.mark m) = none ∧ m ≠ .leftParen ∧ m ≠ .leftBracket ∧ m ≠ .comma := by
  cases m <;> cases h <;> exact ⟨rfl, by simp, by simp, by simp⟩

/-- What begins an expression closes no list. -/
theorem Annotated.Spelled.starts {level : Nat} {e : Expr}
    (h : e.Spelled level ts) : ∃ t ts', ts = t :: ts' ∧ ∀ m :
    Mark, m.closes = true → t ≠ .mark m := by
  have hmark : ∀ {m : Mark}, m.closes = false → ∀ m' : Mark, m'.closes = true →
      Token.mark m ≠ .mark m' := by grind
  induction h with
  | parens | vector | negate | not => exact ⟨_, _, rfl, hmark rfl⟩
  | @atom level kind span t token =>
    refine ⟨t, [], rfl, ?_⟩
    rintro m - rfl
    unfold ExprKind.token? at token
    split at token <;> cases token
  | call | len => exact ⟨_, _, rfl, by simp⟩
  | index _ _ ih | binary _ _ _ ih =>
    obtain ⟨t, ts, rfl, hnot⟩ := ih
    exact ⟨t, _, rfl, hnot⟩

/-- What begins a statement. -/
theorem Located.Spelled.begins (h : s.Spelled ts) :
    ∃ t ts', ts = t :: ts' ∧ t.beginsStatement = true := by
  cases h <;> exact ⟨_, _, rfl, rfl⟩

/-- What begins a function or a statement. -/
theorem Item.Spelled.begins (h : item.Spelled ts) :
    ∃ t ts', ts = t :: ts' ∧ (t.beginsStatement = true ∨ t = .keyword .func) := by
  cases h with
  | function => exact ⟨_, _, rfl, .inr rfl⟩
  | statement spelled =>
    obtain ⟨t, ts', rfl, hbegins⟩ := spelled.begins
    exact ⟨t, ts', rfl, .inl hbegins⟩

/-- A part with the property `R` was read without faults, up to where the tokens `rest` come
next. -/
def Outcome.Gives {α : Type} (o : Outcome α) (rest : List Token) (R : α → Prop) : Prop :=
  ∃ a c', o = ⟨some a, [], c'⟩ ∧ c'.tokens = rest ∧ R a

theorem Outcome.Gives.map {β : Type} {R : α → Prop} {Q : β → Prop} {o : Outcome α}
    {f : α → β} (h : o.Gives rest R) (hf : ∀ a, R a → Q (f a)) :
    (o.map f).Gives rest Q := by
  obtain ⟨a, c', rfl, hrest, hr⟩ := h
  exact ⟨f a, c', rfl, hrest, hf a hr⟩

namespace Reading

variable {α β : Type} {c c' : Cursor} {ts ts' rest last : List Token} {m : Mark} {name : String}
  {level fuel : Nat} {e cond i : Expr} {span inner : Span} {t : Token}
  {parts : List (Stmt × List Token)} {args : List (Expr × List Token)}

/-! ## Steps -/

theorem expectMark_ok (h : c.tokens = .mark m :: ts) : expectMark m what c = .ok () c.advance := by
  simp [expectMark, isAtMark, token?_of_cons h]

/-- A step of reading yields a value with the property `R` and ends where the tokens `rest` come
next. -/
def Yields (p : Reading α) (c : Cursor) (rest : List Token) (R : α → Prop) : Prop :=
  ∃ a c', p c = .ok a c' ∧ c'.tokens = rest ∧ R a

namespace Yields

variable {R : α → Prop} {Q : β → Prop} {p : Reading α} {f : Unit → Reading β}

theorem pure {a : α} (h : c.tokens = rest) (hr : R a) : Yields (Pure.pure a) c rest R :=
  ⟨a, c, rfl, h, hr⟩

/-- One step after the other; the second begins where the first ended. -/
theorem bind {f : α → Reading β} (hp : p.Yields c ts R)
    (hf : ∀ a c', c'.tokens = ts → R a → (f a).Yields c' rest Q) : Yields (p >>= f) c rest Q := by
  obtain ⟨a, c', hread, hts, hr⟩ := hp
  obtain ⟨b, c'', hread', hrest, hq⟩ := hf a c' hts hr
  refine ⟨b, c'', ?_, hrest, hq⟩
  show Reading.bind p f c = _
  rw [Reading.bind, hread]
  exact hread'

theorem cursor {f : Cursor → Reading β} (hf : (f c).Yields c rest Q) :
    Yields (cursor >>= f) c rest Q :=
  hf

theorem spanFrom {f : Span → Reading β} {start : Nat} (hf : ∀ span, (f span).Yields c rest Q) :
    Yields (spanFrom start >>= f) c rest Q :=
  hf _

theorem advance (h : c.tokens = t :: ts) (hf : ∀ c', c'.tokens = ts → (f ()).Yields c' rest Q) :
    Yields (advance >>= f) c rest Q :=
  hf _ (advance_of_cons h)

theorem matchMark {f : Bool → Reading β} (h : c.tokens = .mark m :: ts)
    (hf : ∀ c', c'.tokens = ts → (f true).Yields c' rest Q) :
    Yields (matchMark m >>= f) c rest Q := by
  have hone : (Reading.matchMark m).Yields c ts (· = true) :=
    ⟨true, c.advance, by simp [Reading.matchMark, isAtMark, token?_of_cons h],
      advance_of_cons h, rfl⟩
  exact hone.bind fun _ c' hc' hb => hb ▸ hf c' hc'

theorem otherMark {f : Bool → Reading β} (h : c.tokens.head? ≠ some (.mark m))
    (hf : (f false).Yields c rest Q) : Yields (Reading.matchMark m >>= f) c rest Q := by
  obtain ⟨b, c', hread, hrest, hq⟩ := hf
  refine ⟨b, c', ?_, hrest, hq⟩
  show Reading.bind _ f c = _
  rw [Reading.bind, show Reading.matchMark m c = .ok false c by
    simp [Reading.matchMark, isAtMark, token?_eq, h]]
  exact hread

theorem expectMark (h : c.tokens = .mark m :: ts)
    (hf : ∀ c', c'.tokens = ts → (f ()).Yields c' rest Q) :
    Yields (expectMark m what >>= f) c rest Q := by
  have hone : (Reading.expectMark m what).Yields c ts fun _ => True :=
    ⟨(), c.advance, expectMark_ok h, advance_of_cons h, trivial⟩
  exact hone.bind fun _ c' hc' _ => hf c' hc'

theorem identifier {f : String → Reading β} (h : c.tokens = .identifier name :: ts)
    (hf : ∀ c', c'.tokens = ts → (f name).Yields c' rest Q) :
    Yields (identifier >>= f) c rest Q := by
  have hone : Reading.identifier.Yields c ts (· = name) :=
    ⟨name, c.advance, by simp [Reading.identifier, token?_of_cons h],
      advance_of_cons h, rfl⟩
  exact hone.bind fun _ c' hc' hn => hn ▸ hf c' hc'

theorem outcome (h : p.Yields c rest R) : (p.outcome c).Gives rest R := by
  obtain ⟨a, c', hread, hrest, hr⟩ := h
  exact ⟨a, c', by rw [Reading.outcome, hread], hrest, hr⟩

end Yields

theorem exists_succ {k : Nat} (h : k + 1 ≤ fuel) : ∃ f, fuel = f + 1 :=
  ⟨fuel - 1, by omega⟩

/-! ## Expressions -/

/-- The tokens after an expression at a level do not go on with it. -/
structure Ends (level : Nat) (rest : List Token) : Prop where
  operator : ∀ op ∈ rest.head?.bind ofToken?, op.precedence ≤ level
  paren : rest.head? ≠ some (.mark .leftParen)
  bracket : rest.head? ≠ some (.mark .leftBracket)

/-- A mark that goes on with no expression. -/
theorem Ends.of_mark (hop : ofToken? (.mark m) = none)
    (hparen : m ≠ .leftParen) (hbracket : m ≠ .leftBracket) (ts : List Token) :
    Ends level (.mark m :: ts) := by
  refine ⟨?_, ?_, ?_⟩
  · simp [hop]
  · simpa using hparen
  · simpa using hbracket

theorem Ends.mono {level' : Nat} (h : Ends level rest) (hle : level ≤ level') : Ends level' rest :=
  ⟨fun op hop => Nat.le_trans (h.operator op hop) hle, h.paren, h.bracket⟩

/-- The tokens lead the loop over indices to the expression, whatever comes after them. -/
def ReadsPrimary (e : Expr) (ts : List Token) : Prop :=
  ∀ {c : Cursor} {rest last : List Token} {fuel : Nat} {R : Expr → Prop}, c.tokens = ts ++ rest →
    rest.head? ≠ some (.mark .leftParen) → 6 * ts.length + 2 ≤ fuel →
      (∀ e' c' fuel', c'.tokens = rest → e'.bare = e.bare → fuel ≤ fuel' + ts.length + 1 →
        (indices fuel' e').Yields c' last R) → (unary fuel).Yields c last R

/-- The tokens are read as the expression where a sign can stand. -/
def ReadsUnary (e : Expr) (ts : List Token) : Prop :=
  ∀ {c : Cursor} {rest : List Token} {fuel : Nat}, c.tokens = ts ++ rest →
    rest.head? ≠ some (.mark .leftParen) → rest.head? ≠ some (.mark .leftBracket) →
      6 * ts.length + 2 ≤ fuel → (unary fuel).Yields c rest (·.bare = e.bare)

/-- The tokens lead the loop over operators to the expression, where all operators that bind at
least as tightly as some lower level are read. -/
def ReadsBinary (level : Nat) (e : Expr) (ts : List Token) : Prop :=
  ∀ {least : Nat} {c : Cursor} {rest last : List Token} {fuel : Nat} {R : Expr → Prop},
    least ≤ level → c.tokens = ts ++ rest → Ends level rest → 6 * ts.length + 3 ≤ fuel →
      (∀ e' c' fuel', c'.tokens = rest → e'.bare = e.bare → fuel ≤ fuel' + ts.length + 1 →
        (operators fuel' least e').Yields c' last R) → (binary fuel least).Yields c last R

structure Reads (level : Nat) (e : Expr) (ts : List Token) : Prop where
  binary : ReadsBinary level e ts
  unary : signLevel ≤ level → ReadsUnary e ts
  primary : indexLevel ≤ level → ReadsPrimary e ts

theorem operators_stop {R : Expr → Prop}
    (h : ∀ op ∈ c.tokens.head?.bind ofToken?, op.precedence < least) (hr : R e) :
    (operators (fuel + 1) least e).Yields c c.tokens R := by
  rw [operators]
  refine .cursor ?_
  rw [token?_eq]
  cases hop : c.tokens.head?.bind ofToken? with
  | none => exact .pure rfl hr
  | some op =>
    dsimp only
    rw [if_pos (h op hop)]
    exact .pure rfl hr

/-- What can be indexed is read as a whole if no index follows. -/
theorem ReadsPrimary.readsUnary (h : ReadsPrimary e ts) : ReadsUnary e ts := by
  intro c rest fuel htokens hparen hbracket hfuel
  refine h htokens hparen hfuel fun e' c' fuel' hrest hbare hle => ?_
  obtain ⟨f, rfl⟩ := exists_succ (show 1 ≤ fuel' by omega)
  rw [indices]
  exact .otherMark (hrest ▸ hbracket) (.pure hrest hbare)

/-- An expression without operators of its own starts the loop over them. -/
theorem ReadsUnary.readsBinary (h : ReadsUnary e ts) (level : Nat) : ReadsBinary level e ts := by
  intro least c rest last fuel R _ htokens hends hfuel hloop
  obtain ⟨f, rfl⟩ := exists_succ hfuel
  rw [binary]
  exact (h htokens hends.paren hends.bracket (by omega)).bind fun e' c' hrest hbare =>
    hloop e' c' f hrest hbare (by omega)

theorem ReadsPrimary.reads (h : ReadsPrimary e ts) (level : Nat) : Reads level e ts :=
  ⟨ReadsUnary.readsBinary h.readsUnary level, fun _ => h.readsUnary, fun _ => h⟩

theorem ReadsUnary.reads (h : ReadsUnary e ts) (hlevel : level ≤ signLevel) : Reads level e ts := by
  refine ⟨h.readsBinary level, fun _ => h, fun hle => ?_⟩
  unfold signLevel at hlevel
  unfold indexLevel at hle
  omega

/-- An expression between other tokens is read as a whole. -/
theorem Reads.whole (h : Reads least e ts) (htokens : c.tokens = ts ++ rest)
    (hends : Ends least rest)
    (hstop : ∀ op ∈ rest.head?.bind ofToken?, op.precedence < least)
    (hfuel : 6 * ts.length + 3 ≤ fuel) :
    (Reading.binary fuel least).Yields c rest (·.bare = e.bare) := by
  refine h.binary (Nat.le_refl _) htokens hends hfuel fun e' c' fuel' hrest hbare hle => ?_
  obtain ⟨f, rfl⟩ := exists_succ (show 1 ≤ fuel' by omega)
  subst hrest
  exact operators_stop hstop hbare

/-- An expression before a mark that goes on with none. -/
theorem Reads.before (h : Reads 0 e ts) (htokens : c.tokens = ts ++ .mark m :: rest)
    (hop : ofToken? (.mark m) = none) (hparen : m ≠ .leftParen) (hbracket : m ≠ .leftBracket)
    (hfuel : 6 * ts.length + 3 ≤ fuel) :
    (Reading.binary fuel 0).Yields c (.mark m :: rest) (·.bare = e.bare) :=
  h.whole htokens (.of_mark hop hparen hbracket rest) (by simp [hop]) hfuel

theorem operator_token {op : Operator} : ofToken? op.token = some op := by
  cases op <;> rfl

/-! ### Binary operators -/

theorem binary_reads {l r : Expr} {op : Operator}
    (hfits : level ≤ op.precedence) (hl : Reads op.precedence l ts)
    (hr : Reads (op.precedence + 1) r ts') :
    Reads level ⟨.binary l op r, span, none, none⟩ (ts ++ op.token :: ts') := by
  have hprec : op.precedence < signLevel := op.precedence_lt_signLevel
  refine ⟨?_, fun hle => absurd (Nat.le_trans hle hfits) (Nat.not_le.mpr hprec), fun hle =>
    absurd (Nat.le_trans hle hfits) (Nat.not_le.mpr (Nat.lt_succ_of_lt hprec))⟩
  intro least c rest last fuel R hleast htokens hends hfuel hloop
  rw [append_assoc, cons_append] at htokens
  rw [length_append, length_cons] at hfuel hloop
  -- the left operand is what the loop holds when it comes to the operator
  have hnext : Ends op.precedence (op.token :: (ts' ++ rest)) := by
    refine ⟨fun op' hop' => ?_, ?_, ?_⟩
    · rw [head?_cons, Option.bind_some, operator_token] at hop'
      cases hop'
      exact Nat.le_refl _
    · cases op <;> simp [token]
    · cases op <;> simp [token]
  refine hl.binary (by omega) htokens hnext (by omega) fun l' c₁ f hc₁ hl' hle => ?_
  obtain ⟨f, rfl⟩ := exists_succ (show 1 ≤ f by omega)
  rw [operators]
  refine .cursor ?_
  simp only [token?_of_cons hc₁, Option.bind_some, operator_token]
  rw [if_neg (by omega)]
  refine .advance hc₁ fun c₂ hc₂ => ?_
  refine (hr.whole hc₂ (hends.mono (by omega)) (fun op' hop' => by
    have := hends.operator op' hop'; omega) (by omega)).bind fun r' c₃ hc₃ hr' => ?_
  exact hloop _ c₃ f hc₃ (by simp [bare, ExprKind.bare, hl', hr']) (by omega)

/-! ### Signs and indices -/

theorem negate_reads (hfits : level ≤ signLevel) (h : Reads signLevel e ts) :
    Reads level ⟨.negate e, span, none, none⟩ (.mark .minus :: ts) := by
  refine ReadsUnary.reads ?_ hfits
  intro c rest fuel htokens hparen hbracket hfuel
  obtain ⟨f, rfl⟩ := exists_succ hfuel
  rw [length_cons] at hfuel
  rw [unary]
  refine .cursor (.matchMark htokens fun c₁ hc₁ => ?_)
  exact (h.unary (Nat.le_refl _) hc₁ hparen hbracket (by omega)).bind fun e' c₂ hc₂ he' =>
    .spanFrom fun span' => .pure hc₂ (by simp [bare, ExprKind.bare, he'])

theorem not_reads (hfits : level ≤ signLevel) (h : Reads signLevel e ts) :
    Reads level ⟨.not e, span, none, none⟩ (.mark .bang :: ts) := by
  refine ReadsUnary.reads ?_ hfits
  intro c rest fuel htokens hparen hbracket hfuel
  obtain ⟨f, rfl⟩ := exists_succ hfuel
  rw [length_cons] at hfuel
  rw [unary]
  refine .cursor (.otherMark (by simp [htokens]) (.matchMark htokens fun c₁ hc₁ => ?_))
  exact (h.unary (Nat.le_refl _) hc₁ hparen hbracket (by omega)).bind fun e' c₂ hc₂ he' =>
    .spanFrom fun span' => .pure hc₂ (by simp [bare, ExprKind.bare, he'])

theorem index_reads (h : Reads indexLevel e ts) (hi : Reads 0 i ts') :
    Reads level ⟨.index e i, span, none, none⟩ (ts ++ inBrackets ts') := by
  refine ReadsPrimary.reads ?_ level
  intro c rest last fuel R htokens hparen hfuel hloop
  have hlength : (ts ++ inBrackets ts').length = ts.length + ts'.length + 2 := by
    simp [inBrackets]
    omega
  have htokens : c.tokens = ts ++ .mark .leftBracket :: (ts' ++ .mark .rightBracket :: rest) := by
    simpa [inBrackets] using htokens
  rw [hlength] at hfuel hloop
  refine h.primary (Nat.le_refl _) htokens (by simp) (by omega) fun e' c₁ f hc₁ he' hle => ?_
  obtain ⟨f, rfl⟩ := exists_succ (show 1 ≤ f by omega)
  rw [indices]
  refine .matchMark hc₁ fun c₂ hc₂ => ?_
  refine (hi.before hc₂ rfl (by simp) (by simp) (by omega)).bind fun i' c₃ hc₃ hi' => ?_
  refine .expectMark hc₃ fun c₄ hc₄ => .spanFrom fun span' => ?_
  exact hloop _ c₄ f hc₄ (by simp [bare, ExprKind.bare, he', hi']) (by omega)

/-! ### Primary expressions -/

/-- An expression that the reader of primary expressions takes as a whole. -/
theorem reads_of_primary (hminus : t ≠ .mark .minus) (hbang : t ≠ .mark .bang)
    (h : ∀ {c : Cursor} {rest : List Token} {fuel : Nat}, c.tokens = t :: (ts ++ rest) →
      rest.head? ≠ some (.mark .leftParen) → 6 * ts.length + 6 ≤ fuel →
        (primary (fuel + 1)).Yields c rest (·.bare = e.bare)) :
    Reads level e (t :: ts) := by
  refine ReadsPrimary.reads ?_ level
  intro c rest last fuel R htokens hparen hfuel hloop
  rw [cons_append] at htokens
  rw [length_cons] at hfuel hloop
  obtain ⟨f, rfl⟩ : ∃ f, fuel = f + 2 := ⟨fuel - 2, by omega⟩
  rw [unary]
  refine .cursor (.otherMark (by simpa [htokens] using hminus) ?_)
  refine .otherMark (by simpa [htokens] using hbang) ?_
  exact (h htokens hparen (by omega)).bind fun e' c' hc' he' =>
    hloop e' c' (f + 1) hc' he' (by omega)

theorem atom_reads {kind : ExprKind} (h : kind.token? = some t) :
    Reads level ⟨kind, span, none, none⟩ [t] := by
  have hmark : ∀ m, t ≠ .mark m := by
    rintro m rfl
    unfold ExprKind.token? at h
    split at h <;> cases h
  refine reads_of_primary (hmark _) (hmark _) fun {c rest fuel} htokens hparen hfuel => ?_
  rw [primary]
  refine .cursor ?_
  rw [token?_of_cons htokens]
  unfold ExprKind.token? at h
  split at h <;> cases h
  case h_6 => exact .advance htokens fun c' hc' => .otherMark (hc' ▸ hparen) (.pure hc' rfl)
  all_goals exact .advance htokens fun c' hc' => .pure hc' rfl

theorem parens_reads (h : Reads 0 e ts) : Reads level e (inParens ts) := by
  refine reads_of_primary (by simp) (by simp) fun {c rest fuel} htokens _ hfuel => ?_
  rw [append_assoc] at htokens
  rw [length_append] at hfuel
  rw [primary]
  refine .cursor ?_
  rw [token?_of_cons htokens]
  refine .advance htokens fun c₁ hc₁ => ?_
  exact (h.before hc₁ rfl (by simp) (by simp) (by omega)).bind fun e' c₂ hc₂ he' =>
    .expectMark hc₂ fun c₃ hc₃ => .pure hc₃ he'

theorem len_reads (h : Reads 0 e ts) :
    Reads level ⟨.len e, span, none, none⟩ (.keyword .len :: inParens ts) := by
  refine reads_of_primary (by simp) (by simp) fun {c rest fuel} htokens _ hfuel => ?_
  rw [inParens, cons_append, append_assoc] at htokens
  simp only [inParens, length_cons, length_append] at hfuel
  rw [primary]
  refine .cursor ?_
  rw [token?_of_cons htokens]
  refine .advance htokens fun c₁ hc₁ => .expectMark hc₁ fun c₂ hc₂ => ?_
  exact (h.before hc₂ rfl (by simp) (by simp) (by omega)).bind fun e' c₃ hc₃ he' =>
    .expectMark hc₃ fun c₄ hc₄ => .spanFrom fun span' => .pure hc₄ (by
      simp [bare, ExprKind.bare, he'])

/-! ### Lists -/

theorem length_commas_cons {p q : α × List Token} (parts : List (α × List Token)) :
    (commas ((p :: q :: parts).map snd)).length =
      p.2.length + 1 + (commas ((q :: parts).map snd)).length := by
  simp [commas]
  omega

theorem items_read (hm : m.closes = true) (h : ∀ p ∈ args, Reads 0 p.1 p.2) (hargs : args ≠ [])
    (htokens : c.tokens = commas (args.map snd) ++ .mark m :: rest)
    (hfuel : 6 * (commas (args.map snd)).length + 4 ≤ fuel) :
    (items fuel).Yields c (.mark m :: rest) (bareExprs · = bareExprs (args.map fst)) := by
  induction args generalizing c fuel with
  | nil => exact absurd rfl hargs
  | cons p args ih =>
    obtain ⟨f, rfl⟩ := exists_succ hfuel
    obtain ⟨hp, hargs⟩ := forall_mem_cons.mp h
    rw [items]
    cases args with
    | nil =>
      obtain ⟨hop, hparen, hbracket, hcomma⟩ := Mark.closes_apart hm
      have hfuel : 6 * p.2.length + 4 ≤ f + 1 := hfuel
      refine (hp.before htokens hop hparen hbracket (by omega)).bind fun e' c' hc' he' => ?_
      exact .otherMark (by simpa [hc'] using hcomma) (.pure hc' (by simp [bareExprs, he']))
    | cons q args =>
      rw [length_commas_cons] at hfuel
      have htokens : c.tokens = p.2 ++ .mark .comma ::
          (commas ((q :: args).map snd) ++ .mark m :: rest) := by
        simpa [commas] using htokens
      refine (hp.before htokens rfl (by simp) (by simp) (by omega)).bind fun e' c₁ hc₁ he' => ?_
      refine .matchMark hc₁ fun c₂ hc₂ => ?_
      exact (ih hargs (cons_ne_nil _ _) hc₂ (by omega)).bind fun es c₃ hc₃ hes =>
        .pure hc₃ (by rw [map_cons, bareExprs, bareExprs, he', hes])

/-- Reading a list up to the mark that closes it. -/
theorem list_reads (hm : m.closes = true) (hspelled : ∀ p ∈ args, p.1.Spelled 0 p.2)
    (h : ∀ p ∈ args, Reads 0 p.1 p.2)
    (htokens : c.tokens = commas (args.map snd) ++ .mark m :: rest)
    (hfuel : 6 * (commas (args.map snd)).length + 5 ≤ fuel) :
    (list fuel m).Yields c (.mark m :: rest) (bareExprs · = bareExprs (args.map fst)) := by
  obtain ⟨f, rfl⟩ := exists_succ hfuel
  rw [list]
  refine .cursor ?_
  cases args with
  | nil =>
    rw [if_pos (by simp [isAtMark, token?_of_cons (show c.tokens = _ from htokens)])]
    exact .pure htokens rfl
  | cons p args =>
    obtain ⟨t, ts, hts, hnot⟩ := (hspelled p (.head _)).starts
    have hhead : c.tokens.head? = some t := by
      rw [htokens]
      cases args <;> simp [commas, hts]
    rw [if_neg (by simpa [isAtMark, token?_eq, hhead] using hnot m hm)]
    exact items_read hm h (cons_ne_nil _ _) htokens (by omega)

section

variable (hspelled : ∀ p ∈ args, p.1.Spelled 0 p.2) (h : ∀ p ∈ args, Reads 0 p.1 p.2)

include hspelled h

theorem call_reads : Reads level ⟨.call name (args.map fst) none, span, none, none⟩
      (.identifier name :: inParens (commas (args.map snd))) := by
  refine reads_of_primary (by simp) (by simp) fun {c rest fuel} htokens _ hfuel => ?_
  rw [inParens, cons_append, append_assoc] at htokens
  simp only [inParens, length_cons, length_append] at hfuel
  rw [primary]
  refine .cursor ?_
  rw [token?_of_cons htokens]
  refine .advance htokens fun c₁ hc₁ => .matchMark hc₁ fun c₂ hc₂ => ?_
  exact (list_reads rfl hspelled h hc₂ (by omega)).bind fun es c₃ hc₃ hes =>
    .expectMark hc₃ fun c₄ hc₄ => .spanFrom fun span' => .pure hc₄ (by
      simp [bare, ExprKind.bare, hes])

theorem vector_reads : Reads level ⟨.vector (args.map fst), span, none, none⟩
      (inBrackets (commas (args.map snd))) := by
  refine reads_of_primary (by simp) (by simp) fun {c rest fuel} htokens _ hfuel => ?_
  rw [append_assoc] at htokens
  rw [length_append] at hfuel
  rw [primary]
  refine .cursor ?_
  rw [token?_of_cons htokens]
  refine .advance htokens fun c₁ hc₁ => ?_
  exact (list_reads rfl hspelled h hc₁ (by omega)).bind fun es c₂ hc₂ hes =>
    .expectMark hc₂ fun c₃ hc₃ => .spanFrom fun span' => .pure hc₃ (by
      simp [bare, ExprKind.bare, hes])

end

/-- **Spelled expressions** are read as what they spell. -/
theorem reads_of_spelled (h : e.Spelled level ts) : Reads level e ts := by
  induction h with
  | parens _ ih => exact parens_reads ih
  | atom token => exact atom_reads token
  | call args ih => exact call_reads args ih
  | vector elements ih => exact vector_reads elements ih
  | len _ ih => exact len_reads ih
  | index _ _ iht ihi => exact index_reads iht ihi
  | negate fits _ ih => exact negate_reads fits ih
  | not fits _ ih => exact not_reads fits ih
  | binary fits _ _ ihl ihr => exact binary_reads fits ihl ihr

/-- Reading an expression that the tokens after it do not go on with. -/
theorem expr_yields (h : e.Spelled 0 ts) (htokens : c.tokens = ts ++ rest) (hends : Ends 0 rest) :
    expr.Yields c rest (·.bare = e.bare) := by
  have hfuel : 6 * ts.length + 3 ≤ 6 * c.rest.length + 6 := by
    rw [length_rest, htokens, length_append]
    omega
  have hread := (reads_of_spelled h).whole htokens hends (fun op hop => by
    have hzero := hends.operator op hop
    cases op <;> cases hzero) hfuel
  unfold Yields expr at *
  exact hread

/-- Reading an expression before a mark that goes on with none. -/
theorem expr_before (h : e.Spelled 0 ts) (htokens : c.tokens = ts ++ .mark m :: rest)
    (hm : m.closes = true) : expr.Yields c (.mark m :: rest) (·.bare = e.bare) := by
  obtain ⟨hop, hparen, hbracket, -⟩ := Mark.closes_apart hm
  exact expr_yields h htokens (.of_mark hop hparen hbracket rest)

/-! ## Statements without blocks -/

/-- The tokens after a statement: they begin another one, end a block or begin a function. -/
def Breaks (rest : List Token) : Prop :=
  ∀ t ∈ rest.head?, t.beginsStatement = true ∨ t = .mark .rightBrace ∨ t = .keyword .func

theorem Breaks.ends (h : Breaks rest) : Ends 0 rest := by
  cases rest with
  | nil => exact ⟨by simp, by simp, by simp⟩
  | cons t rest =>
    rcases h t rfl with h | rfl | rfl
    · unfold Token.beginsStatement at h
      split at h <;> cases h <;> exact ⟨by simp [ofToken?], by simp, by simp⟩
    · exact ⟨by simp [ofToken?], by simp, by simp⟩
    · exact ⟨by simp [ofToken?], by simp, by simp⟩

/-- Parts of which each begins a statement or a function break what stands before them. -/
theorem breaks_flatten {parts : List (α × List Token)}
    (h : ∀ p ∈ parts, ∃ t ts, p.2 = t :: ts ∧ (t.beginsStatement = true ∨ t = .keyword .func))
    (hrest : Breaks rest) : Breaks ((parts.map snd).flatten ++ rest) := by
  cases parts with
  | nil => exact hrest
  | cons p parts =>
    obtain ⟨t, ts, hts, hbegins⟩ := h p (.head _)
    rw [map_cons, flatten_cons, hts]
    rintro t' ⟨⟩
    exact hbegins.imp id .inr

/-- The tokens are read as the statement. -/
def ReadsStmt (s : Stmt) (ts : List Token) : Prop :=
  ∀ {c : Cursor} {rest : List Token} {fuel : Nat}, c.tokens = ts ++ rest → Breaks rest →
    4 * ts.length ≤ fuel + 1 → (statement (fuel + 1) c).Gives rest (·.bare = s.bare)

theorem define_reads (h : e.Spelled 0 ts) : ReadsStmt ⟨.define name e none, span⟩
      (.keyword .var :: .identifier name :: .mark .assign :: ts) := by
  intro c rest fuel htokens hbreaks hfuel
  rw [statement, token?_of_cons htokens]
  refine Yields.outcome (.cursor (.advance htokens fun c₁ hc₁ => .identifier hc₁ fun c₂ hc₂ =>
    .expectMark hc₂ fun c₃ hc₃ => ?_))
  exact (expr_yields h hc₃ hbreaks.ends).bind fun e' c₄ hc₄ he' => .spanFrom fun span' =>
    .pure hc₄ (by simp [Located.bare, StmtKind.bare, he'])

theorem ret_reads (h : e.Spelled 0 ts) : ReadsStmt ⟨.ret e, span⟩ (.keyword .returnWord :: ts) := by
  intro c rest fuel htokens hbreaks hfuel
  rw [statement, token?_of_cons htokens]
  refine Yields.outcome (.cursor (.advance htokens fun c₁ hc₁ => ?_))
  exact (expr_yields h hc₁ hbreaks.ends).bind fun e' c₂ hc₂ he' => .spanFrom fun span' =>
    .pure hc₂ (by simp [Located.bare, StmtKind.bare, he'])

theorem print_reads (h : e.Spelled 0 ts) :
    ReadsStmt ⟨.print (some e), span⟩ (.keyword .print :: inParens ts) := by
  intro c rest fuel htokens hbreaks hfuel
  rw [inParens, cons_append, cons_append, append_assoc] at htokens
  rw [statement, token?_of_cons htokens]
  refine Yields.outcome (.cursor (.advance htokens fun c₁ hc₁ => .expectMark hc₁ fun c₂ hc₂ =>
    .cursor ?_))
  obtain ⟨t, ts', rfl, hnot⟩ := h.starts
  rw [if_neg (by simpa [isAtMark, token?_of_cons hc₂] using hnot .rightParen rfl)]
  have hvalue : (some <$> expr).Yields c₂ (.mark .rightParen :: rest) fun value =>
      ∃ e', value = some e' ∧ e'.bare = e.bare :=
    (expr_before h hc₂ rfl).bind fun e' c₃ hc₃ he' => .pure hc₃ ⟨e', rfl, he'⟩
  refine hvalue.bind ?_
  rintro _ c₃ hc₃ ⟨e', rfl, he'⟩
  exact .expectMark hc₃ fun c₄ hc₄ => .spanFrom fun span' =>
    .pure hc₄ (by simp [Located.bare, StmtKind.bare, he'])

theorem printNothing_reads : ReadsStmt ⟨.print none, span⟩ (.keyword .print :: inParens []) := by
  intro c rest fuel htokens hbreaks hfuel
  rw [statement, token?_of_cons htokens]
  refine Yields.outcome (.cursor (.advance htokens fun c₁ hc₁ => .expectMark hc₁ fun c₂ hc₂ =>
    .cursor ?_))
  rw [if_pos (by simp [isAtMark, token?_of_cons hc₂])]
  exact .expectMark hc₂ fun c₃ hc₃ => .spanFrom fun span' => .pure hc₃ rfl

theorem assign_reads (h : e.Spelled 0 ts) :
    ReadsStmt ⟨.assign name e none, span⟩ (.identifier name :: .mark .assign :: ts) := by
  intro c rest fuel htokens hbreaks hfuel
  rw [statement, token?_of_cons htokens]
  refine Yields.outcome (.cursor ?_)
  rw [nextToken?_eq, htokens]
  refine .advance htokens fun c₁ hc₁ => .advance hc₁ fun c₂ hc₂ => ?_
  exact (expr_yields h hc₂ hbreaks.ends).bind fun e' c₃ hc₃ he' => .spanFrom fun span' =>
    .pure hc₃ (by simp [Located.bare, StmtKind.bare, he'])

theorem assignElement_reads (hi : i.Spelled 0 ts) (h : e.Spelled 0 ts') :
    ReadsStmt ⟨.assignElement name i e none, span⟩
      (.identifier name :: (inBrackets ts ++ .mark .assign :: ts')) := by
  intro c rest fuel htokens hbreaks hfuel
  have htokens : c.tokens = .identifier name :: .mark .leftBracket ::
      (ts ++ .mark .rightBracket :: .mark .assign :: (ts' ++ rest)) := by
    simpa [inBrackets] using htokens
  rw [statement, token?_of_cons htokens]
  refine Yields.outcome (.cursor ?_)
  rw [nextToken?_eq, htokens]
  refine .advance htokens fun c₁ hc₁ => .advance hc₁ fun c₂ hc₂ => ?_
  refine (expr_before hi hc₂ rfl).bind fun i' c₃ hc₃ hi' => ?_
  refine .expectMark hc₃ fun c₄ hc₄ => .expectMark hc₄ fun c₅ hc₅ => ?_
  exact (expr_yields h hc₅ hbreaks.ends).bind fun e' c₆ hc₆ he' => .spanFrom fun span' =>
    .pure hc₆ (by simp [Located.bare, StmtKind.bare, hi', he'])

theorem callStmt_reads (h : ∀ p ∈ args, p.1.Spelled 0 p.2) :
    ReadsStmt ⟨.call ⟨.call name (args.map fst) none, inner, none, none⟩, span⟩
      (.identifier name :: inParens (commas (args.map snd))) := by
  intro c rest fuel htokens hbreaks hfuel
  have hcall : Spelled 0 ⟨.call name (args.map fst) none, inner, none, none⟩
      (.identifier name :: inParens (commas (args.map snd))) := .call h
  rw [statement, token?_of_cons htokens]
  refine Yields.outcome (.cursor ?_)
  rw [nextToken?_eq, htokens]
  exact (expr_yields hcall htokens hbreaks.ends).bind fun e' c₁ hc₁ he' => .spanFrom fun span' =>
    .pure hc₁ (by rw [Located.bare, StmtKind.bare, he']; rfl)

/-! ## Blocks -/

section

variable (hspelled : ∀ p ∈ parts, p.1.Spelled p.2) (h : ∀ p ∈ parts, ReadsStmt p.1 p.2)
    (inner : Span)

include hspelled h

theorem statements_read (htokens : c.tokens = (parts.map snd).flatten ++ .mark .rightBrace :: rest)
    (hfuel : 4 * (parts.map snd).flatten.length + 1 ≤ fuel) :
    (statements fuel c).Gives (.mark .rightBrace :: rest)
      (bareStmts · = bareStmts (parts.map fst)) := by
  induction parts generalizing c fuel with
  | nil =>
    obtain ⟨f, rfl⟩ := exists_succ hfuel
    rw [statements, if_pos (by
      simp [isAtMark, token?_of_cons (show c.tokens = _ from htokens)])]
    exact ⟨[], c, rfl, htokens, rfl⟩
  | cons p parts ih =>
    obtain ⟨f, rfl⟩ := exists_succ hfuel
    obtain ⟨hp, hparts⟩ := forall_mem_cons.mp hspelled
    rw [map_cons, flatten_cons, append_assoc] at htokens
    rw [map_cons, flatten_cons, length_append] at hfuel
    obtain ⟨t, ts, hts, hbegins⟩ := hp.begins
    have hbreaks : Breaks ((parts.map snd).flatten ++ .mark .rightBrace :: rest) :=
      breaks_flatten (fun q hq => (hparts q hq).begins.imp fun _ => .imp fun _ => .imp_right .inl)
        (by simp [Breaks])
    have hlength : p.2.length = ts.length + 1 := by rw [hts, length_cons]
    obtain ⟨f, rfl⟩ := exists_succ (show 1 ≤ f by omega)
    obtain ⟨s', c₁, hfirst, hc₁, hs'⟩ := h p (.head _) htokens hbreaks (show _ ≤ f + 1 by omega)
    obtain ⟨ss, c₂, hothers, hc₂, hss⟩ := ih hparts (fun q hq => h q (.tail p hq))
      hc₁ (show _ ≤ f + 1 by omega)
    rw [hts, cons_append] at htokens
    have hopen : c.isAtMark .rightBrace = false := by
      simp only [isAtMark, token?_of_cons htokens, decide_eq_false_iff_not]
      rintro ⟨⟩
      cases hbegins
    rw [statements, isEmpty_of_cons htokens, hopen, if_neg (by simp)]
    exact ⟨s' :: ss, c₂, by simp [hfirst, hothers], hc₂, by simp [bareStmts, hs', hss]⟩

/-- Reading a block. -/
theorem block_reads (htokens : c.tokens = blockTokens parts ++ rest)
    (hfuel : 4 * (parts.map snd).flatten.length + 2 ≤ fuel) :
    (block fuel c).Gives rest (·.bare = (blockOf parts inner).bare) := by
  obtain ⟨f, rfl⟩ := exists_succ hfuel
  rw [blockTokens, inBraces, cons_append, append_assoc] at htokens
  obtain ⟨ss, c', hread, hc', hss⟩ := statements_read hspelled h (advance_of_cons htokens)
    (show _ ≤ f by omega)
  refine ⟨⟨ss, c'.advance.spanFrom c.here.start, none⟩, c'.advance, ?_, advance_of_cons hc',
    by simp [BlockOf.bare, blockOf, hss]⟩
  rw [block, expectMark_ok htokens]
  dsimp only
  rw [hread]
  dsimp only
  rw [expectMark_ok hc']
  rfl

theorem body_reads (htokens : c.tokens = blockTokens parts ++ rest)
    (hfuel : 4 * (parts.map snd).flatten.length + 3 ≤ fuel) :
    (body fuel c).Gives rest (·.bare = (blockOf parts inner).bare) := by
  obtain ⟨f, rfl⟩ := exists_succ hfuel
  rw [body, if_pos (by simp [isAtMark, token?_of_cons htokens])]
  exact block_reads hspelled h inner htokens (by omega)

end

theorem condition_reads (h : e.Spelled 0 ts) (htokens : c.tokens = inParens ts ++ rest) :
    condition.Yields c rest (·.bare = e.bare) := by
  rw [inParens, cons_append, append_assoc] at htokens
  refine .expectMark htokens fun c₁ hc₁ => ?_
  exact (expr_before h hc₁ rfl).bind fun e' c₂ hc₂ he' => .expectMark hc₂ fun c₃ hc₃ =>
    .pure hc₃ he'

theorem length_inParens : (inParens ts).length = ts.length + 2 := by
  simp [inParens]

theorem length_blockTokens : (blockTokens parts).length = (parts.map snd).flatten.length + 2 := by
  simp [blockTokens, inBraces]

theorem loop_reads (hcond : cond.Spelled 0 ts) (hspelled : ∀ p ∈ parts, p.1.Spelled p.2)
    (h : ∀ p ∈ parts, ReadsStmt p.1 p.2) :
    ReadsStmt ⟨.loop cond (blockOf parts inner), span⟩
      (.keyword .whileWord :: (inParens ts ++ blockTokens parts)) := by
  intro c rest fuel htokens hbreaks hfuel
  simp only [length_cons, length_append, length_inParens, length_blockTokens] at hfuel
  rw [cons_append, append_assoc] at htokens
  obtain ⟨cond', c₁, hread, hc₁, hcond'⟩ := condition_reads hcond (advance_of_cons htokens)
  rw [statement, token?_of_cons htokens]
  dsimp only
  rw [hread]
  exact (body_reads hspelled h inner hc₁ (by omega)).map fun b hb => by
    simp [Located.bare, StmtKind.bare, hcond', hb]

theorem blockStmt_reads
    (hspelled : ∀ p ∈ parts, p.1.Spelled p.2) (h : ∀ p ∈ parts, ReadsStmt p.1 p.2) :
    ReadsStmt ⟨.block (blockOf parts inner), span⟩ (blockTokens parts) := by
  intro c rest fuel htokens hbreaks hfuel
  rw [length_blockTokens] at hfuel
  rw [statement, token?_of_cons htokens]
  exact (block_reads hspelled h inner htokens (by omega)).map fun b hb => by
    simp [Located.bare, StmtKind.bare, hb]

theorem ifThen_reads (hcond : cond.Spelled 0 ts) (hspelled : ∀ p ∈ parts, p.1.Spelled p.2)
    (h : ∀ p ∈ parts, ReadsStmt p.1 p.2) :
    ReadsStmt ⟨.ifElse cond (blockOf parts inner) none, span⟩
      (.keyword .ifWord :: (inParens ts ++ blockTokens parts)) := by
  intro c rest fuel htokens hbreaks hfuel
  simp only [length_cons, length_append, length_inParens, length_blockTokens] at hfuel
  obtain ⟨f, rfl⟩ := exists_succ (show 1 ≤ fuel by omega)
  rw [cons_append, append_assoc] at htokens
  obtain ⟨cond', c₁, hread, hc₁, hcond'⟩ := condition_reads hcond (advance_of_cons htokens)
  obtain ⟨b, c₂, hbody, hc₂, hb⟩ := body_reads hspelled h inner hc₁ (show _ ≤ f by omega)
  have helse : c₂.isAtWord .elseWord = false := by
    simp only [isAtWord, token?_eq, hc₂, decide_eq_false_iff_not]
    intro hhead
    rcases hbreaks _ hhead with h | h | h <;> cases h
  rw [statement, token?_of_cons htokens]
  dsimp only
  rw [conditional, hread]
  dsimp only
  rw [hbody]
  dsimp only
  rw [helse]
  exact ⟨_, c₂, rfl, hc₂, by simp [Located.bare, StmtKind.bare, hcond', hb]⟩

theorem ifElse_reads {no : List (Stmt × List Token)} {inner' : Span} (hcond : cond.Spelled 0 ts)
    (hyes : ∀ p ∈ parts, p.1.Spelled p.2) (hno : ∀ p ∈ no, p.1.Spelled p.2)
    (h : ∀ p ∈ parts, ReadsStmt p.1 p.2) (h' : ∀ p ∈ no, ReadsStmt p.1 p.2) :
    ReadsStmt ⟨.ifElse cond (blockOf parts inner) (some (blockOf no inner')), span⟩
      (.keyword .ifWord ::
        (inParens ts ++ (blockTokens parts ++ .keyword .elseWord :: blockTokens no))) := by
  intro c rest fuel htokens hbreaks hfuel
  simp only [length_cons, length_append, length_inParens, length_blockTokens] at hfuel
  obtain ⟨f, rfl⟩ := exists_succ (show 1 ≤ fuel by omega)
  rw [cons_append, append_assoc, append_assoc, cons_append] at htokens
  obtain ⟨cond', c₁, hread, hc₁, hcond'⟩ := condition_reads hcond (advance_of_cons htokens)
  obtain ⟨b, c₂, hbody, hc₂, hb⟩ := body_reads hyes h inner hc₁ (show _ ≤ f by omega)
  obtain ⟨b', c₃, hbody', hc₃, hb'⟩ := body_reads hno h' inner' (advance_of_cons hc₂)
    (show _ ≤ f by omega)
  rw [statement, token?_of_cons htokens]
  dsimp only
  rw [conditional, hread]
  dsimp only
  rw [hbody]
  dsimp only
  rw [if_pos (by simp [isAtWord, token?_of_cons hc₂]), hbody']
  exact ⟨_, c₃, rfl, hc₃, by simp [Located.bare, StmtKind.bare, hcond', hb, hb']⟩

/-- **Spelled statements** are read as what they spell. -/
theorem readsStmt_of_spelled (h : s.Spelled ts) : ReadsStmt s ts := by
  induction h with
  | ifThen condition thenBlock ih => exact ifThen_reads condition thenBlock ih
  | ifElse condition thenBlock elseBlock ih ih' =>
    exact ifElse_reads condition thenBlock elseBlock ih ih'
  | loop condition body ih => exact loop_reads condition body ih
  | define value => exact define_reads value
  | assign value => exact assign_reads value
  | assignElement index value => exact assignElement_reads index value
  | call args => exact callStmt_reads args
  | printNothing => exact printNothing_reads
  | print value => exact print_reads value
  | ret value => exact ret_reads value
  | block body ih => exact blockStmt_reads body ih

/-! ## Functions and scripts -/

theorem typeMark_reads {mark : TypeMark} (h : mark.Spelled ts)
    (htokens : c.tokens = ts ++ rest) : typeMark.Yields c rest (·.name = mark.name) := by
  unfold typeMark
  refine .cursor ?_
  have hhead := token?_eq c
  have hname := h.name_ty
  unfold TypeMark.Spelled at h
  generalize mark.ty = ty at h hname
  cases ty <;> cases h <;> rw [hhead, htokens, ← hname]
  case vector =>
    exact .advance htokens fun c₁ hc₁ => .expectMark hc₁ fun c₂ hc₂ => .spanFrom fun span' =>
      .pure hc₂ rfl
  all_goals exact .advance htokens fun c₁ hc₁ => .pure hc₁ rfl

theorem param_reads {p : Param} (h : p.Spelled ts) (htokens : c.tokens = ts ++ rest) :
    param.Yields c rest (·.bare = p.bare) := by
  obtain ⟨typeTokens, hty, rfl⟩ := h
  refine .cursor (.identifier htokens fun c₁ hc₁ => .expectMark hc₁ fun c₂ hc₂ => ?_)
  exact (typeMark_reads hty hc₂).bind fun mark c₃ hc₃ hmark => .spanFrom fun span' =>
    .pure hc₃ (by simp [Param.bare, TypeMark.bare, hmark])

theorem params_read (h : ∀ p ∈ ps, p.1.Spelled p.2)
    (hps : ps ≠ []) (htokens : c.tokens = commas (ps.map snd) ++ .mark .rightParen :: rest)
    (hfuel : (commas (ps.map snd)).length + 1 ≤ fuel) :
    (params fuel).Yields c (.mark .rightParen :: rest)
      (·.map Param.bare = (ps.map fst).map Param.bare) := by
  induction ps generalizing c fuel with
  | nil => exact absurd rfl hps
  | cons p ps ih =>
    obtain ⟨f, rfl⟩ := exists_succ hfuel
    obtain ⟨hp, hps⟩ := forall_mem_cons.mp h
    rw [params]
    cases ps with
    | nil =>
      refine (param_reads hp htokens).bind fun p' c' hc' hp' => ?_
      exact .otherMark (by simp [hc']) (.pure hc' (by simp [hp']))
    | cons q ps =>
      rw [length_commas_cons] at hfuel
      have htokens : c.tokens = p.2 ++ .mark .comma ::
          (commas ((q :: ps).map snd) ++ .mark .rightParen :: rest) := by
        simpa [commas] using htokens
      refine (param_reads hp htokens).bind fun p' c₁ hc₁ hp' => .matchMark hc₁ fun c₂ hc₂ => ?_
      exact (ih hps (cons_ne_nil _ _) hc₂ (by omega)).bind fun ps' c₃ hc₃ hps' =>
        .pure hc₃ (by rw [map_cons, hp', hps']; rfl)

theorem header_reads {mark : Option TypeMark} (h : ∀ p ∈ ps, p.1.Spelled p.2)
    (hresult : SpelledResult mark resultTokens) (hrest : rest.head? ≠ some (.mark .colon))
    (htokens : c.tokens = .keyword .func :: .identifier name ::
      (inParens (commas (ps.map snd)) ++ (resultTokens ++ rest))) :
    header.Yields c rest fun h => h.name = name ∧
      h.params.map Param.bare = (ps.map fst).map Param.bare ∧
        h.returnMark.map TypeMark.bare = mark.map TypeMark.bare := by
  rw [inParens, cons_append, append_assoc] at htokens
  have hfunc : (expectWord .func "'func'").Yields c _ fun _ => True :=
    ⟨(), c.advance, by simp [expectWord, isAtWord, token?_of_cons htokens],
      advance_of_cons htokens, trivial⟩
  unfold header
  refine hfunc.bind fun _ c₁ hc₁ _ => .identifier hc₁ fun c₂ hc₂ => .expectMark hc₂ fun c₃ hc₃ =>
    .cursor ?_
  extract_lets after
  have hafter : ∀ (ps' : List Param) (c₄ : Cursor),
      c₄.tokens = .mark .rightParen :: (resultTokens ++ rest) →
      ps'.map Param.bare = (ps.map fst).map Param.bare → (after ps').Yields c₄ rest fun h =>
        h.name = name ∧ h.params.map Param.bare = (ps.map fst).map Param.bare ∧
          h.returnMark.map TypeMark.bare = mark.map TypeMark.bare := by
    intro ps' c₄ hc₄ hps'
    refine .expectMark hc₄ fun c₅ hc₅ => ?_
    cases mark with
    | none =>
      obtain rfl : resultTokens = [] := hresult
      exact .otherMark (hc₅ ▸ hrest) (.pure hc₅ ⟨rfl, hps', rfl⟩)
    | some mark =>
      obtain ⟨typeTokens, hty, rfl⟩ := hresult
      refine .matchMark hc₅ fun c₆ hc₆ => ?_
      exact (typeMark_reads hty hc₆).bind fun mark' c₇ hc₇ hmark =>
        .pure hc₇ ⟨rfl, hps', by simp [TypeMark.bare, hmark]⟩
  cases ps with
  | nil =>
    rw [if_pos (by simp [isAtMark, token?_of_cons (show c₃.tokens = _ from hc₃)])]
    exact hafter [] c₃ hc₃ rfl
  | cons p ps =>
    obtain ⟨typeTokens, _, hts⟩ := h p (.head _)
    have hhead : c₃.tokens.head? = some (.identifier p.1.name) := by
      rw [hc₃]
      cases ps <;> simp [commas, hts]
    rw [if_neg (by simp [isAtMark, token?_eq, hhead])]
    have hfuel : (commas ((p :: ps).map snd)).length + 1 ≤ c₃.rest.length + 1 := by
      rw [length_rest, hc₃, length_append]
      omega
    exact (params_read h (cons_ne_nil _ _) hc₃ hfuel).bind fun ps' c₄ hc₄ hps' =>
      hafter ps' c₄ hc₄ hps'

/-- A function or a statement is read as it is spelled. -/
theorem item_reads (h : item.Spelled ts) (htokens : c.tokens = ts ++ rest)
    (hbreaks : Breaks rest) : (Reading.item c).Gives rest (·.bare = item.bare) := by
  cases h with
  | @statement s ts spelled =>
    obtain ⟨t, ts', rfl, hbegins⟩ := spelled.begins
    have hfuel : 4 * (t :: ts').length ≤ statementFuel c := by
      rw [statementFuel, length_rest, htokens, length_append]
      omega
    have hword : c.isAtWord .func = false := by
      simp only [isAtWord, token?_of_cons htokens, decide_eq_false_iff_not]
      rintro ⟨⟩
      cases hbegins
    rw [item, hword, if_neg (by simp)]
    exact (readsStmt_of_spelled spelled htokens hbreaks hfuel).map fun s' hs' => by
      simp [Item.bare, hs']
  | @function name params mark resultTokens body inner span header result statements =>
    have htokens : c.tokens = .keyword .func :: .identifier name ::
        (inParens (commas (params.map snd)) ++ (resultTokens ++ (blockTokens body ++ rest))) := by
      simpa using htokens
    obtain ⟨h, c₁, hread, hc₁, hname, hps, hmark⟩ := header_reads header result (by
      simp [blockTokens, inBraces]) htokens
    have hfuel : 4 * (body.map snd).flatten.length + 2 ≤ statementFuel c₁ := by
      rw [statementFuel, length_rest, hc₁, length_append, length_blockTokens]
      omega
    obtain ⟨b, c₂, hbody, hc₂, hb⟩ := block_reads statements
      (fun p hp => readsStmt_of_spelled (statements p hp)) inner hc₁ hfuel
    rw [item, if_pos (by simp [isAtWord, token?_of_cons htokens]), function,
      hread]
    dsimp only
    rw [hbody]
    exact ⟨_, c₂, rfl, hc₂, by simp [Item.bare, Function.bare, hname, hps, hmark, hb]⟩

theorem itemsOfScript_reads {parts : List (Item × List Token)} (h : ∀ p ∈ parts, p.1.Spelled p.2)
    (htokens : c.tokens = (parts.map snd).flatten)
    (hfuel : (parts.map snd).flatten.length + 1 ≤ fuel) :
    (itemsOfScript fuel c).Gives [] (·.map Item.bare = (parts.map fst).map Item.bare) := by
  induction parts generalizing c fuel with
  | nil =>
    obtain ⟨f, rfl⟩ := exists_succ hfuel
    have hempty : c.rest = [] := map_eq_nil_iff.mp htokens
    rw [itemsOfScript, if_pos (by simp [hempty])]
    exact ⟨[], c, rfl, htokens, rfl⟩
  | cons p parts ih =>
    obtain ⟨f, rfl⟩ := exists_succ hfuel
    obtain ⟨hp, hparts⟩ := forall_mem_cons.mp h
    rw [map_cons, flatten_cons] at htokens
    rw [map_cons, flatten_cons, length_append] at hfuel
    obtain ⟨t, ts, hts, -⟩ := hp.begins
    have hbreaks : Breaks (parts.map snd).flatten := by
      have := breaks_flatten (fun q hq => (hparts q hq).begins) (show Breaks [] by simp [Breaks])
      rwa [append_nil] at this
    obtain ⟨item', c₁, hfirst, hc₁, hitem⟩ := item_reads hp htokens hbreaks
    have hlength : p.2.length = ts.length + 1 := by rw [hts, length_cons]
    obtain ⟨items, c₂, hothers, hc₂, hitems⟩ := ih hparts hc₁ (show _ ≤ f by omega)
    rw [hts, cons_append] at htokens
    rw [itemsOfScript, isEmpty_of_cons htokens, if_neg (by simp)]
    exact ⟨item' :: items, c₂, by simp [hfirst, hothers], hc₂, by simp [hitem, hitems]⟩

end Reading

/-- **Reading inverts spelling.**  Whatever the spans of the lexemes, the tokens that spell a script
are read without faults, and the tree that is read is the script up to spans. -/
theorem ofLexemes_spelled {script : Script} {ts : List Token} (h : script.Spelled ts)
    {lexemes : List Lexeme} (hlexemes : lexemes.map Lexeme.token = ts) (endPosition : Nat) :
    ∃ read, (Script.ofLexemes lexemes endPosition).node = some read ∧ read.bare = script.bare ∧
      (Script.ofLexemes lexemes endPosition).faults = [] := by
  cases h with
  | @intro parts each =>
    have hlength : lexemes.length = (parts.map snd).flatten.length := by
      rw [← hlexemes, length_map]
    obtain ⟨items, c', hread, -, hitems⟩ := itemsOfScript_reads each
      (show tokens { rest := lexemes, endPosition := endPosition } = _ from hlexemes)
      (show _ ≤ lexemes.length + 1 by omega)
    refine ⟨{ items := items }, ?_, ?_, ?_⟩
    · rw [Script.ofLexemes, hread]
      rfl
    · simp [Script.bare, hitems]
    · rw [Script.ofLexemes, hread]
      rfl

/-- An expression that stands nowhere. -/
def Annotated.unplaced (kind : ExprKind) : Expr := ⟨kind, .nowhere, none, none⟩

/-- The statement `return (-v)[x] * (2 + x)`. -/
def weightedElement : Stmt :=
  ⟨.ret (.unplaced (.binary
    (.unplaced (.index (.unplaced (.negate (.unplaced (.name "v" none))))
      (.unplaced (.name "x" none))))
    .times
    (.unplaced (.binary (.unplaced (.int 2)) .plus (.unplaced (.name "x" none)))))), .nowhere⟩

/-- The tokens of `weightedElement`, with one pair of parentheses more than it needs. -/
def weightedElementTokens : List Token :=
  [.keyword .returnWord, .mark .leftParen, .mark .minus, .identifier "v", .mark .rightParen,
    .mark .leftBracket, .mark .leftParen, .identifier "x", .mark .rightParen, .mark .rightBracket,
    .mark .star, .mark .leftParen, .number 2, .mark .plus, .identifier "x", .mark .rightParen]

theorem weightedElement_spelled : weightedElement.Spelled weightedElementTokens := by
  have name : ∀ (level : Nat) (n : String),
      (unplaced (.name n none)).Spelled level [.identifier n] := fun _ _ => .atom rfl
  have two : (unplaced (.int 2)).Spelled plus.precedence [.number 2] := .atom rfl
  have target : (Annotated.unplaced (.negate (.unplaced (.name "v" none)))).Spelled indexLevel
      (inParens [.mark .minus, .identifier "v"]) := .parens (.negate (by decide) (name _ "v"))
  have sum : (unplaced (.binary (.unplaced (.int 2)) .plus
      (.unplaced (.name "x" none)))).Spelled (times.precedence + 1)
        (inParens [.number 2, .mark .plus, .identifier "x"]) :=
    .parens (.binary (Nat.zero_le _) two (name _ "x"))
  exact .ret (.binary (Nat.zero_le _) (.index target (.parens (name 0 "x"))) sum)

/-- The function `func f(v : [], x : int) : float { return (-v)[x] * (2 + x) }`. -/
def weightedFunction : Function where
  name := "f"
  params := [⟨"v", ⟨"[]", .nowhere⟩, .nowhere⟩, ⟨"x", ⟨"int", .nowhere⟩, .nowhere⟩]
  returnMark := some ⟨"float", .nowhere⟩
  body := ⟨[weightedElement], .nowhere, none⟩
  span := .nowhere

def weightedFunctionTokens : List Token :=
  [.keyword .func, .identifier "f", .mark .leftParen, .identifier "v", .mark .colon,
    .mark .leftBracket,
    .mark .rightBracket, .mark .comma, .identifier "x", .mark .colon, .keyword .int,
      .mark .rightParen,
    .mark .colon, .keyword .float, .mark .leftBrace] ++ weightedElementTokens ++ [.mark .rightBrace]

theorem weightedFunction_spelled :
    Script.Spelled { items := [.function weightedFunction] } weightedFunctionTokens := by
  refine @Script.Spelled.intro [(.function weightedFunction, weightedFunctionTokens)] fun p hp => ?_
  obtain rfl := mem_singleton.mp hp
  refine @Item.Spelled.function "f"
    [(⟨"v", ⟨"[]", .nowhere⟩, .nowhere⟩,
      [.identifier "v", .mark .colon, .mark .leftBracket, .mark .rightBracket]),
      (⟨"x", ⟨"int", .nowhere⟩, .nowhere⟩, [.identifier "x", .mark .colon, .keyword .int])]
    (some ⟨"float", .nowhere⟩) [.mark .colon, .keyword .float]
    [(weightedElement, weightedElementTokens)] .nowhere .nowhere (fun p hp => ?_) ?_ fun p hp => ?_
  · simp only [mem_cons, not_mem_nil, or_false] at hp
    rcases hp with rfl | rfl
    · exact ⟨_, rfl, rfl⟩
    · exact ⟨_, rfl, rfl⟩
  · exact ⟨_, rfl, rfl⟩
  · obtain rfl := mem_singleton.mp hp
    exact weightedElement_spelled

/-- Reading a spelled function: parentheses keep the sign under the index and the sum under the
product. -/
theorem ofLexemes_weightedFunction : ∃ read,
    (Script.ofLexemes (weightedFunctionTokens.map (⟨·, .nowhere⟩)) 0).node = some read ∧
      read.bare = Script.bare { items := [.function weightedFunction] } ∧
        (Script.ofLexemes (weightedFunctionTokens.map (⟨·, .nowhere⟩)) 0).faults = [] :=
  ofLexemes_spelled weightedFunction_spelled (by simp [Function.comp_def]) 0

end WichToC
