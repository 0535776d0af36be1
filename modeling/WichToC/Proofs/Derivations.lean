import WichToC.Proofs.Grammar

/-!
# Reading by the grammar

What is read is derived.  Every part of a script that reading makes, also between faults, is derived
from some tokens; a part that was read without faults is derived from the tokens that were taken for
it (`Outcome.TakesFrom`).  A script that was read without faults took all tokens
(`Script.ofLexemes_grammar`).
-/

namespace WichToC

open List Cursor Reading Lexeme Script Located Prod

variable {what name : String} {c next : Cursor} {fault : Diagnostic} {ts before : List Token}
    {α : Type} (lexemes : List Lexeme) (endPosition : Nat) (b : Block)

namespace Reading

variable {next : Cursor} {m : Mark}

theorem expectMark_eq_ok {u : Unit}
    (h : expectMark m what c = .ok u next) : c.token? = some (.mark m) ∧ next = c.advance := by
  unfold expectMark at h
  split at h
  case isTrue hat =>
    cases h
    exact ⟨by simpa [isAtMark] using hat, rfl⟩
  case isFalse => cases h

theorem expectMark_fail (h : expectMark m what c = .fail fault next) :
    next = c ∧ fault.span = some c.here ∧ fault.isError := by
  unfold expectMark at h
  split at h <;> cases h
  exact ⟨rfl, rfl, SyntaxFault.isError_diagnostic⟩

/-! ## Function headers -/

theorem typeMark_takes (c : Cursor) : typeMark.TakesAt c fun mark ts _ => mark.Spelled ts := by
  unfold typeMark
  refine .cursor ?_
  split
  case h_5 ht => exact .advance ht (.expectMark (.spanFrom fun span => .pure rfl))
  case h_6 => exact .fail _
  all_goals exact .advance ‹_› (.pure rfl)

theorem param_takes (c : Cursor) : param.TakesAt c fun p ts _ => p.Spelled ts := by
  unfold param
  refine .cursor (.identifier fun name => .expectMark ?_)
  refine (typeMark_takes _).bind fun mark ts _ hm => .spanFrom fun span => .pure ?_
  rw [append_nil]
  exact ⟨ts, hm, rfl⟩

theorem params_takes (fuel : Nat) (c : Cursor) : (params fuel).TakesAt c fun ps ts _ =>
    ∃ parts : List (Param × List Token), parts ≠ [] ∧ ps = parts.map fst ∧
      ts = commas (parts.map snd) ∧ ∀ p ∈ parts, p.1.Spelled p.2 := by
  induction fuel generalizing c with
  | zero => exact .fail _
  | succ fuel ih =>
    unfold params
    refine (param_takes c).bind fun first ts _ hf => .matchMark (fun _ => ?_) fun _ => .pure ?_
    · refine (ih _).bind ?_
      rintro _ _ _ ⟨parts, hne, rfl, rfl, hparts⟩
      refine .pure ⟨(first, ts) :: parts, cons_ne_nil _ _, rfl, ?_,
        forall_mem_cons.mpr ⟨hf, hparts⟩⟩
      cases parts with
      | nil => exact absurd rfl hne
      | cons p parts => simp [commas]
    · exact ⟨[(first, ts)], cons_ne_nil _ _, rfl, by simp [commas], by simpa using hf⟩

def Header.Spelled (h : Header) (ts : List Token) : Prop :=
  ∃ (params : List (Param × List Token)) (resultTokens : List Token),
    h.params = params.map fst ∧ (∀ p ∈ params, p.1.Spelled p.2) ∧
      SpelledResult h.returnMark resultTokens ∧
        ts = .keyword .func :: .identifier h.name ::
          (inParens (commas (params.map snd)) ++ resultTokens)

theorem header_takes (c : Cursor) : header.TakesAt c fun h ts _ => h.Spelled ts := by
  unfold header
  refine .expectWord (.identifier fun name => .expectMark (.cursor ?_))
  extract_lets rest
  have hrest : ∀ (parts : List (Param × List Token)) (last : Cursor),
    (∀ p ∈ parts, p.1.Spelled p.2) →
      (rest (parts.map fst)).TakesAt last fun h ts _ => h.Spelled
        (.keyword .func :: .identifier name :: .mark .leftParen ::
          (commas (parts.map snd) ++ ts)) := by
    intro parts last hparts
    refine .expectMark (.matchMark (fun _ => ?_) fun _ => .pure ?_)
    · refine (typeMark_takes _).bind fun mark ts _ hm => .pure ?_
      exact ⟨parts, .mark .colon :: ts, rfl, hparts, ⟨ts, hm, rfl⟩, by simp [inParens]⟩
    · exact ⟨parts, [], rfl, hparts, rfl, by simp [inParens]⟩
  split
  · have hnone : (Pure.pure [] : Reading (List Param)).TakesAt c.advance.advance.advance
        fun ps ts last => ps = [] ∧ ts = [] := .pure ⟨rfl, rfl⟩
    refine hnone.bind ?_
    rintro _ _ last ⟨rfl, rfl⟩
    exact hrest [] last (by simp)
  · refine (params_takes _ _).bind ?_
    rintro _ _ last ⟨parts, -, rfl, rfl, hparts⟩
    exact hrest parts last hparts

/-! ## Statements without blocks -/

variable {calls : Expr → List Token → Prop} {c : Cursor}

theorem condition_takes (c : Cursor) :
    condition.TakesAt c fun e ts _ => ∃ inner, e.Spelled 0 inner ∧ ts = inParens inner := by
  unfold condition
  refine .expectMark ((expr_takes _).bind fun cond ts _ hc => .expectMark (.pure ?_))
  exact ⟨ts, hc.spelled, rfl⟩

/-- A word and the condition after it. -/
theorem tokens_of_condition {w : Keyword} {cond : Expr}
    (hword : c.token? = some (.keyword w)) (hread : condition c.advance = .ok cond next) :
    c.Reaches next ∧ ∃ ts, cond.Spelled 0 ts ∧
      c.tokens = (.keyword w :: inParens ts) ++ next.tokens := by
  obtain ⟨hnext, _, htokens, ts, hcond, rfl⟩ := (condition_takes _).of_ok hread
  refine ⟨c.reaches_advance.trans hnext, ts, hcond, ?_⟩
  rw [tokens_of_token? hword, htokens, cons_append]

theorem fail_of_condition (hread : condition c.advance = .fail fault next) :
    c.Reaches next ∧ fault.span = some next.here ∧ fault.isError := by
  obtain ⟨hnext, hfault⟩ := (condition_takes _).of_fail hread
  exact ⟨c.reaches_advance.trans hnext, hfault⟩

theorem definition_takes (h : c.token? = some (.keyword .var)) :
    definition.TakesAt c fun s ts _ => s.Derived calls ts := by
  unfold definition
  refine .cursor (.advance h (.identifier fun name => .expectMark ((expr_takes _).bind ?_)))
  intro value ts _ hv
  refine .spanFrom fun span => .pure ?_
  rw [append_nil]
  exact .define hv.spelled

theorem printing_takes (h : c.token? = some (.keyword .print)) :
    printing.TakesAt c fun s ts _ => s.Derived calls ts := by
  unfold printing
  refine .cursor (.advance h (.expectMark (.cursor ?_)))
  extract_lets rest
  split
  · have hnone : (Pure.pure none : Reading (Option Expr)).TakesAt c.advance.advance
        fun value ts _ => value = none ∧ ts = [] := .pure ⟨rfl, rfl⟩
    refine hnone.bind ?_
    rintro _ _ last ⟨rfl, rfl⟩
    exact .expectMark (.spanFrom fun span => .pure .printNothing)
  · have hsome : (some <$> expr).TakesAt c.advance.advance
        fun value ts _ => ∃ e : Expr, value = some e ∧ e.Spelled 0 ts := by
      refine (expr_takes _).bind fun e ts _ he => .pure ?_
      rw [append_nil]
      exact ⟨e, rfl, he.spelled⟩
    refine hsome.bind ?_
    rintro _ ts last ⟨e, rfl, he⟩
    exact .expectMark (.spanFrom fun span => .pure (.print he))

theorem returning_takes (h : c.token? = some (.keyword .returnWord)) :
    returning.TakesAt c fun s ts _ => s.Derived calls ts := by
  unfold returning
  refine .cursor
    (.advance h ((expr_takes _).bind fun value ts _ hv => .spanFrom fun span => .pure ?_))
  rw [append_nil]
  exact .ret hv.spelled

/-- What is taken where a name and a parenthesis come next. -/
theorem expr_takes_call (hname : c.token? = some (.identifier name))
    (hnext : c.nextToken? = some (.mark .leftParen)) :
    expr.TakesAt c fun e ts _ => BeginsWithCall e ts := by
  have h := expr_takes c
  unfold TakesAt at h ⊢
  split <;> rename_i hread <;> rw [hread] at h
  · obtain ⟨hnext', ts, htokens, htaken⟩ := h
    refine ⟨hnext', ts, htokens, ?_⟩
    have hahead := tokens_of_token? hname
    rw [← token?_advance] at hnext
    rw [tokens_of_token? hnext] at hahead
    rw [hahead] at htokens
    rcases ts with _ | ⟨t, _ | ⟨t', ts⟩⟩
    · exact absurd rfl htaken.spelled.ne_nil
    · -- the reader does not stop between the name and the parenthesis
      rw [singleton_append, cons.injEq] at htokens
      refine absurd (token?_of_cons htokens.2.symm) (htaken.name name ?_)
      rw [htokens.1]
    · rw [cons_append, cons_append, cons.injEq, cons.injEq] at htokens
      obtain ⟨rfl, rfl, -⟩ := htokens
      exact .intro htaken.spelled
  · exact h

theorem named_takes (hname : c.token? = some (.identifier name)) :
    (named name).TakesAt c fun s ts _ => s.Derived BeginsWithCall ts := by
  unfold named
  refine .cursor ?_
  split <;> rename_i hnext
  · rw [← token?_advance] at hnext
    refine .advance hname (.advance hnext ((expr_takes _).bind fun value ts _ hv => ?_))
    refine .spanFrom fun span => .pure ?_
    rw [append_nil]
    exact .assign hv.spelled
  · rw [← token?_advance] at hnext
    refine .advance hname (.advance hnext ((expr_takes _).bind fun index ts _ hi => ?_))
    refine .expectMark (.expectMark ((expr_takes _).bind fun value ts' _ hv => ?_))
    refine .spanFrom fun span => .pure ?_
    have h : Derived BeginsWithCall ⟨.assignElement name index value none, span⟩
        (.identifier name :: (inBrackets ts ++ .mark .assign :: ts')) :=
      .assignElement hi.spelled hv.spelled
    simpa [inBrackets] using h
  · refine (expr_takes_call hname hnext).bind fun call ts _ hc => .spanFrom fun span => .pure ?_
    rw [append_nil]
    exact .call hc
  · exact .fail _

end Reading

/-! ## Parts with several faults -/

/-- What is known of a part of a script that was read from the place `c` on.  The faults are met one
after the other.  Every part that is made, also in the presence of faults, stands in the relation
`R` to some tokens, and leaves less to read if there are any; without faults a part is made, and
these are the tokens that were taken. -/
structure Outcome.TakesFrom {α : Type} (o : Outcome α) (c : Cursor) (R : α → List Token → Prop) :
    Prop where
  meets : c.Meets o.faults o.cursor
  built : ∀ a, o.node = some a →
    ∃ ts, R a ts ∧ (ts ≠ [] → o.cursor.rest.length < c.rest.length)
  errors : ∀ d ∈ o.faults, d.isError
  taken : o.faults = [] → ∃ a ts, o.node = some a ∧ c.tokens = ts ++ o.cursor.tokens ∧ R a ts

/-- Tokens that were taken are not left to read. -/
theorem Cursor.length_lt_of_tokens {d : Cursor} (h : c.tokens = ts ++ d.tokens)
    (hne : ts ≠ []) : d.rest.length < c.rest.length := by
  rw [length_rest, length_rest, h, length_append]
  grind

namespace Outcome.TakesFrom

variable {α β : Type} {R : α → List Token → Prop} {Q : β → List Token → Prop} {c : Cursor}

theorem made {o : Outcome α} {a : α} (h : o.TakesFrom c R) (ha : o.node = some a) : ∃ ts, R a ts :=
  (h.built a ha).imp fun _ => And.left

theorem failed (h : c.Reaches next ∧ fault.span = some next.here ∧ fault.isError) :
    (Outcome.failed fault next).TakesFrom c R where
  meets := .cons h.1 h.2.1 (.nil (.refl next))
  built a ha := by cases ha
  errors := by simpa [Outcome.failed] using h.2.2
  taken hnone := by cases hnone

theorem ofReading {p : Reading α} (h : p.TakesAt c fun a ts _ => R a ts) :
    (p.outcome c).TakesFrom c R := by
  unfold Reading.outcome
  split <;> rename_i hread
  · obtain ⟨hnext, ts, htokens, hr⟩ := h.of_ok hread
    refine ⟨.nil hnext, fun a ha => ?_, by simp, fun _ => ⟨_, ts, rfl, htokens, hr⟩⟩
    cases ha
    exact ⟨ts, hr, length_lt_of_tokens htokens⟩
  · exact failed (h.of_fail hread)

theorem mono {R' : α → List Token → Prop} {o : Outcome α} (h : o.TakesFrom c R)
    (himp : ∀ a ts, R a ts → R' a ts) : o.TakesFrom c R' where
  meets := h.meets
  built a ha := by
    obtain ⟨ts, hr, hlt⟩ := h.built a ha
    exact ⟨ts, himp a ts hr, hlt⟩
  errors := h.errors
  taken hfaults := by
    obtain ⟨a, ts, hnode, htaken, hr⟩ := h.taken hfaults
    exact ⟨a, ts, hnode, htaken, himp a ts hr⟩

/-- A larger part around one that was read; `before` are the tokens in front of it. -/
theorem map {o : Outcome α} {f : α → β} (h : o.TakesFrom next R)
    (hnext : c.Reaches next) (htokens : c.tokens = before ++ next.tokens)
    (hf : ∀ a ts, R a ts → Q (f a) (before ++ ts)) : (o.map f).TakesFrom c Q where
  meets := hnext.meets h.meets
  built b hb := by
    obtain ⟨a, ha, rfl⟩ := Option.map_eq_some_iff.mp hb
    obtain ⟨ts, hr, hlt⟩ := h.built a ha
    refine ⟨_, hf a ts hr, fun hne => ?_⟩
    by_cases hbefore : before = []
    · subst hbefore
      exact Nat.lt_of_lt_of_le (hlt hne) hnext.rest.length_le
    · exact Nat.lt_of_le_of_lt h.meets.reaches.rest.length_le (length_lt_of_tokens htokens hbefore)
  errors := h.errors
  taken hfaults := by
    obtain ⟨a, ts, hnode, htaken, hr⟩ := h.taken hfaults
    refine ⟨f a, before ++ ts, by simp [Outcome.map, hnode], ?_, hf a ts hr⟩
    rw [htokens, htaken, append_assoc]
    rfl

/-- Where reading goes on after a part: at its end, or after its faults. -/
theorem reaches_next (o : Outcome α) (c : Cursor) :
    o.cursor.Reaches (if o.node.isNone then o.cursor.recover c else o.cursor) := by
  split
  · exact reaches_recover ..
  · exact .refl _

/-- After a part less is left to read, also where reading goes on after faults. -/
theorem next_lt {o : Outcome α} (h : o.TakesFrom c R) (hne : ∀ {a ts}, R a ts → ts ≠ [])
    (hmore : c.rest ≠ []) :
    (if o.node.isNone then o.cursor.recover c else o.cursor).rest.length < c.rest.length := by
  cases hnode : o.node with
  | none => exact length_recover_lt h.meets.reaches hmore
  | some a =>
    obtain ⟨ts, hr, hlt⟩ := h.built a hnode
    exact hlt (hne hr)

theorem faults_ne_nil {o : Outcome α} (h : o.TakesFrom c R) (hnone : o.node = none) :
    o.faults ≠ [] := by
  intro hnil
  obtain ⟨a, ts, ha, -⟩ := h.taken hnil
  rw [hnone] at ha
  cases ha

end Outcome.TakesFrom

/-- Parts one after the other. -/
def DerivedEach {α : Type} (R : α → List Token → Prop) (as : List α) (ts : List Token) : Prop :=
  ∃ parts : List (α × List Token), as = parts.map fst ∧ ts = (parts.map snd).flatten ∧
    ∀ p ∈ parts, R p.1 p.2

namespace DerivedEach

variable {α : Type} {R : α → List Token → Prop} {a : α} {as : List α} {ts ts' : List Token}

theorem nil : DerivedEach R [] [] :=
  ⟨[], rfl, rfl, by simp⟩

theorem cons (h : R a ts) (hrest : DerivedEach R as ts') : DerivedEach R (a :: as) (ts ++ ts') := by
  obtain ⟨parts, rfl, rfl, hparts⟩ := hrest
  exact ⟨(a, ts) :: parts, rfl, rfl, forall_mem_cons.mpr ⟨h, hparts⟩⟩

end DerivedEach

/-- Nothing is left to read. -/
theorem Outcome.TakesFrom.none {R : α → List Token → Prop} (c : Cursor) :
    Outcome.TakesFrom { node := some [], faults := [], cursor := c } c (DerivedEach R) :=
  ⟨.nil (.refl c), fun as has => by cases has; exact ⟨[], .nil, fun h => absurd rfl h⟩, by simp,
    fun _ => ⟨[], [], rfl, rfl, .nil⟩⟩

/-- Parts read one after the other: the first, if there is one, in front of the others. -/
theorem Outcome.TakesFrom.cons {R : α → List Token → Prop}
    {first : Outcome α} {others : Outcome (List α)} (hf : first.TakesFrom c R)
    (ho : others.TakesFrom (if first.node.isNone then first.cursor.recover c else first.cursor)
      (DerivedEach R)) :
    Outcome.TakesFrom
      { node := some (first.node.toList ++ others.node.getD [])
        faults := first.faults ++ others.faults
        cursor := others.cursor } c (DerivedEach R) := by
  have hnext := reaches_next first c
  have hle := (hf.meets.reaches.trans hnext).rest.length_le
  refine ⟨hf.meets.append (hnext.meets ho.meets), fun as has => ?_, fun d hd => ?_,
    fun hfaults => ?_⟩
  · cases has
    obtain ⟨ts, hothers, hlt⟩ : ∃ ts, DerivedEach R (others.node.getD []) ts ∧
        (ts ≠ [] → others.cursor.rest.length < c.rest.length) := by
      cases hnode : others.node with
      | none => exact ⟨[], .nil, fun h => absurd rfl h⟩
      | some as =>
        obtain ⟨ts, hs, hlt⟩ := ho.built as hnode
        grind
    cases hnode : first.node with
    | none => exact ⟨ts, hothers, hlt⟩
    | some a =>
      obtain ⟨ts', ha, hlt'⟩ := hf.built a hnode
      refine ⟨ts' ++ ts, .cons ha hothers, fun hne => ?_⟩
      by_cases hts : ts' = []
      · grind
      · exact Nat.lt_of_le_of_lt (hnext.trans ho.meets.reaches).rest.length_le (hlt' hts)
  · rcases mem_append.mp hd with hd | hd
    · exact hf.errors d hd
    · exact ho.errors d hd
  · obtain ⟨hfirst, hrest⟩ := append_eq_nil_iff.mp hfaults
    obtain ⟨a, ts, ha, htaken, hr⟩ := hf.taken hfirst
    obtain ⟨as, ts', has, htaken', hrs⟩ := ho.taken hrest
    refine ⟨a :: as, ts ++ ts', by simp [ha, has], ?_, .cons hr hrs⟩
    grind

namespace Reading

/-! ## Readers of statements -/

/-- A block in braces. -/
def DerivedBlock (ts : List Token) : Prop :=
  ∃ (parts : List (Stmt × List Token)) (span : Span), b = blockOf parts span ∧
    ts = blockTokens parts ∧
    ∀ p ∈ parts, p.1.Derived BeginsWithCall p.2

/-- The body of a conditional statement or a loop. -/
def DerivedBody (ts : List Token) : Prop :=
  ∃ parts : List (Stmt × List Token), IsBody parts b ts ∧
    ∀ p ∈ parts, p.1.Derived BeginsWithCall p.2

/-- What all readers of statements and blocks take, for one amount of fuel. -/
structure StmtReaders (fuel : Nat) : Prop where
  statement : ∀ c, (statement fuel c).TakesFrom c (Derived BeginsWithCall)
  conditional : ∀ c, c.token? = some (.keyword .ifWord) →
    (conditional fuel c).TakesFrom c (Derived BeginsWithCall)
  body : ∀ c, (body fuel c).TakesFrom c DerivedBody
  block : ∀ c, (block fuel c).TakesFrom c DerivedBlock
  statements : ∀ c,
    (statements fuel c).TakesFrom c (DerivedEach (Derived BeginsWithCall))

namespace StmtReaders

variable {fuel : Nat} {c : Cursor}

section

variable (h : StmtReaders fuel)

include h

theorem conditional_succ (hword : c.token? = some (.keyword .ifWord)) :
    (Reading.conditional (fuel + 1) c).TakesFrom c (Derived BeginsWithCall) := by
  unfold Reading.conditional
  split <;> rename_i hread
  · exact .failed (fail_of_condition hread)
  rename_i cond next
  obtain ⟨hnext, ts, hcond, htokens⟩ := tokens_of_condition hword hread
  have hthen := h.body next
  dsimp only
  split
  case isFalse =>
    refine hthen.map hnext htokens ?_
    rintro b body ⟨parts, hbody, hparts⟩
    exact .ifThen hcond hbody hparts
  case isTrue helse =>
    have helse : (Reading.body fuel next).cursor.token? = some (.keyword .elseWord) := by
      simpa [isAtWord] using helse
    have hother := h.body (Reading.body fuel next).cursor.advance
    have hmeets := hthen.meets.append ((reaches_advance _).meets hother.meets)
    refine ⟨hnext.meets hmeets, fun s hs => ?_, fun d hd => ?_, fun hfaults => ?_⟩
    · simp only [Option.bind_eq_bind, Option.bind_eq_some_iff] at hs
      obtain ⟨elseBlock, he, thenBlock, ht, hs⟩ := hs
      cases hs
      obtain ⟨body, yes, hbody, hyes⟩ := hthen.made ht
      obtain ⟨body', no, hbody', hno⟩ := hother.made he
      refine ⟨_, .ifElse hcond hbody hyes hbody' hno, fun _ => ?_⟩
      exact Nat.lt_of_le_of_lt hmeets.reaches.rest.length_le
        (length_lt_of_tokens htokens (cons_ne_nil _ _))
    · rcases mem_append.mp hd with hd | hd
      · exact hthen.errors d hd
      · exact hother.errors d hd
    · obtain ⟨hnone, hnone'⟩ := append_eq_nil_iff.mp hfaults
      obtain ⟨thenBlock, body, ht, htaken, yes, hbody, hyes⟩ := hthen.taken hnone
      obtain ⟨elseBlock, body', he, htaken', no, hbody', hno⟩ := hother.taken hnone'
      refine ⟨_, _, by simp [ht, he]; rfl, ?_, .ifElse hcond hbody hyes hbody' hno⟩
      rw [htokens, htaken, tokens_of_token? helse, htaken']
      simp

theorem statement_succ (c : Cursor) :
    (Reading.statement (fuel + 1) c).TakesFrom c (Derived BeginsWithCall) := by
  unfold Reading.statement
  split <;> rename_i hword
  · exact h.conditional c hword
  · split <;> rename_i hread
    · exact .failed (fail_of_condition hread)
    · obtain ⟨hnext, ts, hcond, htokens⟩ := tokens_of_condition hword hread
      refine (h.body _).map hnext htokens ?_
      rintro b body ⟨parts, hbody, hparts⟩
      exact .loop hcond hbody hparts
  · refine (h.block c).map (.refl c) (nil_append _).symm ?_
    rintro _ _ ⟨parts, span, rfl, rfl, hparts⟩
    exact .block hparts
  · exact .ofReading (definition_takes hword)
  · exact .ofReading (printing_takes hword)
  · exact .ofReading (returning_takes hword)
  · exact .ofReading (named_takes hword)
  · exact .failed ⟨.refl c, rfl, rfl⟩
  · exact .failed ⟨.refl c, rfl, rfl⟩

theorem block_succ (c : Cursor) : (Reading.block (fuel + 1) c).TakesFrom c DerivedBlock := by
  unfold Reading.block
  split <;> rename_i hopen
  · obtain ⟨rfl, hfault⟩ := expectMark_fail hopen
    exact .failed ⟨.refl _, hfault⟩
  rename_i next
  obtain ⟨hleft, rfl⟩ := expectMark_eq_ok hopen
  have hopened : c.tokens = [_] ++ c.advance.tokens := tokens_of_token? hleft
  have hinner := h.statements c.advance
  have hmade {last : Cursor} (hlast : c.advance.Reaches last) : ∀ span, ∃ ts,
      DerivedBlock ⟨(Reading.statements fuel c.advance).node.getD [], span, none⟩ ts ∧
        (ts ≠ [] → last.rest.length < c.rest.length) := by
    intro span
    have hlt : ∀ ts : List Token, ts ≠ [] → last.rest.length < c.rest.length := fun _ _ =>
      Nat.lt_of_le_of_lt hlast.rest.length_le
        (length_lt_of_tokens hopened (cons_ne_nil _ _))
    cases hnode : (Reading.statements fuel c.advance).node with
    | none => exact ⟨_, ⟨[], span, rfl, rfl, by simp⟩, hlt _⟩
    | some ss =>
      obtain ⟨_, parts, rfl, rfl, hparts⟩ := hinner.made hnode
      exact ⟨_, ⟨parts, span, rfl, rfl, hparts⟩, hlt _⟩
  dsimp only
  split <;> rename_i hclose
  · obtain ⟨hright, rfl⟩ := expectMark_eq_ok hclose
    have hmeets := hinner.meets.append (.nil (reaches_advance _))
    rw [append_nil] at hmeets
    refine ⟨c.reaches_advance.meets hmeets, fun b hb => by cases hb; exact hmade hmeets.reaches _,
      hinner.errors, fun hfaults => ?_⟩
    obtain ⟨_, _, hnode, htaken, parts, rfl, rfl, hparts⟩ := hinner.taken hfaults
    refine ⟨_, blockTokens parts, rfl, ?_, parts, _, by rw [hnode]; rfl, rfl, hparts⟩
    rw [tokens_of_token? hleft, htaken, tokens_of_token? hright]
    simp [blockTokens, inBraces]
  · obtain ⟨rfl, hspan, herror⟩ := expectMark_fail hclose
    have hmeets := hinner.meets.append (.cons (.refl _) hspan (.nil (.refl _)))
    refine ⟨c.reaches_advance.meets hmeets, fun b hb => by cases hb; exact hmade hmeets.reaches _,
      fun d hd => ?_, fun hfaults => ?_⟩
    · rcases mem_append.mp hd with hd | hd
      · exact hinner.errors d hd
      · grind
    · cases (append_eq_nil_iff.mp hfaults).2

theorem succ : StmtReaders (fuel + 1) where
  statement := h.statement_succ
  conditional c := h.conditional_succ
  body c := by
    unfold Reading.body
    split
    · refine (h.block c).mono ?_
      rintro _ _ ⟨parts, span, rfl, rfl, hparts⟩
      exact ⟨parts, .braces, hparts⟩
    · refine (h.statement c).map (.refl c) (nil_append _).symm fun s ts hs => ?_
      exact ⟨[(s, ts)], .single, by simpa using hs⟩
  block := h.block_succ
  statements c := by
    unfold Reading.statements
    split
    · exact .none c
    · exact .cons (h.statement c) (h.statements _)

end

end StmtReaders

theorem stmtReaders (fuel : Nat) : StmtReaders fuel := by
  induction fuel with
  | zero =>
    constructor
    case statement => intro c; unfold statement; exact .failed ⟨.refl c, rfl, rfl⟩
    case conditional => intro c _; unfold conditional; exact .failed ⟨.refl c, rfl, rfl⟩
    case body => intro c; unfold body; exact .failed ⟨.refl c, rfl, rfl⟩
    case block => intro c; unfold block; exact .failed ⟨.refl c, rfl, rfl⟩
    case statements => intro c; unfold statements; exact .none c
  | succ fuel ih => exact ih.succ

/-! ## Turns of the loops -/

/-- The turns of a loop over parts, up to a place where it stops.  A part that is made stands in
front of those of the turns after it.  A turn that makes none has a fault, and the next one begins
where reading goes on after it.  All faults are kept, and every turn leaves less to read. -/
inductive Turns (read : Cursor → Outcome α) (stops : Cursor → Bool) :
    Cursor → Outcome (List α) → Prop
  | stop {c : Cursor} : stops c → Turns read stops c ⟨some [], [], c⟩
  | made {c : Cursor} {a : α} {as : List α} {faults : List Diagnostic} {last : Cursor} :
    ¬stops c → (read c).node = some a → (read c).cursor.rest.length < c.rest.length →
    Turns read stops (read c).cursor ⟨some as, faults, last⟩ →
    Turns read stops c ⟨some (a :: as), (read c).faults ++ faults, last⟩
  | skipped {c : Cursor} {as : List α} {faults : List Diagnostic} {last : Cursor} :
    ¬stops c → (read c).node = none → (read c).faults ≠ [] →
    ((read c).cursor.recover c).rest.length < c.rest.length →
    Turns read stops ((read c).cursor.recover c) ⟨some as, faults, last⟩ →
    Turns read stops c ⟨some as, (read c).faults ++ faults, last⟩

namespace Turns

variable {read : Cursor → Outcome α} {stops : Cursor → Bool} {o o' : Outcome (List α)}

/-- One turn in front of others. -/
theorem cons {others : Outcome (List α)} {R : α → List Token → Prop}
    (hread : (read c).TakesFrom c R) (hne : ∀ {a ts}, R a ts → ts ≠ [])
    (hmore : ¬stops c) (hrest : c.rest ≠ [])
    (h : Turns read stops
      (if (read c).node.isNone then (read c).cursor.recover c else (read c).cursor) others) :
    Turns read stops c
      { node := some ((read c).node.toList ++ others.node.getD [])
        faults := (read c).faults ++ others.faults
        cursor := others.cursor } := by
  obtain ⟨as, faults, last, rfl⟩ : ∃ as faults last, others = ⟨some as, faults, last⟩ := by
    cases h <;> exact ⟨_, _, _, rfl⟩
  have hlt := hread.next_lt hne hrest
  cases hnode : (read c).node with
  | none =>
    rw [hnode] at h hlt
    exact .skipped hmore hnode (hread.faults_ne_nil hnode) hlt h
  | some a =>
    rw [hnode] at h hlt
    exact .made hmore hnode hlt h

/-- A loop ends at a place where it stops. -/
theorem stops_cursor (h : Turns read stops c o) : stops o.cursor := by
  induction h with
  | stop hstop => exact hstop
  | made _ _ _ _ ih => exact ih
  | skipped _ _ _ _ _ ih => exact ih

end Turns

/-! ## Scripts -/

theorem function_takes (c : Cursor) :
    (function c).TakesFrom c fun f ts => Item.Derived BeginsWithCall (.function f) ts := by
  unfold function
  split <;> rename_i hread
  · exact .failed ((header_takes c).of_fail hread)
  · rename_i h next
    obtain ⟨hnext, _, htokens, params, resultTokens, hparams, hspelled, hresult, rfl⟩ :=
      (header_takes c).of_ok hread
    refine ((stmtReaders _).block next).map hnext htokens ?_
    rintro _ _ ⟨parts, span, rfl, rfl, hparts⟩
    rw [hparams, cons_append, cons_append, append_assoc]
    exact .function hspelled hresult hparts

theorem item_takes (c : Cursor) : (item c).TakesFrom c (Item.Derived BeginsWithCall) := by
  unfold item
  split
  · exact (function_takes c).map (.refl c) (nil_append _).symm fun f ts hf => hf
  · exact ((stmtReaders _).statement c).map (.refl c) (nil_append _).symm fun s ts hs =>
      .statement hs

/-- The items of a script take tokens as long as there are any. -/
theorem itemsOfScript_takes (fuel : Nat) (c : Cursor) :
    (itemsOfScript fuel c).TakesFrom c (DerivedEach (Item.Derived BeginsWithCall)) := by
  induction fuel generalizing c with
  | zero => exact .none c
  | succ fuel ih =>
    unfold itemsOfScript
    split
    · exact .none c
    · exact .cons (item_takes c) (ih _)

/-- The turns of the loop over items, with fuel for every lexeme ahead. -/
theorem itemsOfScript_turns {fuel : Nat} (h : c.rest.length < fuel) :
    Turns item (·.rest.isEmpty) c (itemsOfScript fuel c) := by
  induction fuel generalizing c with
  | zero => omega
  | succ fuel ih =>
    rw [itemsOfScript]
    split
    case isTrue hstop => exact .stop hstop
    case isFalse hmore =>
      have hrest : c.rest ≠ [] := by grind
      have hlt := (item_takes c).next_lt Item.Derived.ne_nil hrest
      exact .cons (item_takes c) Item.Derived.ne_nil hmore hrest (ih (by omega))

end Reading

namespace Script

/-- **Reading a sequence of lexemes.** -/
theorem ofLexemes_takes : (ofLexemes lexemes endPosition).TakesFrom ⟨lexemes, none, endPosition⟩
      (Derived BeginsWithCall) := by
  refine (itemsOfScript_takes _ _).map (.refl _) (nil_append _).symm ?_
  rintro _ _ ⟨parts, rfl, rfl, hparts⟩
  exact .intro hparts

/-- Reading takes all tokens. -/
theorem rest_ofLexemes : (ofLexemes lexemes endPosition).cursor.rest = [] :=
  isEmpty_iff.mp (itemsOfScript_turns (Nat.lt_succ_self _)).stops_cursor

/-- A script that was read without a fault is derived from all tokens. -/
theorem derived_of_faults {lexemes : List Lexeme} {endPosition : Nat}
    (h : (ofLexemes lexemes endPosition).faults = []) :
    ∃ script, (ofLexemes lexemes endPosition).node = some script ∧
      script.Derived BeginsWithCall (lexemes.map token) := by
  obtain ⟨script, ts, hnode, htaken, hderived⟩ := (ofLexemes_takes lexemes endPosition).taken h
  have hend : (ofLexemes lexemes endPosition).cursor.tokens = [] := by
    rw [tokens, rest_ofLexemes, map_nil]
  rw [hend, append_nil] at htaken
  refine ⟨script, hnode, ?_⟩
  rwa [show lexemes.map token = ts from htaken]

end Script

/-- **The grammar of what is read.**  A sequence of lexemes that is read without a fault holds no
error token and derives the script that was read, where every expression that begins with a call may
stand as a statement.  It derives this script with calls alone as statements exactly if each call
statement of the script is a call. -/
theorem Script.ofLexemes_grammar (h : (ofLexemes lexemes endPosition).faults = []) :
    ∃ script, (ofLexemes lexemes endPosition).node = some script ∧
      script.Derived BeginsWithCall (lexemes.map token) ∧
      .error ∉ lexemes.map token ∧
      (script.Derived CallAlone (lexemes.map token) ↔
        ∀ s ∈ script.nodes, ∀ e ∈ s.kind.calls, ∃ name args symbol, e.kind =
          .call name args symbol) := by
  obtain ⟨script, hnode, hderived⟩ := derived_of_faults h
  exact ⟨script, hnode, hderived, hderived.error_not_mem, hderived.callAlone_iff⟩

/-- A script with a function, a conditional statement without braces and two call statements. -/
def loopWithCalls : List Lexeme :=
  lex "func f(x : int, v : []) : int \x7b while (x < 2) x = x + 1 return -x \x7d
    if (f(1, [2.5]) == 1) print(\"one\") else \x7b f(2, []) \x7d f(3, [1])"

set_option maxRecDepth 20000 in
theorem ofLexemes_grammar_loopWithCalls : (ofLexemes loopWithCalls 137).faults = [] ∧
    ∃ script, (ofLexemes loopWithCalls 137).node = some script ∧
      script.Derived BeginsWithCall (loopWithCalls.map token) ∧
      .error ∉ loopWithCalls.map token ∧
      (script.Derived CallAlone (loopWithCalls.map token) ↔
        ∀ s ∈ script.nodes, ∀ e ∈ s.kind.calls,
          ∃ name args symbol, e.kind = .call name args symbol) := by
  have hfaults : (ofLexemes loopWithCalls 137).faults = [] := by decide +kernel
  exact ⟨hfaults, ofLexemes_grammar loopWithCalls 137 hfaults⟩

set_option maxRecDepth 20000 in
/-- `f() + 1` is read without a fault as a call statement, but no script with calls alone as
statements is derived from its tokens. -/
theorem callPlusOne_not_derived : (ofLexemes (lex "f() + 1") 7).faults = [] ∧
      ∀ script : Script, ¬script.Derived CallAlone ((lex "f() + 1").map token) := by
  have htokens : (lex "f() + 1").map token =
      [.identifier "f", .mark .leftParen, .mark .rightParen, .mark .plus, .number 1] := by
    decide +kernel
  refine ⟨by decide +kernel, fun script => ?_⟩
  rw [htokens]
  exact not_derived_of_operator (by simp) (by simp)

end WichToC
