import WichToC.Proofs.Derivations

/-!
# Fuel of the readers

The readers call each other with less and less fuel, and one that has none left fails or ends.  It
never comes to that: each reader needs a fixed amount for every lexeme ahead and a little more, and
what it gives with this amount it gives with any larger one (`expr_steady`, `statement_steady`).

The amounts follow the calls.  A reader that calls another before it takes a token needs one unit
more than the other; the token pays for the longest chain of such calls, which has six readers of
expressions or four of statements.
-/

namespace WichToC

open List Cursor Reading

namespace Reading

variable {α β : Type} {c next : Cursor} {t : Token} {m : Mark} {what : String}
  {fuel fuel' least : Nat} {p q : Reading α}

/-! ## Steps that agree -/

theorem length_advance (h : c.token? = some t) : c.advance.rest.length + 1 = c.rest.length := by
  rw [length_rest, length_rest, tokens_of_token? h, length_cons]

theorem bind_congr {f g : α → Reading β} (h : p c = q c)
    (hf : ∀ a next, p c = .ok a next → f a next = g a next) : (p >>= f) c = (q >>= g) c := by
  show Reading.bind p f c = Reading.bind q g c
  rw [Reading.bind, Reading.bind, ← h]
  cases hread : p c with
  | ok a next => exact hf a next hread
  | fail fault next => rfl

theorem cursor_congr {f g : Cursor → Reading β} (h : f c c = g c c) :
    (cursor >>= f) c = (cursor >>= g) c :=
  h

theorem advance_congr {f g : Unit → Reading β} (h : f () c.advance = g () c.advance) :
    (advance >>= f) c = (advance >>= g) c :=
  h

theorem matchMark_congr {f g : Bool → Reading β}
    (hthere : c.advance.rest.length + 1 = c.rest.length → f true c.advance = g true c.advance)
    (hother : f false c = g false c) : (matchMark m >>= f) c = (matchMark m >>= g) c := by
  refine bind_congr rfl fun b next hread => ?_
  unfold matchMark at hread
  split at hread <;> rename_i hat <;> cases hread
  · exact hthere (length_advance (t := .mark m) (by simpa [isAtMark] using hat))
  · exact hother

theorem expectMark_congr {f g : Unit → Reading β}
    (h : c.advance.rest.length + 1 = c.rest.length → f () c.advance = g () c.advance) :
    (expectMark m what >>= f) c = (expectMark m what >>= g) c := by
  refine bind_congr rfl fun u next hread => ?_
  obtain ⟨hthere, rfl⟩ := expectMark_eq_ok hread
  exact h (length_advance hthere)

theorem TakesAt.congr {R : α → List Token → Cursor → Prop} {f g : α → Reading β}
    (htakes : p.TakesAt c R) (h : p c = q c)
    (hf : ∀ a next, next.rest.length ≤ c.rest.length → f a next = g a next) :
    (p >>= f) c = (q >>= g) c :=
  bind_congr h fun a next hread => hf a next (htakes.of_ok hread).1.rest.length_le

/-- With fuel for what is ahead, the readers of expressions give the same for both amounts. -/
structure ExprsAgree (fuel fuel' : Nat) : Prop where
  binary : ∀ least c, 6 * c.rest.length + 3 ≤ fuel →
    binary fuel least c = binary fuel' least c
  operators : ∀ least left c, 6 * c.rest.length + 1 ≤ fuel →
    operators fuel least left c = operators fuel' least left c
  unary : ∀ c, 6 * c.rest.length + 2 ≤ fuel → unary fuel c = unary fuel' c
  indices : ∀ target c, 6 * c.rest.length + 1 ≤ fuel →
    indices fuel target c = indices fuel' target c
  primary : ∀ c, 6 * c.rest.length + 1 ≤ fuel → primary fuel c = primary fuel' c
  list : ∀ close c, 6 * c.rest.length + 5 ≤ fuel →
    list fuel close c = list fuel' close c
  items : ∀ c, 6 * c.rest.length + 4 ≤ fuel → items fuel c = items fuel' c

namespace ExprsAgree

section

variable (h : ExprsAgree fuel fuel')

include h

theorem operators_succ (left : Expr) (hfuel : 6 * c.rest.length + 1 ≤ fuel + 1) :
    Reading.operators (fuel + 1) least left c = Reading.operators (fuel' + 1) least left c := by
  rw [Reading.operators, Reading.operators]
  refine cursor_congr ?_
  cases hop : c.token?.bind Operator.ofToken? with
  | none => rfl
  | some op =>
    obtain ⟨t, ht, -⟩ := Option.bind_eq_some_iff.mp hop
    have hlength := length_advance ht
    have hright := (exprReaders fuel).binary _ c.advance op.precedence_lt_signLevel
    dsimp only
    split
    · rfl
    refine advance_congr (hright.congr (h.binary _ _ (by omega)) fun right next hle => ?_)
    exact h.operators _ _ _ (by omega)

theorem unary_succ (hfuel : 6 * c.rest.length + 2 ≤ fuel + 1) :
    Reading.unary (fuel + 1) c = Reading.unary (fuel' + 1) c := by
  rw [Reading.unary, Reading.unary]
  refine cursor_congr (matchMark_congr (fun hlength => ?_) (matchMark_congr (fun hlength => ?_) ?_))
  · exact bind_congr (h.unary _ (by omega)) fun _ _ _ => rfl
  · exact bind_congr (h.unary _ (by omega)) fun _ _ _ => rfl
  · have htarget := (exprReaders fuel).primary c
    exact htarget.congr (h.primary c (by omega)) fun target next hle => h.indices _ _ (by omega)

theorem indices_succ (target : Expr) (hfuel : 6 * c.rest.length + 1 ≤ fuel + 1) :
    Reading.indices (fuel + 1) target c = Reading.indices (fuel' + 1) target c := by
  rw [Reading.indices, Reading.indices]
  refine matchMark_congr (fun hlength => ?_) rfl
  have hindex := (exprReaders fuel).binary 0 c.advance (Nat.zero_le _)
  refine hindex.congr (h.binary _ _ (by omega)) fun index next hle => ?_
  exact expectMark_congr fun hlength' => h.indices _ next.advance (by omega)

theorem primary_succ (hfuel : 6 * c.rest.length + 1 ≤ fuel + 1) :
    Reading.primary (fuel + 1) c = Reading.primary (fuel' + 1) c := by
  rw [Reading.primary, Reading.primary]
  refine cursor_congr ?_
  generalize ht : c.token? = token
  split
  case h_6 name =>
    have hlength := length_advance ht
    refine advance_congr (matchMark_congr (fun hlength' => ?_) rfl)
    exact bind_congr (h.list _ _ (by omega)) fun _ _ _ => rfl
  case h_7 =>
    have hlength := length_advance ht
    refine advance_congr (expectMark_congr fun hlength' => ?_)
    exact bind_congr (h.binary _ _ (by omega)) fun _ _ _ => rfl
  case h_8 =>
    have hlength := length_advance ht
    exact advance_congr (bind_congr (h.list _ _ (by omega)) fun _ _ _ => rfl)
  case h_9 =>
    have hlength := length_advance ht
    exact advance_congr (bind_congr (h.binary _ _ (by omega)) fun _ _ _ => rfl)
  all_goals rfl

theorem succ : ExprsAgree (fuel + 1) (fuel' + 1) where
  binary least c hfuel := by
    rw [Reading.binary, Reading.binary]
    have hleft := (exprReaders fuel).unary c
    exact hleft.congr (h.unary c (by omega)) fun left next hle => h.operators _ _ _ (by omega)
  operators _ left _ := h.operators_succ left
  unary _ := h.unary_succ
  indices target _ := h.indices_succ target
  primary _ := h.primary_succ
  list close c hfuel := by
    rw [Reading.list, Reading.list]
    refine cursor_congr ?_
    split
    · rfl
    · exact h.items c (by omega)
  items c hfuel := by
    rw [Reading.items, Reading.items]
    have hfirst := (exprReaders fuel).binary 0 c (Nat.zero_le _)
    refine hfirst.congr (h.binary _ _ (by omega)) fun first next hle => ?_
    refine matchMark_congr (fun hlength => ?_) rfl
    exact bind_congr (h.items _ (by omega)) fun _ _ _ => rfl

end

end ExprsAgree

/-- With fuel for what is ahead, the readers of statements give the same for both amounts. -/
structure StmtsAgree (fuel fuel' : Nat) : Prop where
  statement : ∀ c, 4 * c.rest.length + 2 ≤ fuel →
    statement fuel c = statement fuel' c
  conditional : ∀ c t, c.token? = some t → 4 * c.rest.length + 1 ≤ fuel →
    conditional fuel c = conditional fuel' c
  body : ∀ c, 4 * c.rest.length + 3 ≤ fuel → body fuel c = body fuel' c
  block : ∀ c, 4 * c.rest.length + 1 ≤ fuel → block fuel c = block fuel' c
  statements : ∀ c, 4 * c.rest.length + 3 ≤ fuel →
    statements fuel c = statements fuel' c

namespace StmtsAgree

theorem conditional_succ (h : StmtsAgree fuel fuel') (ht : c.token? = some t)
    (hfuel : 4 * c.rest.length + 1 ≤ fuel + 1) :
    Reading.conditional (fuel + 1) c = Reading.conditional (fuel' + 1) c := by
  rw [Reading.conditional, Reading.conditional]
  have hlength := length_advance ht
  cases hread : condition c.advance with
  | fail fault next => rfl
  | ok cond next =>
    have hle := ((condition_takes _).of_ok hread).1.rest.length_le
    have hle' := ((stmtReaders fuel).body next).meets.reaches.rest.length_le
    have hle'' := (reaches_advance (Reading.body fuel next).cursor).rest.length_le
    dsimp only
    rw [← h.body next (by omega), ← h.body _ (by omega)]

theorem statement_succ (h : StmtsAgree fuel fuel') (hfuel : 4 * c.rest.length + 2 ≤ fuel + 1) :
    Reading.statement (fuel + 1) c = Reading.statement (fuel' + 1) c := by
  rw [Reading.statement, Reading.statement]
  generalize ht : c.token? = token
  split
  · exact h.conditional c _ ht (by omega)
  · have hlength := length_advance ht
    cases hread : condition c.advance with
    | fail fault next => rfl
    | ok cond next =>
      have hle := ((condition_takes _).of_ok hread).1.rest.length_le
      dsimp only
      rw [← h.body next (by omega)]
  · rw [← h.block c (by omega)]
  all_goals rfl

theorem succ (h : StmtsAgree fuel fuel') : StmtsAgree (fuel + 1) (fuel' + 1) where
  statement _ := h.statement_succ
  conditional _ _ := h.conditional_succ
  body c hfuel := by
    rw [Reading.body, Reading.body, ← h.block c (by omega), ← h.statement c (by omega)]
  block c hfuel := by
    rw [Reading.block, Reading.block]
    cases hopen : expectMark .leftBrace "'\x7b'" c with
    | fail fault next => rfl
    | ok u next =>
      obtain ⟨ht, rfl⟩ := expectMark_eq_ok hopen
      have hlength := length_advance ht
      dsimp only
      rw [← h.statements _ (by omega)]
  statements c hfuel := by
    rw [Reading.statements, Reading.statements, ← h.statement c (by omega)]
    split
    case isTrue => rfl
    case isFalse hmore =>
      have hlt := ((stmtReaders fuel).statement c).next_lt (c := c)
        Located.Derived.ne_nil (by grind)
      dsimp only
      rw [← h.statements _ (by omega)]

end StmtsAgree

end Reading

end WichToC
