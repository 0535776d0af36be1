import WichToC.Proofs.ExprGrammar

/-!
# The grammar of scripts

`Script.Derived` is the grammar: which sequences of tokens a script stands for.  The body of a
conditional statement or a loop is a block or a single statement, which gets a block of its own.
Expressions are spelled as in `Annotated.Spelled`.

What may stand as a call statement is left open.  The reader takes every expression that begins with
a call (`BeginsWithCall`), so that `f(x) + 1` is a statement; the narrower rule asks for a call and
nothing else (`CallAlone`).
-/

namespace WichToC

open List Prod Located

variable {parts : List (Stmt × List Token)} {ts : List Token} {item : Item} {e : Expr}
  {script : Script} {name : String}

/-! ## Derivations -/

/-- A call with nothing around it: a name and arguments in parentheses. -/
inductive CallAlone : Expr → List Token → Prop
  | intro {name : String} {parts : List (Expr × List Token)} {span : Span}
      (args : ∀ p ∈ parts, p.1.Spelled 0 p.2) :
      CallAlone ⟨.call name (parts.map fst) none, span, none, none⟩
        (.identifier name :: inParens (commas (parts.map snd)))

/-- An expression whose first tokens are a name and a parenthesis. -/
inductive BeginsWithCall : Expr → List Token → Prop
  | intro {name : String} {e : Expr} {ts : List Token}
      (spelled : e.Spelled 0 (.identifier name :: .mark .leftParen :: ts)) :
      BeginsWithCall e (.identifier name :: .mark .leftParen :: ts)

/-- The body of a conditional statement or a loop, whose statements are given with their tokens. -/
inductive IsBody : List (Stmt × List Token) → Block → List Token → Prop
  | braces {parts : List (Stmt × List Token)} {span : Span} :
      IsBody parts (blockOf parts span) (blockTokens parts)
  | single {s : Stmt} {ts : List Token} : IsBody [(s, ts)] ⟨[s], s.span, none⟩ ts

/-- Tokens from which a statement is derived, where `calls` says what a call statement is. -/
inductive Located.Derived (calls : Expr → List Token → Prop) : Stmt → List Token → Prop
  | ifThen {cond : Expr} {ts body : List Token} {yes : List (Stmt × List Token)} {thenBlock : Block}
      {span : Span} (condition : cond.Spelled 0 ts) (thenBody : IsBody yes thenBlock body)
      (thenParts : ∀ p ∈ yes, Derived calls p.1 p.2) :
      Derived calls ⟨.ifElse cond thenBlock none, span⟩ (.keyword .ifWord :: (inParens ts ++ body))
  | ifElse {cond : Expr} {ts body body' : List Token} {yes no : List (Stmt × List Token)}
      {thenBlock elseBlock : Block} {span : Span} (condition : cond.Spelled 0 ts)
      (thenBody : IsBody yes thenBlock body) (thenParts : ∀ p ∈ yes, Derived calls p.1 p.2)
      (elseBody : IsBody no elseBlock body') (elseParts : ∀ p ∈ no, Derived calls p.1 p.2) :
      Derived calls ⟨.ifElse cond thenBlock (some elseBlock), span⟩
        (.keyword .ifWord :: (inParens ts ++ (body ++ .keyword .elseWord :: body')))
  | loop {cond : Expr} {ts body : List Token} {parts : List (Stmt × List Token)} {block : Block}
      {span : Span} (condition : cond.Spelled 0 ts) (loopBody : IsBody parts block body)
      (loopParts : ∀ p ∈ parts, Derived calls p.1 p.2) :
      Derived calls ⟨.loop cond block, span⟩ (.keyword .whileWord :: (inParens ts ++ body))
  | define {name : String} {e : Expr} {ts : List Token} {span : Span} (value : e.Spelled 0 ts) :
      Derived calls ⟨.define name e none, span⟩
        (.keyword .var :: .identifier name :: .mark .assign :: ts)
  | assign {name : String} {e : Expr} {ts : List Token} {span : Span} (value : e.Spelled 0 ts) :
      Derived calls ⟨.assign name e none, span⟩ (.identifier name :: .mark .assign :: ts)
  | assignElement {name : String} {i e : Expr} {ts ts' : List Token} {span : Span}
      (index : i.Spelled 0 ts) (value : e.Spelled 0 ts') :
      Derived calls ⟨.assignElement name i e none, span⟩
        (.identifier name :: (inBrackets ts ++ .mark .assign :: ts'))
  | call {e : Expr} {ts : List Token} {span : Span} (rule : calls e ts) :
      Derived calls ⟨.call e, span⟩ ts
  | printNothing {span : Span} : Derived calls ⟨.print none, span⟩ (.keyword .print :: inParens [])
  | print {e : Expr} {ts : List Token} {span : Span} (value : e.Spelled 0 ts) :
      Derived calls ⟨.print (some e), span⟩ (.keyword .print :: inParens ts)
  | ret {e : Expr} {ts : List Token} {span : Span} (value : e.Spelled 0 ts) :
      Derived calls ⟨.ret e, span⟩ (.keyword .returnWord :: ts)
  | block {parts : List (Stmt × List Token)} {inner span : Span}
      (blockParts : ∀ p ∈ parts, Derived calls p.1 p.2) :
      Derived calls ⟨.block (blockOf parts inner), span⟩ (blockTokens parts)

/-- Tokens from which a function or a statement is derived. -/
inductive Item.Derived (calls : Expr → List Token → Prop) : Item → List Token → Prop
  | function {name : String} {params : List (Param × List Token)} {mark : Option TypeMark}
      {resultTokens : List Token} {body : List (Stmt × List Token)} {inner span : Span}
      (header : ∀ p ∈ params, p.1.Spelled p.2) (result : SpelledResult mark resultTokens)
      (statements : ∀ p ∈ body, p.1.Derived calls p.2) :
      Derived calls (.function
        { name := name, params := params.map fst, returnMark := mark, body := blockOf body inner,
          span := span })
        (.keyword .func :: .identifier name :: (inParens (commas (params.map snd)) ++
          (resultTokens ++ blockTokens body)))
  | statement {s : Stmt} {ts : List Token} (derived : s.Derived calls ts) :
      Derived calls (.statement s) ts

inductive Script.Derived (calls : Expr → List Token → Prop) : Script → List Token → Prop
  | intro {parts : List (Item × List Token)} (each : ∀ p ∈ parts, p.1.Derived calls p.2) :
      Derived calls { items := parts.map fst } (parts.map snd).flatten

theorem IsBody.statements {b : Block} (h : IsBody parts b ts) : b.statements = parts.map fst := by
  cases h <;> rfl

theorem IsBody.scope {b : Block} (h : IsBody parts b ts) : b.scope = none := by
  cases h <;> rfl

/-- The symbol of the variable that a statement defines or assigns to. -/
def StmtKind.symbol : StmtKind → Option SymbolId
  | .define _ _ symbol | .assign _ _ symbol | .assignElement _ _ _ symbol => symbol
  | _ => none

/-- A derived statement, apart from the statements in its blocks: its expressions are spelled
somehow, and it has no symbols and no scopes. -/
structure StmtKind.Written (rule : Expr → List Token → Prop) (k : StmtKind) : Prop where
  exprs : ∀ e ∈ k.exprs, (∃ ts, rule e ts) ∨ ∃ ts, e.Spelled 0 ts
  calls : ∀ e ∈ k.calls, ∃ ts, rule e ts
  symbol : k.symbol = none
  scopes : ∀ b ∈ k.blocks, b.scope = none

namespace StmtKind.Written

variable {rule : Expr → List Token → Prop} {k : StmtKind}

/-- A statement that is no call. -/
theorem of_exprs (hcalls : k.calls = []) (hsymbol : k.symbol = none)
    (hexprs : ∀ e ∈ k.exprs, ∃ ts, e.Spelled 0 ts) (hscopes : ∀ b ∈ k.blocks, b.scope = none) :
    k.Written rule :=
  ⟨fun e he => .inr (hexprs e he), by simp [hcalls], hsymbol, hscopes⟩

end StmtKind.Written

namespace Located.Derived

variable {calls calls' : Expr → List Token → Prop} {s : Stmt} {ts : List Token}

/-- A derived statement is written, and so are all statements inside it. -/
theorem written (h : s.Derived calls ts) : ∀ c ∈ s.nodes, c.kind.Written calls := by
  have hinside : ∀ {parts : List (Stmt × List Token)} {b : Block}, b.statements = parts.map fst →
      (∀ p ∈ parts, ∀ c ∈ p.1.nodes, c.kind.Written calls) →
        ∀ c ∈ b.statements, ∀ n ∈ c.nodes, n.kind.Written calls := by
    intro parts b hb hparts c hc
    rw [hb] at hc
    obtain ⟨p, hp, rfl⟩ := mem_map.mp hc
    exact hparts p hp
  induction h with
  | ifThen condition thenBody thenParts ih =>
    refine forall_nodes.mpr ⟨.of_exprs rfl rfl ?_ ?_, ?_⟩
    · simpa using ⟨_, condition⟩
    · simpa using thenBody.scope
    · simpa using hinside thenBody.statements ih
  | ifElse condition thenBody thenParts elseBody elseParts ih ih' =>
    refine forall_nodes.mpr ⟨.of_exprs rfl rfl ?_ ?_, ?_⟩
    · simpa using ⟨_, condition⟩
    · simpa using ⟨thenBody.scope, elseBody.scope⟩
    · simpa using
        ⟨hinside thenBody.statements ih, hinside elseBody.statements ih'⟩
  | loop condition loopBody loopParts ih =>
    refine forall_nodes.mpr ⟨.of_exprs rfl rfl ?_ ?_, ?_⟩
    · simpa using ⟨_, condition⟩
    · simpa using loopBody.scope
    · simpa using hinside loopBody.statements ih
  | block blockParts ih =>
    refine forall_nodes.mpr ⟨.of_exprs rfl rfl (by simp) ?_, ?_⟩
    · simp [blockOf]
    · simpa only [StmtKind.blocks, mem_singleton, forall_eq] using hinside rfl ih
  | call rule =>
    refine forall_nodes.mpr ⟨⟨?_, ?_, rfl, by simp⟩, by simp⟩
    · simpa using Or.inl ⟨_, rule⟩
    · simpa [StmtKind.calls] using ⟨_, rule⟩
  | printNothing =>
    exact forall_nodes.mpr ⟨.of_exprs rfl rfl (by simp)
      (by simp), by simp⟩
  | assignElement index value =>
    refine forall_nodes.mpr ⟨.of_exprs rfl rfl ?_ (by simp), by simp⟩
    simpa using ⟨⟨_, index⟩, ⟨_, value⟩⟩
  | define value | assign value | print value | ret value =>
    refine forall_nodes.mpr ⟨.of_exprs rfl rfl ?_ (by simp), by simp⟩
    simpa using ⟨_, value⟩

/-- The same derivation under another rule for the call statements that occur in it. -/
theorem imp (h : s.Derived calls ts)
    (himp : ∀ c ∈ s.nodes, ∀ e ∈ c.kind.calls, ∀ ts, calls e ts → calls' e ts) :
    s.Derived calls' ts := by
  have hinside : ∀ {parts : List (Stmt × List Token)} {b : Block}, b.statements = parts.map fst →
      (∀ p ∈ parts, (∀ c ∈ p.1.nodes, ∀ e ∈ c.kind.calls, ∀ ts, calls e ts → calls' e ts) →
        p.1.Derived calls' p.2) →
      (∀ c ∈ b.statements, ∀ n ∈ c.nodes, ∀ e ∈ n.kind.calls, ∀ ts, calls e ts → calls' e ts) →
        ∀ p ∈ parts, p.1.Derived calls' p.2 := by grind
  induction h with
  | ifThen condition thenBody thenParts ih =>
    have hblocks := (forall_nodes.mp himp).2
    exact .ifThen condition thenBody
      (hinside thenBody.statements ih (hblocks _ (.head _)))
  | ifElse condition thenBody thenParts elseBody elseParts ih ih' =>
    have hblocks := (forall_nodes.mp himp).2
    exact .ifElse condition thenBody
      (hinside thenBody.statements ih (hblocks _ (.head _))) elseBody
      (hinside elseBody.statements ih' (hblocks _ (.tail _ (.head _))))
  | loop condition loopBody loopParts ih =>
    have hblocks := (forall_nodes.mp himp).2
    exact .loop condition loopBody
      (hinside loopBody.statements ih (hblocks _ (.head _)))
  | block blockParts ih =>
    have hblocks := (forall_nodes.mp himp).2
    exact .block (hinside rfl ih (hblocks _ (.head _)))
  | call rule =>
    exact .call ((forall_nodes.mp himp).1 _ (.head _) _ rule)
  | define value => exact .define value
  | assign value => exact .assign value
  | assignElement index value => exact .assignElement index value
  | printNothing => exact .printNothing
  | print value => exact .print value
  | ret value => exact .ret value

end Located.Derived

theorem Located.Derived.ne_nil {s : Stmt} (h : s.Derived BeginsWithCall ts) : ts ≠ [] := by
  cases h with
  | call rule => cases rule; exact cons_ne_nil _ _
  | ifThen | ifElse | loop | define | assign | assignElement | printNothing | print | ret
  | block => exact cons_ne_nil _ _

theorem Item.Derived.ne_nil (h : item.Derived BeginsWithCall ts) : ts ≠ [] := by
  cases h with
  | function => exact cons_ne_nil _ _
  | statement derived => exact derived.ne_nil

namespace Item.Derived

variable {calls calls' : Expr → List Token → Prop} {item : Item} {ts : List Token}

theorem written (h : item.Derived calls ts) : ∀ s ∈ item.nodes, s.kind.Written calls := by
  intro s hs
  cases h with
  | statement derived => exact derived.written s hs
  | function _ _ statements =>
    rw [Item.nodes, BlockOf.nodes_eq] at hs
    obtain ⟨c, hc, hs⟩ := mem_flatMap.mp hs
    obtain ⟨p, hp, rfl⟩ := mem_map.mp hc
    exact (statements p hp).written s hs

theorem imp (h : item.Derived calls ts)
    (himp : ∀ s ∈ item.nodes, ∀ e ∈ s.kind.calls, ∀ ts, calls e ts → calls' e ts) :
    item.Derived calls' ts := by
  cases h with
  | statement derived => exact .statement (derived.imp himp)
  | function header result statements =>
    refine .function header result fun p hp => (statements p hp).imp fun s hs => himp s ?_
    rw [Item.nodes, BlockOf.nodes_eq]
    exact mem_flatMap.mpr ⟨p.1, mem_map_of_mem hp, hs⟩

end Item.Derived

/-! ## Error tokens -/

@[simp] theorem error_mem_inParens : .error ∈ inParens ts ↔ .error ∈ ts := by
  simp [inParens]

@[simp] theorem error_mem_inBrackets : .error ∈ inBrackets ts ↔ .error ∈ ts := by
  simp [inBrackets]

@[simp] theorem error_mem_commas {α : Type} {parts : List (α × List Token)} :
    .error ∈ commas (parts.map snd) ↔ ∃ p ∈ parts, .error ∈ p.2 := by
  induction parts with
  | nil => simp [commas]
  | cons p parts ih =>
    cases parts with
    | nil => simp [commas]
    | cons q parts =>
      have hcommas : commas ((p :: q :: parts).map snd) =
          p.2 ++ .mark .comma :: commas ((q :: parts).map snd) := rfl
      rw [hcommas, mem_append, mem_cons, ih]
      simp [-Prod.exists]

@[simp] theorem error_mem_blockTokens : .error ∈ blockTokens parts ↔ ∃ p ∈ parts, .error ∈ p.2 := by
  simp only [blockTokens, inBraces, mem_cons, mem_append, mem_flatten, mem_map,
    reduceCtorEq, not_mem_nil, or_false, false_or]
  exact ⟨fun ⟨_, ⟨p, hp, h⟩, hmem⟩ => ⟨p, hp, h ▸ hmem⟩, fun ⟨p, hp, hmem⟩ =>
    ⟨_, ⟨p, hp, rfl⟩, hmem⟩⟩

theorem Annotated.Spelled.error_not_mem {level : Nat} (h : e.Spelled level ts) : .error ∉ ts := by
  induction h with
  | atom token =>
    rw [mem_singleton]
    rintro rfl
    unfold ExprKind.token? at token
    split at token <;> cases token
  | parens _ ih | call _ ih | vector _ ih | len _ ih | negate _ _ ih | not _ _ ih => simpa using ih
  | index _ _ ih ih' => simpa using ⟨ih, ih'⟩
  | @binary _ _ _ op _ _ _ _ _ _ ih ih' =>
    have hop : .error ≠ op.token := by cases op <;> simp [Operator.token]
    simpa using ⟨ih, hop, ih'⟩

theorem BeginsWithCall.spelled (h : BeginsWithCall e ts) : e.Spelled 0 ts := by
  cases h
  assumption

theorem Located.Derived.error_not_mem {s : Stmt} (h : s.Derived BeginsWithCall ts) :
    .error ∉ ts := by
  have hbody : ∀ {parts : List (Stmt × List Token)} {b : Block}
    {ts : List Token}, IsBody parts b ts →
      (∀ p ∈ parts, Token.error ∉ p.2) → .error ∉ ts := by
    intro parts b ts hbody hparts
    cases hbody with
    | braces | single => simpa using hparts
  induction h with
  | ifThen condition thenBody _ ih => simpa using ⟨condition.error_not_mem, hbody thenBody ih⟩
  | ifElse condition thenBody _ elseBody _ ih ih' =>
    simpa using ⟨condition.error_not_mem, hbody thenBody ih, hbody elseBody ih'⟩
  | loop condition loopBody _ ih => simpa using ⟨condition.error_not_mem, hbody loopBody ih⟩
  | assignElement index value => simpa using ⟨index.error_not_mem, value.error_not_mem⟩
  | call rule => exact rule.spelled.error_not_mem
  | printNothing => simp
  | block _ ih => simpa using ih
  | define value | assign value | print value | ret value => simpa using value.error_not_mem

theorem TypeMark.Spelled.error_not_mem {mark : TypeMark} (h : mark.Spelled ts) : .error ∉ ts := by
  unfold TypeMark.Spelled Ty.tokens? at h
  split at h <;> cases h <;> simp [inBrackets]

theorem Item.Derived.error_not_mem (h : item.Derived BeginsWithCall ts) : .error ∉ ts := by
  cases h with
  | statement derived => exact derived.error_not_mem
  | @function name params mark resultTokens body inner span header result statements =>
    have hparams : ∀ p ∈ params, .error ∉ p.2 := by
      intro p hp
      obtain ⟨tokens, htokens, heq⟩ := header p hp
      simpa [heq] using htokens.error_not_mem
    have hresult : .error ∉ resultTokens := by
      cases mark with
      | none => simp [show resultTokens = [] from result]
      | some mark =>
        obtain ⟨typeTokens, hmark, rfl⟩ := result
        simpa using hmark.error_not_mem
    have hbody : ∀ p ∈ body, .error ∉ p.2 := fun p hp => (statements p hp).error_not_mem
    simpa [-Prod.exists, -Prod.forall] using ⟨hparams, hresult, hbody⟩

theorem Script.Derived.error_not_mem (h : script.Derived BeginsWithCall ts) : .error ∉ ts := by
  obtain ⟨each⟩ := h
  intro hmem
  obtain ⟨_, hts, hmem⟩ := mem_flatten.mp hmem
  obtain ⟨p, hp, rfl⟩ := mem_map.mp hts
  exact (each p hp).error_not_mem hmem

/-! ## Call statements -/

/-- An expression that begins with a call and is one is nothing but this call. -/
theorem BeginsWithCall.callAlone {args : List Expr}
    {symbol : Option SymbolId} (h : BeginsWithCall e ts) (hkind : e.kind = .call name args symbol) :
    CallAlone e ts := by
  obtain ⟨spelled⟩ := h
  rename_i n ts
  generalize hts : Token.identifier n :: .mark .leftParen :: ts = tokens at spelled ⊢
  cases spelled with
  | parens | atom => cases hts
  | call args => exact .intro args
  | vector | len | index | negate | not | binary => cases hkind

/-- A script keeps its derivation under the narrower rule for call statements if all of them are
calls, and only then. -/
theorem Script.Derived.callAlone_iff (h : script.Derived BeginsWithCall ts) :
    script.Derived CallAlone ts ↔ ∀ s ∈ script.nodes, ∀ e ∈ s.kind.calls,
      ∃ name args symbol, e.kind = .call name args symbol := by
  constructor
  · rintro ⟨each⟩ s hs e he
    rename_i parts
    obtain ⟨item, hitem, hs⟩ := mem_flatMap.mp hs
    obtain ⟨p, hp, rfl⟩ := mem_map.mp hitem
    have hwritten : ∀ s ∈ p.1.nodes, s.kind.Written CallAlone := (each p hp).written
    obtain ⟨_, hrule⟩ := (hwritten s hs).calls e he
    cases hrule
    exact ⟨_, _, _, rfl⟩
  · intro hcalls
    obtain ⟨each⟩ := h
    refine .intro fun p hp => (each p hp).imp fun s hs e he ts hrule => ?_
    have hs : s ∈ (⟨_, none⟩ : Script).nodes := mem_flatMap.mpr ⟨p.1, mem_map_of_mem hp, hs⟩
    obtain ⟨name, args, symbol, hkind⟩ := hcalls s hs e he
    exact hrule.callAlone hkind

/-- No function and no statement begins with an operator. -/
theorem Item.Derived.begins (h : item.Derived CallAlone ts) :
    ∃ t ts', ts = t :: ts' ∧ ∀ m, t = .mark m → m = .leftBrace := by
  cases h with
  | function => exact ⟨_, _, rfl, by simp⟩
  | statement derived =>
    cases derived with
    | call rule => cases rule; exact ⟨_, _, rfl, by simp⟩
    | block => exact ⟨_, _, rfl, by simp⟩
    | ifThen | ifElse | loop | define | assign | assignElement | printNothing | print | ret =>
      exact ⟨_, _, rfl, by simp⟩

/-- The only statement that begins with a name and a parenthesis is a call. -/
theorem Item.Derived.tokens_of_call {rest rest' : List Token} (h : item.Derived CallAlone ts)
    (hts : .identifier name :: .mark .leftParen :: rest = ts ++ rest') :
    ∃ args, ts = .identifier name :: .mark .leftParen :: (args ++ [.mark .rightParen]) := by
  cases h with
  | function => cases hts
  | statement derived =>
    cases derived with
    | call rule =>
      cases rule
      cases hts
      exact ⟨_, rfl⟩
    | ifThen | ifElse | loop | define | assign | assignElement | printNothing | print | ret
    | block => cases hts

/-- Tokens that begin with a call and go on with an operator are no script with calls alone as
statements. -/
theorem not_derived_of_operator {m : Mark}
    (hm : m ≠ .leftBrace) (hts : .mark .rightParen ∉ .mark m :: ts) :
    ¬script.Derived CallAlone
      (.identifier name :: .mark .leftParen :: .mark .rightParen :: .mark m :: ts) := by
  intro h
  generalize htokens : Token.identifier name :: .mark .leftParen :: .mark .rightParen ::
    .mark m :: ts = tokens at h
  obtain ⟨each⟩ := h
  rename_i parts
  rcases parts with _ | ⟨first, others⟩
  · cases htokens
  rw [map_cons, flatten_cons] at htokens
  -- the first statement can only be the call, and its tokens end at the first closing parenthesis
  obtain ⟨args, hfirst⟩ := (each first (.head _)).tokens_of_call htokens
  rw [hfirst] at htokens
  simp only [cons_append, append_assoc, cons.injEq, true_and, nil_append] at htokens
  rcases args with _ | ⟨t, args⟩
  · have hrest : .mark m :: ts = (others.map snd).flatten := (cons.inj htokens).2
    rcases others with _ | ⟨second, others⟩
    · cases hrest
    obtain ⟨t, ts', heq, hbegins⟩ := (each second (.tail _ (.head _))).begins
    grind
  grind

end WichToC
