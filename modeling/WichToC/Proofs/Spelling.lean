import WichToC.Proofs.Tree
import WichToC.Script.Reader

/-!
# Spelling scripts

Which sequences of tokens spell a tree.  Any subexpression may stand in parentheses, any number of
them, and some must: an operand of an operator that binds less tightly than the operator around it,
or as tightly on its right side, an operation that is indexed, and a binary operation under a sign.
`Annotated.Spelled` says so by the level at which an expression stands: everything outside
parentheses binds at least as tightly.

The bodies of conditional statements and loops stand in braces, and nothing separates statements.

Trees are compared up to their spans: `Script.bare` is a script with all spans taken out.
-/

namespace WichToC

open Prod

/-! ## Trees without spans -/

/-- The span of what stands nowhere. -/
def Span.nowhere : Span := ⟨0, 0⟩

mutual

/-- The shape of an expression, without spans. -/
def ExprKind.bare : ExprKind → ExprKind
  | .vector elements => .vector (bareExprs elements)
  | .binary left op right => .binary (Annotated.bare left) op (Annotated.bare right)
  | .negate operand => .negate (Annotated.bare operand)
  | .not operand => .not (Annotated.bare operand)
  | .index target i => .index (Annotated.bare target) (Annotated.bare i)
  | .call name args symbol => .call name (bareExprs args) symbol
  | .len operand => .len (Annotated.bare operand)
  | .int value => .int value
  | .float value => .float value
  | .text value => .text value
  | .bool value => .bool value
  | .name name symbol => .name name symbol

/-- An expression without spans. -/
def Annotated.bare : Expr → Expr
  | ⟨kind, _, ty, promoteTo⟩ => ⟨kind.bare, .nowhere, ty, promoteTo⟩

/-- Expressions without spans. -/
def bareExprs : List Expr → List Expr
  | [] => []
  | e :: es => Annotated.bare e :: bareExprs es

end

mutual

/-- The shape of a statement, without spans. -/
def StmtKind.bare : StmtKind → StmtKind
  | .ifElse cond thenBlock none => .ifElse cond.bare (BlockOf.bare thenBlock) none
  | .ifElse cond thenBlock (some elseBlock) =>
    .ifElse cond.bare (BlockOf.bare thenBlock) (some (BlockOf.bare elseBlock))
  | .loop cond body => .loop cond.bare (BlockOf.bare body)
  | .define name value symbol => .define name value.bare symbol
  | .assign name value symbol => .assign name value.bare symbol
  | .assignElement name i value symbol => .assignElement name i.bare value.bare symbol
  | .call c => .call c.bare
  | .print value => .print (value.map Annotated.bare)
  | .ret value => .ret value.bare
  | .block b => .block (BlockOf.bare b)

/-- A statement without spans. -/
def Located.bare : Stmt → Stmt
  | ⟨kind, _⟩ => ⟨kind.bare, .nowhere⟩

/-- A block without spans. -/
def BlockOf.bare : Block → Block
  | ⟨statements, _, scope⟩ => ⟨bareStmts statements, .nowhere, scope⟩

/-- Statements without spans. -/
def bareStmts : List Stmt → List Stmt
  | [] => []
  | s :: ss => Located.bare s :: bareStmts ss

end

/-- A type in a header, without its span. -/
def TypeMark.bare (mark : TypeMark) : TypeMark := ⟨mark.name, .nowhere⟩

/-- A parameter without spans. -/
def Param.bare (p : Param) : Param := ⟨p.name, p.mark.bare, .nowhere⟩

/-- A function without spans. -/
def Function.bare (f : Function) : Function :=
  { f with
    params := f.params.map Param.bare
    returnMark := f.returnMark.map TypeMark.bare
    body := f.body.bare
    span := .nowhere }

/-- A function or a statement without spans. -/
def Item.bare : Item → Item
  | .function f => .function f.bare
  | .statement s => .statement s.bare

/-- A script without spans. -/
def Script.bare (script : Script) : Script := { script with items := script.items.map Item.bare }

/-! ## Spelling -/

def Operator.token : Operator → Token
  | plus => .mark .plus
  | minus => .mark .minus
  | times => .mark .star
  | divide => .mark .slash
  | less => .mark .less
  | lessEqual => .mark .lessEqual
  | greater => .mark .greater
  | greaterEqual => .mark .greaterEqual
  | equal => .mark .equal
  | notEqual => .mark .notEqual
  | and => .mark .and
  | or => .mark .or

/-- The token of an expression that is a single one: a literal or a name. -/
def ExprKind.token? : ExprKind → Option Token
  | .int value => some (.number value)
  | .float value => some (.float value)
  | .text value => some (.text value)
  | .bool true => some (.keyword .trueWord)
  | .bool false => some (.keyword .falseWord)
  | .name n none => some (.identifier n)
  | _ => none

/-- Parts with commas between them. -/
def commas : List (List Token) → List Token
  | [] => []
  | [ts] => ts
  | ts :: tss => ts ++ .mark .comma :: commas tss

def inParens (ts : List Token) : List Token := .mark .leftParen :: (ts ++ [.mark .rightParen])

def inBrackets (ts : List Token) : List Token := .mark .leftBracket :: (ts ++ [.mark .rightBracket])

def inBraces (ts : List Token) : List Token := .mark .leftBrace :: (ts ++ [.mark .rightBrace])

/-- The level of the operand of a sign: it binds more tightly than all operators. -/
def signLevel : Nat := 7

/-- The level of what is indexed: it binds more tightly than signs. -/
def indexLevel : Nat := 8

/-- Tokens that spell an expression at a level.  Outside parentheses an operator has at least this
precedence, a sign stands at most at its own level, and the rest stands anywhere. -/
inductive Annotated.Spelled : Nat → Expr → List Token → Prop
  | parens {level : Nat} {e : Expr} {ts : List Token} (inner : Spelled 0 e ts) :
      Spelled level e (inParens ts)
  | atom {level : Nat} {kind : ExprKind} {span : Span} {t : Token} (token : kind.token? = some t) :
      Spelled level ⟨kind, span, none, none⟩ [t]
  | call {level : Nat} {name : String} {parts : List (Expr × List Token)} {span : Span}
      (args : ∀ p ∈ parts, Spelled 0 p.1 p.2) :
      Spelled level ⟨.call name (parts.map fst) none, span, none, none⟩
        (.identifier name :: inParens (commas (parts.map snd)))
  | vector {level : Nat} {parts : List (Expr × List Token)} {span : Span}
      (elements : ∀ p ∈ parts, Spelled 0 p.1 p.2) :
      Spelled level ⟨.vector (parts.map fst), span, none, none⟩
        (inBrackets (commas (parts.map snd)))
  | len {level : Nat} {e : Expr} {ts : List Token} {span : Span} (operand : Spelled 0 e ts) :
      Spelled level ⟨.len e, span, none, none⟩ (.keyword .len :: inParens ts)
  | index {level : Nat} {e i : Expr} {ts ts' : List Token} {span : Span}
      (target : Spelled indexLevel e ts) (index : Spelled 0 i ts') :
      Spelled level ⟨.index e i, span, none, none⟩ (ts ++ inBrackets ts')
  | negate {level : Nat} {e : Expr} {ts : List Token} {span : Span} (fits : level ≤ signLevel)
      (operand : Spelled signLevel e ts) :
      Spelled level ⟨.negate e, span, none, none⟩ (.mark .minus :: ts)
  | not {level : Nat} {e : Expr} {ts : List Token} {span : Span} (fits : level ≤ signLevel)
      (operand : Spelled signLevel e ts) :
      Spelled level ⟨.not e, span, none, none⟩ (.mark .bang :: ts)
  /-- Operators group to the left: the right operand binds more tightly. -/
  | binary {level : Nat} {l r : Expr} {op : Operator} {ts ts' : List Token} {span : Span}
      (fits : level ≤ op.precedence) (left : Spelled op.precedence l ts)
      (right : Spelled (op.precedence + 1) r ts') :
      Spelled level ⟨.binary l op r, span, none, none⟩ (ts ++ op.token :: ts')

/-- A block of statements that are given with their tokens. -/
def blockOf (parts : List (Stmt × List Token)) (span : Span) : Block :=
  ⟨parts.map fst, span, none⟩

/-- The tokens of a block of statements that are given with their tokens. -/
def blockTokens (parts : List (Stmt × List Token)) : List Token :=
  inBraces (parts.map snd).flatten

/-- Tokens that spell a statement. -/
inductive Located.Spelled : Stmt → List Token → Prop
  | ifThen {cond : Expr} {ts : List Token} {yes : List (Stmt × List Token)} {inner span : Span}
      (condition : cond.Spelled 0 ts) (thenBlock : ∀ p ∈ yes, Spelled p.1 p.2) :
      Spelled ⟨.ifElse cond (blockOf yes inner) none, span⟩
        (.keyword .ifWord :: (inParens ts ++ blockTokens yes))
  | ifElse {cond : Expr} {ts : List Token} {yes no : List (Stmt × List Token)}
      {inner inner' span : Span} (condition : cond.Spelled 0 ts)
      (thenBlock : ∀ p ∈ yes, Spelled p.1 p.2) (elseBlock : ∀ p ∈ no, Spelled p.1 p.2) :
      Spelled ⟨.ifElse cond (blockOf yes inner) (some (blockOf no inner')), span⟩
        (.keyword .ifWord ::
          (inParens ts ++ (blockTokens yes ++ .keyword .elseWord :: blockTokens no)))
  | loop {cond : Expr} {ts : List Token} {parts : List (Stmt × List Token)} {inner span : Span}
      (condition : cond.Spelled 0 ts) (body : ∀ p ∈ parts, Spelled p.1 p.2) :
      Spelled ⟨.loop cond (blockOf parts inner), span⟩
        (.keyword .whileWord :: (inParens ts ++ blockTokens parts))
  | define {name : String} {e : Expr} {ts : List Token} {span : Span} (value : e.Spelled 0 ts) :
      Spelled ⟨.define name e none, span⟩ (.keyword .var :: .identifier name :: .mark .assign :: ts)
  | assign {name : String} {e : Expr} {ts : List Token} {span : Span} (value : e.Spelled 0 ts) :
      Spelled ⟨.assign name e none, span⟩ (.identifier name :: .mark .assign :: ts)
  | assignElement {name : String} {i e : Expr} {ts ts' : List Token} {span : Span}
      (index : i.Spelled 0 ts) (value : e.Spelled 0 ts') :
      Spelled ⟨.assignElement name i e none, span⟩
        (.identifier name :: (inBrackets ts ++ .mark .assign :: ts'))
  /-- A call that is a statement stands in no parentheses. -/
  | call {name : String} {parts : List (Expr × List Token)} {inner span : Span}
      (args : ∀ p ∈ parts, p.1.Spelled 0 p.2) :
      Spelled ⟨.call ⟨.call name (parts.map fst) none, inner, none, none⟩, span⟩
        (.identifier name :: inParens (commas (parts.map snd)))
  | printNothing {span : Span} : Spelled ⟨.print none, span⟩ (.keyword .print :: inParens [])
  | print {e : Expr} {ts : List Token} {span : Span} (value : e.Spelled 0 ts) :
      Spelled ⟨.print (some e), span⟩ (.keyword .print :: inParens ts)
  | ret {e : Expr} {ts : List Token} {span : Span} (value : e.Spelled 0 ts) :
      Spelled ⟨.ret e, span⟩ (.keyword .returnWord :: ts)
  | block {parts : List (Stmt × List Token)} {inner span : Span}
      (body : ∀ p ∈ parts, Spelled p.1 p.2) :
      Spelled ⟨.block (blockOf parts inner), span⟩ (blockTokens parts)

/-- The tokens of a type that a program can write. -/
def Ty.tokens? : Ty → Option (List Token)
  | int => some [.keyword .int]
  | float => some [.keyword .float]
  | string => some [.keyword .string]
  | boolean => some [.keyword .boolean]
  | vector => some (inBrackets [])
  | _ => none

def TypeMark.Spelled (mark : TypeMark) (ts : List Token) : Prop :=
  mark.ty.tokens? = some ts

/-- The type that is written has the name that is written. -/
theorem TypeMark.Spelled.name_ty {mark : TypeMark} {ts : List Token} (h : mark.Spelled ts) :
    mark.ty.name = mark.name := by
  unfold TypeMark.Spelled TypeMark.ty at h
  unfold TypeMark.ty
  cases hname : Ty.ofName? mark.name with
  | none => rw [hname] at h; cases h
  | some ty => simpa using List.find?_some hname

def Param.Spelled (p : Param) (ts : List Token) : Prop :=
  ∃ typeTokens, p.mark.Spelled typeTokens ∧
    ts = .identifier p.name :: .mark .colon :: typeTokens

/-- Tokens that spell the type of a result, with a colon before it; it may be missing. -/
def SpelledResult : Option TypeMark → List Token → Prop
  | none, ts => ts = []
  | some mark, ts => ∃ typeTokens, mark.Spelled typeTokens ∧ ts = .mark .colon :: typeTokens

/-- Tokens that spell a function or a statement. -/
inductive Item.Spelled : Item → List Token → Prop
  | function {name : String} {params : List (Param × List Token)} {mark : Option TypeMark}
      {resultTokens : List Token} {body : List (Stmt × List Token)} {inner span : Span}
      (header : ∀ p ∈ params, p.1.Spelled p.2) (result : SpelledResult mark resultTokens)
      (statements : ∀ p ∈ body, p.1.Spelled p.2) :
      Spelled (.function
        { name := name, params := params.map fst, returnMark := mark, body := blockOf body inner,
          span := span })
        (.keyword .func :: .identifier name :: (inParens (commas (params.map snd)) ++
          (resultTokens ++ blockTokens body)))
  | statement {s : Stmt} {ts : List Token} (spelled : s.Spelled ts) : Spelled (.statement s) ts

inductive Script.Spelled : Script → List Token → Prop
  | intro {parts : List (Item × List Token)} (each : ∀ p ∈ parts, p.1.Spelled p.2) :
      Spelled { items := parts.map fst } (parts.map snd).flatten

end WichToC
