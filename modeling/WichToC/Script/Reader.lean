import WichToC.Script.ExprReader
import WichToC.Token.Lexer

/-!
# Reading scripts

Functions, statements and blocks.  A statement that cannot be read is left out and its faults are
kept; reading then goes on at the next token at which a statement can begin, so that one reading
finds the faults of a whole script.

`Script.ofLexemes` reads a sequence of lexemes and `Script.read` a text.
-/

namespace WichToC

variable {α : Type}

/-- What reading a part of a script gives: the part, if it could be made, the faults met on the way,
and how far reading came. -/
structure Outcome (α : Type) where
  node : Option α
  faults : List Diagnostic
  cursor : Cursor

namespace Outcome

/-- The same faults and place with another part. -/
def map {β : Type} (f : α → β) (o : Outcome α) : Outcome β :=
  { node := o.node.map f, faults := o.faults, cursor := o.cursor }

/-- One fault and no part. -/
def failed (fault : Diagnostic) (cursor : Cursor) : Outcome α :=
  { node := none, faults := [fault], cursor := cursor }

end Outcome

namespace Reading

/-- The outcome of a step that stops at its first fault. -/
def outcome (p : Reading α) (c : Cursor) : Outcome α :=
  match p c with
  | .ok a next => { node := some a, faults := [], cursor := next }
  | .fail fault next => .failed fault next

/-! ## Function headers -/

def typeMark : Reading TypeMark := do
  let c ← cursor
  match c.token? with
  | some (.keyword .int) => advance; return ⟨"int", c.here⟩
  | some (.keyword .float) => advance; return ⟨"float", c.here⟩
  | some (.keyword .string) => advance; return ⟨"string", c.here⟩
  | some (.keyword .boolean) => advance; return ⟨"boolean", c.here⟩
  | some (.mark .leftBracket) =>
    advance
    expectMark .rightBracket "']' in vector type"
    return ⟨"[]", ← spanFrom c.here.start⟩
  | _ => fail .expectedType

/-- Reads a name, a colon and a type. -/
def param : Reading Param := do
  let start := (← cursor).here.start
  let name ← identifier
  expectMark .colon "':' after parameter name"
  let mark ← typeMark
  return ⟨name, mark, ← spanFrom start⟩

/-- Reads at least one parameter, with commas between them. -/
def params : Nat → Reading (List Param)
  | 0 => fail (.expectedIdentifier none)
  | fuel + 1 => do
    let first ← param
    if ← matchMark .comma then return first :: (← params fuel) else return [first]

/-- What stands before the body of a function. -/
structure Header where
  name : String
  params : List Param
  returnMark : Option TypeMark

def header : Reading Header := do
  expectWord .func "'func'"
  let name ← identifier
  expectMark .leftParen "'('"
  let c ← cursor
  let params ← if c.isAtMark .rightParen then pure [] else params (c.rest.length + 1)
  expectMark .rightParen "')'"
  if ← matchMark .colon then return ⟨name, params, some (← typeMark)⟩
  else return ⟨name, params, none⟩

/-! ## Statements without blocks -/

def condition : Reading Expr := do
  expectMark .leftParen "'('"
  let cond ← expr
  expectMark .rightParen "')'"
  return cond

def definition : Reading Stmt := do
  let start := (← cursor).here.start
  advance
  let name ← identifier
  expectMark .assign "'=' after variable name"
  let value ← expr
  return ⟨.define name value none, ← spanFrom start⟩

def printing : Reading Stmt := do
  let start := (← cursor).here.start
  advance
  expectMark .leftParen "'(' after print"
  let value ← if (← cursor).isAtMark .rightParen then pure none else some <$> expr
  expectMark .rightParen "')'"
  return ⟨.print value, ← spanFrom start⟩

def returning : Reading Stmt := do
  let start := (← cursor).here.start
  advance
  let value ← expr
  return ⟨.ret value, ← spanFrom start⟩

/-- Reads a statement that begins with the name `name`: an assignment, an assignment to an element
or a call, as the token after the name tells. -/
def named (name : String) : Reading Stmt := do
  let c ← cursor
  match c.nextToken? with
  | some (.mark .assign) =>
    advance
    advance
    let value ← expr
    return ⟨.assign name value none, ← spanFrom c.here.start⟩
  | some (.mark .leftBracket) =>
    advance
    advance
    let index ← expr
    expectMark .rightBracket "']'"
    expectMark .assign "'=' after indexed element"
    let value ← expr
    return ⟨.assignElement name index value none, ← spanFrom c.here.start⟩
  | some (.mark .leftParen) =>
    let call ← expr
    return ⟨.call call, ← spanFrom c.here.start⟩
  | _ => fail (.bareName name)

/-! ## Blocks -/

mutual

def statement (fuel : Nat) (c : Cursor) : Outcome Stmt :=
  match fuel with
  | 0 => .failed (c.fault (.expectedStatement none)) c
  | fuel + 1 =>
    match c.token? with
    | some (.keyword .ifWord) => conditional fuel c
    | some (.keyword .whileWord) =>
      match condition c.advance with
      | .fail fault next => .failed fault next
      | .ok cond next =>
        let o := body fuel next
        o.map fun b => ⟨.loop cond b, o.cursor.spanFrom c.here.start⟩
    | some (.mark .leftBrace) =>
      let o := block fuel c
      o.map fun b => ⟨.block b, o.cursor.spanFrom c.here.start⟩
    | some (.keyword .var) => definition.outcome c
    | some (.keyword .print) => printing.outcome c
    | some (.keyword .returnWord) => returning.outcome c
    | some (.identifier name) => (named name).outcome c
    | some (.keyword .func) => .failed (c.fault .nestedFunction) c
    | found => .failed (c.fault (.expectedStatement found)) c

/-- Reads an if statement.  Its else branch is read also when its then branch failed. -/
def conditional (fuel : Nat) (c : Cursor) : Outcome Stmt :=
  match fuel with
  | 0 => .failed (c.fault (.expectedStatement none)) c
  | fuel + 1 =>
    match condition c.advance with
    | .fail fault next => .failed fault next
    | .ok cond next =>
      let thenPart := body fuel next
      if thenPart.cursor.isAtWord .elseWord then
        let elsePart := body fuel thenPart.cursor.advance
        let span := elsePart.cursor.spanFrom c.here.start
        { node := do
            let elseBlock ← elsePart.node
            let thenBlock ← thenPart.node
            return ⟨.ifElse cond thenBlock (some elseBlock), span⟩
          faults := thenPart.faults ++ elsePart.faults
          cursor := elsePart.cursor }
      else
        thenPart.map fun b => ⟨.ifElse cond b none, thenPart.cursor.spanFrom c.here.start⟩

/-- Reads the body of an if or a while; a statement without braces gets a block of its own. -/
def body (fuel : Nat) (c : Cursor) : Outcome Block :=
  match fuel with
  | 0 => .failed (c.fault (.expectedStatement none)) c
  | fuel + 1 =>
    if c.isAtMark .leftBrace then block fuel c
    else (statement fuel c).map fun s => ⟨[s], s.span, none⟩

def block (fuel : Nat) (c : Cursor) : Outcome Block :=
  match fuel with
  | 0 => .failed (c.fault (.expectedStatement none)) c
  | fuel + 1 =>
    match expectMark .leftBrace "'\x7b'" c with
    | .fail fault next => .failed fault next
    | .ok _ next =>
      let inner := statements fuel next
      match expectMark .rightBrace "'\x7d'" inner.cursor with
      | .ok _ last =>
        { node := some ⟨inner.node.getD [], last.spanFrom c.here.start, none⟩
          faults := inner.faults
          cursor := last }
      | .fail fault last =>
        { node := some ⟨inner.node.getD [], last.spanFrom c.here.start, none⟩
          faults := inner.faults ++ [fault]
          cursor := last }

/-- Reads statements up to a closing brace or the end of the input. -/
def statements (fuel : Nat) (c : Cursor) : Outcome (List Stmt) :=
  match fuel with
  | 0 => { node := some [], faults := [], cursor := c }
  | fuel + 1 =>
    if c.rest.isEmpty || c.isAtMark .rightBrace then { node := some [], faults := [], cursor := c }
    else
      let first := statement fuel c
      let next := if first.node.isNone then first.cursor.recover c else first.cursor
      let others := statements fuel next
      { node := some (first.node.toList ++ others.node.getD [])
        faults := first.faults ++ others.faults
        cursor := others.cursor }

end

/-- The fuel with which every statement of the input can be read. -/
def statementFuel (c : Cursor) : Nat := 4 * c.rest.length + 4

def function (c : Cursor) : Outcome Function :=
  match header c with
  | .fail fault next => .failed fault next
  | .ok h next =>
    let o := block (statementFuel next) next
    o.map fun b =>
      { name := h.name, params := h.params, returnMark := h.returnMark, body := b,
        span := o.cursor.spanFrom c.here.start }

/-- Reads a function or a statement. -/
def item (c : Cursor) : Outcome Item :=
  if c.isAtWord .func then (function c).map .function
  else (statement (statementFuel c) c).map .statement

/-- Reads items up to the end of the input. -/
def itemsOfScript : Nat → Cursor → Outcome (List Item)
  | 0, c => { node := some [], faults := [], cursor := c }
  | fuel + 1, c =>
    if c.rest.isEmpty then { node := some [], faults := [], cursor := c }
    else
      let first := item c
      let next := if first.node.isNone then first.cursor.recover c else first.cursor
      let others := itemsOfScript fuel next
      { node := some (first.node.toList ++ others.node.getD [])
        faults := first.faults ++ others.faults
        cursor := others.cursor }

end Reading

namespace Script

/-- Reads a sequence of lexemes; faults at its end refer to `endPosition`. -/
def ofLexemes (lexemes : List Lexeme) (endPosition : Nat) : Outcome Script :=
  (Reading.itemsOfScript (lexemes.length + 1) { rest := lexemes, endPosition := endPosition }).map
    fun items => { items := items }

/-- Reads a text, reporting faults. -/
def read (source : String) (report : Report) : Script × Report :=
  let o := ofLexemes (lex source) report.endPosition
  (o.node.getD {}, report.addAll o.faults)

end Script

end WichToC
