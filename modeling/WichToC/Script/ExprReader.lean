import WichToC.Script
import WichToC.Script.Cursor

/-!
# Reading expressions

Binary operators are read by precedence climbing; below them stand the signs `-` and `!`, then
indexing, then the primary expressions.  A parenthesised expression keeps the span of what it
encloses.

The readers call each other with less and less fuel.  No more than six of them are entered between
two tokens, so `Reading.expr` gives enough.
-/

namespace WichToC

def Operator.ofToken? : Token → Option Operator
  | .mark .plus => some .plus
  | .mark .minus => some .minus
  | .mark .star => some .times
  | .mark .slash => some .divide
  | .mark .less => some .less
  | .mark .lessEqual => some .lessEqual
  | .mark .greater => some .greater
  | .mark .greaterEqual => some .greaterEqual
  | .mark .equal => some .equal
  | .mark .notEqual => some .notEqual
  | .mark .and => some .and
  | .mark .or => some .or
  | _ => none

namespace Reading

mutual

/-- Reads an expression whose binary operators, outside parentheses, bind at least as tightly as
`least`. -/
def binary (fuel : Nat) (least : Nat) : Reading Expr :=
  match fuel with
  | 0 => fail (.expectedExpression none)
  | fuel + 1 => do
    let left ← unary fuel
    operators fuel least left

/-- Reads the operators and right operands that follow `left`. -/
def operators (fuel : Nat) (least : Nat) (left : Expr) : Reading Expr :=
  match fuel with
  | 0 => fail (.expectedExpression none)
  | fuel + 1 => do
    match (← cursor).token?.bind Operator.ofToken? with
    | none => pure left
    | some op =>
      if op.precedence < least then pure left
      else
        advance
        let right ← binary fuel (op.precedence + 1)
        operators fuel least ⟨.binary left op right, ⟨left.span.start, right.span.stop⟩, none, none⟩

/-- Reads an expression with its signs. -/
def unary (fuel : Nat) : Reading Expr :=
  match fuel with
  | 0 => fail (.expectedExpression none)
  | fuel + 1 => do
    let start := (← cursor).here.start
    if ← matchMark .minus then
      let operand ← unary fuel
      return ⟨.negate operand, ← spanFrom start, none, none⟩
    else if ← matchMark .bang then
      let operand ← unary fuel
      return ⟨.not operand, ← spanFrom start, none, none⟩
    else
      let target ← primary fuel
      indices fuel target

/-- Reads the indices that follow `target`. -/
def indices (fuel : Nat) (target : Expr) : Reading Expr :=
  match fuel with
  | 0 => fail (.expectedExpression none)
  | fuel + 1 => do
    if ← matchMark .leftBracket then
      let index ← binary fuel 0
      expectMark .rightBracket "']'"
      indices fuel ⟨.index target index, ← spanFrom target.span.start, none, none⟩
    else return target

/-- Reads a literal, a name, a call, a length, a vector or a parenthesised expression. -/
def primary (fuel : Nat) : Reading Expr :=
  match fuel with
  | 0 => fail (.expectedExpression none)
  | fuel + 1 => do
    let c ← cursor
    match c.token? with
    | some (.number n) => advance; return ⟨.int n, c.here, none, none⟩
    | some (.float x) => advance; return ⟨.float x, c.here, none, none⟩
    | some (.text s) => advance; return ⟨.text s, c.here, none, none⟩
    | some (.keyword .trueWord) => advance; return ⟨.bool true, c.here, none, none⟩
    | some (.keyword .falseWord) => advance; return ⟨.bool false, c.here, none, none⟩
    | some (.identifier name) =>
      advance
      if ← matchMark .leftParen then
        let args ← list fuel .rightParen
        expectMark .rightParen "')' after arguments"
        return ⟨.call name args none, ← spanFrom c.here.start, none, none⟩
      else return ⟨.name name none, c.here, none, none⟩
    | some (.keyword .len) =>
      advance
      expectMark .leftParen "'(' after len"
      let operand ← binary fuel 0
      expectMark .rightParen "')'"
      return ⟨.len operand, ← spanFrom c.here.start, none, none⟩
    | some (.mark .leftBracket) =>
      advance
      let elements ← list fuel .rightBracket
      expectMark .rightBracket "']' to close the vector"
      return ⟨.vector elements, ← spanFrom c.here.start, none, none⟩
    | some (.mark .leftParen) =>
      advance
      let inner ← binary fuel 0
      expectMark .rightParen "')'"
      return inner
    | found => fail (.expectedExpression found)

/-- Reads expressions with commas between them, none if `close` comes at once. -/
def list (fuel : Nat) (close : Mark) : Reading (List Expr) :=
  match fuel with
  | 0 => fail (.expectedExpression none)
  | fuel + 1 => do
    if (← cursor).isAtMark close then return [] else items fuel

/-- Reads at least one expression, with commas between them. -/
def items (fuel : Nat) : Reading (List Expr) :=
  match fuel with
  | 0 => fail (.expectedExpression none)
  | fuel + 1 => do
    let first ← binary fuel 0
    if ← matchMark .comma then return first :: (← items fuel) else return [first]

end

def expr : Reading Expr := fun c => binary (6 * c.rest.length + 6) 0 c

end Reading

end WichToC
