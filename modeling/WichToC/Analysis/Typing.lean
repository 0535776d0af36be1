import WichToC.Analysis.Declare

/-!
# Typing

The second pass resolves every name, computes the type of every expression, records where a value is
widened, and gives variables their types.  Each fault is reported once: an expression about which a
fault was reported has the type `error`, and nothing more is reported where that type appears.
-/

namespace WichToC

/-! ## Operators -/

/-- What an operator makes of the types of its operands. -/
inductive OperatorTyping where
  /-- The type of the result, and the type to which both operands are widened, if any. -/
  | result (ty : Ty) (common : Option Ty)
  /-- Operands of two types that do not go together. -/
  | mixed
  /-- Operands of a type for which the operator has no meaning. -/
  | invalid
deriving DecidableEq, Repr

/-- The typing of an operator, for operands without faults. -/
def Operator.typing (op : Operator) (left right : Ty) : OperatorTyping :=
  match op.family with
  | .arithmetic =>
    if left = .string ∨ right = .string then
      if left ≠ right then .mixed
      else if op ≠ .plus then .invalid
      else .result .string none
    else
      match Ty.arithmetic? left right with
      | some ty => .result ty (some ty)
      | none => .invalid
  | .ordering =>
    if left.isNumeric ∧ right.isNumeric then .result .boolean (Ty.arithmetic? left right)
    else .invalid
  | .equality =>
    if left.isNumeric ∧ right.isNumeric then .result .boolean (Ty.arithmetic? left right)
    else if left = right then .result .boolean none
    else .mixed
  | .logical =>
    if left = .boolean ∧ right = .boolean then .result .boolean none else .mixed

namespace Typing

/-! ## Expressions -/

/-- The shape of an expression with its type and the diagnostics that typing it gave. -/
structure Shaped where
  kind : ExprKind
  ty : Ty
  faults : List Diagnostic

/-- An expression with its type and the diagnostics that typing it gave. -/
structure Typed where
  expr : Expr
  ty : Ty
  faults : List Diagnostic

/-- An expression of a shape that has been typed. -/
def Shaped.located (shaped : Shaped) (span : Span) (promoteTo : Option Ty) : Typed :=
  ⟨⟨shaped.kind, span, some shaped.ty, promoteTo⟩, shaped.ty, shaped.faults⟩

namespace Typed

variable (e : Typed)

/-- The use of an expression as a value: the result of a function without one is a fault. -/
def asValue : Typed :=
  if e.ty = .void then
    ⟨{ e.expr with ty := some .error }, .error, e.faults ++ [Fault.voidValue.located e.expr.span]⟩
  else e

/-- The fault, if any, of an index that is no integer. -/
def indexFaults : List Diagnostic :=
  if e.ty = .int ∨ e.ty = .error then [] else [(Fault.indexType e.ty).located e.expr.span]

/-- An expression as an element of a vector: a number widened to `float`. -/
def asElement : Expr × List Diagnostic :=
  match e.ty with
  | .int | .float => (e.expr.promote .float, [])
  | .error => (e.expr, [])
  | other => (e.expr, [(Fault.elementType other).located e.expr.span])

end Typed

/-- The symbol and the type of a name that is used as a value. -/
def name (t : Table) (scope : ScopeId) (span : Span) (name : String) :
    Option SymbolId × Ty × List Diagnostic :=
  match t.resolve scope name with
  | none => (none, .error, [(Fault.unknownName name).located span])
  | some id =>
    match t.symbol? id with
    | some (.var v) =>
      match v.ty with
      | some ty => (some id, ty, [])
      | none => (some id, .error, [(Fault.forwardReference name).located span])
    | _ => (some id, .error, [(Fault.notAValue name).located span])

def binary (span : Span) (left : Typed) (op : Operator) (right : Typed) : Shaped :=
  let faults := left.faults ++ right.faults
  let plain := ExprKind.binary left.expr op right.expr
  if left.ty = .error ∨ right.ty = .error then ⟨plain, .error, faults⟩
  else
    match op.typing left.ty right.ty with
    | .result ty none => ⟨plain, ty, faults⟩
    | .result ty (some common) =>
      ⟨.binary (left.expr.promote common) op (right.expr.promote common), ty, faults⟩
    | .mixed =>
      ⟨plain, .error, faults ++ [(Fault.mixedOperands left.ty op right.ty).located span]⟩
    | .invalid =>
      ⟨plain, .error, faults ++ [(Fault.invalidOperands left.ty op right.ty).located span]⟩

/-- Checks the actual parameters of a call, the first of which has the given position, against the
types of the formal ones. -/
def arguments (function : String) : Nat → List Typed → List (Option Ty) →
    List Expr × List Diagnostic
  | position, arg :: args, formal :: formals =>
    let (first, faults) : Expr × List Diagnostic :=
      match formal with
      | none => (arg.expr, [])
      | some expected =>
        if arg.ty = .error ∨ expected = .error then (arg.expr, [])
        else if arg.ty.assignable expected then (arg.expr.promote expected, [])
        else
          (arg.expr,
            [(Fault.argumentType position function expected arg.ty).located arg.expr.span])
    let (others, later) := arguments function (position + 1) args formals
    (first :: others, faults ++ later)
  | _, args, _ => (args.map Typed.expr, [])

def call (t : Table) (scope : ScopeId) (span : Span) (function : String)
    (symbol : Option SymbolId) (args : List Typed) : Shaped :=
  let faults := args.flatMap Typed.faults
  let plain := args.map Typed.expr
  match t.resolve scope function with
  | none =>
    ⟨.call function plain symbol, .error, faults ++ [(Fault.unknownName function).located span]⟩
  | some id =>
    match t.func? id with
    | none =>
      ⟨.call function plain symbol, .error, faults ++ [(Fault.notAFunction function).located span]⟩
    | some signature =>
      let formals := signature.params.map fun p => (t.var? p).bind Variable.ty
      if formals.length ≠ args.length then
        ⟨.call function plain (some id), signature.returnTy,
          faults ++ [(Fault.argumentCount function formals.length args.length).located span]⟩
      else
        let (checked, later) := arguments function 1 args formals
        ⟨.call function checked (some id), signature.returnTy, faults ++ later⟩

mutual

def shape (t : Table) (scope : ScopeId) (span : Span) : ExprKind → Shaped
  | .int value => ⟨.int value, .int, []⟩
  | .float value => ⟨.float value, .float, []⟩
  | .text value => ⟨.text value, .string, []⟩
  | .bool value => ⟨.bool value, .boolean, []⟩
  | .vector elements =>
    let typed := exprs t scope elements
    ⟨.vector (typed.map fun e => e.asElement.1), .vector,
      typed.flatMap fun e => e.faults ++ e.asElement.2⟩
  | .name n symbol =>
    let (found, ty, faults) := name t scope span n
    ⟨.name n (found <|> symbol), ty, faults⟩
  | .binary left op right =>
    binary span (expr t scope left).asValue op (expr t scope right).asValue
  | .negate operand =>
    let e := (expr t scope operand).asValue
    match e.ty with
    | .int | .float | .vector | .error => ⟨.negate e.expr, e.ty, e.faults⟩
    | other => ⟨.negate e.expr, .error, e.faults ++ [(Fault.negated other).located span]⟩
  | .not operand =>
    let e := (expr t scope operand).asValue
    match e.ty with
    | .boolean | .error => ⟨.not e.expr, e.ty, e.faults⟩
    | other => ⟨.not e.expr, .error, e.faults ++ [(Fault.complemented other).located span]⟩
  | .index target index =>
    let e := (expr t scope target).asValue
    let i := (expr t scope index).asValue
    let faults := e.faults ++ i.faults ++ i.indexFaults
    match e.ty with
    | .vector => ⟨.index e.expr i.expr, .float, faults⟩
    | .string => ⟨.index e.expr i.expr, .string, faults⟩
    | .error => ⟨.index e.expr i.expr, .error, faults⟩
    | other => ⟨.index e.expr i.expr, .error, faults ++ [(Fault.indexed other).located span]⟩
  | .call function args symbol => call t scope span function symbol (exprs t scope args)
  | .len operand =>
    let e := (expr t scope operand).asValue
    match e.ty with
    | .vector | .string => ⟨.len e.expr, .int, e.faults⟩
    | .error => ⟨.len e.expr, .error, e.faults⟩
    | other => ⟨.len e.expr, .error, e.faults ++ [(Fault.measured other).located span]⟩

def expr (t : Table) (scope : ScopeId) : Expr → Typed
  | ⟨kind, span, _, promoteTo⟩ => (shape t scope span kind).located span promoteTo

/-- Types expressions that are used as values, in order. -/
def exprs (t : Table) (scope : ScopeId) : List Expr → List Typed
  | [] => []
  | e :: es => (expr t scope e).asValue :: exprs t scope es

end

def value (t : Table) (scope : ScopeId) (e : Expr) : Typed :=
  (expr t scope e).asValue

/-! ## Statements -/

def condition (t : Table) (scope : ScopeId) (cond : Expr) : Expr × List Diagnostic :=
  let e := value t scope cond
  if e.ty = .boolean ∨ e.ty = .error then (e.expr, e.faults)
  else (e.expr, e.faults ++ [(Fault.conditionType e.ty).located e.expr.span])

/-- The variable that a name stands for. -/
def target (t : Table) (scope : ScopeId) (span : Span) (name : String) :
    Except Diagnostic (SymbolId × Variable) :=
  match t.resolve scope name with
  | none => .error ((Fault.unknownName name).located span)
  | some id =>
    match t.var? id with
    | some v => .ok (id, v)
    | none => .error ((Fault.notAVariable name).located span)

def assignment (t : Table) (scope : ScopeId) (span : Span) (name : String) (e : Typed)
    (symbol : Option SymbolId) : Passed StmtKind :=
  match target t scope span name with
  | .error fault => ⟨.assign name e.expr symbol, t, e.faults ++ [fault]⟩
  | .ok (id, v) =>
    let plain := StmtKind.assign name e.expr (some id)
    match v.ty with
    | none => ⟨plain, t.setVariableTy id e.ty, e.faults⟩
    | some expected =>
      if expected = .error ∨ e.ty = .error then ⟨plain, t, e.faults⟩
      else if e.ty.assignable expected then
        ⟨.assign name (e.expr.promote expected) (some id), t, e.faults⟩
      else
        ⟨plain, t, e.faults ++ [(Fault.assignment name expected e.ty).located span]⟩

/-- The symbol of the vector whose element is assigned, and the faults of its use. -/
def elementTarget (t : Table) (scope : ScopeId) (span : Span) (name : String) :
    Option SymbolId × List Diagnostic :=
  match target t scope span name with
  | .error fault => (none, [fault])
  | .ok (id, v) =>
    match v.ty with
    | some .vector | some .error => (some id, [])
    | some other => (some id, [(Fault.elementOf name other).located span])
    | none => (some id, [(Fault.forwardReference name).located span])

def returning (t : Table) (scope : ScopeId) (span : Span) (e : Typed) :
    StmtKind × List Diagnostic :=
  match t.enclosingFunction scope with
  | none => (.ret e.expr, e.faults ++ [Fault.returnOutside.located span])
  | some id =>
    match t.func? id with
    | none => (.ret e.expr, e.faults)
    | some f =>
      if f.returnTy = .void then
        (.ret e.expr, e.faults ++ [(Fault.returnWithoutType f.name).located span])
      else if f.returnTy = .error ∨ e.ty = .error then (.ret e.expr, e.faults)
      else if e.ty.assignable f.returnTy then (.ret (e.expr.promote f.returnTy), e.faults)
      else
        (.ret e.expr,
          e.faults ++ [(Fault.returnType f.name f.returnTy e.ty).located span])

mutual

/-- Types a statement of a scope that has the given span. -/
def stmtKind (scope : ScopeId) (t : Table) (span : Span) : StmtKind → Passed StmtKind
  | .define name init symbol =>
    let e := value t scope init
    ⟨.define name e.expr symbol, (symbol.map fun id => t.setVariableTy id e.ty).getD t,
      e.faults⟩
  | .assign name init symbol =>
    assignment t scope span name (value t scope init) symbol
  | .assignElement name index init symbol =>
    let i := expr t scope index
    let e := value t scope init
    let (found, faults) := elementTarget t scope span name
    ⟨.assignElement name i.expr e.asElement.1 (found <|> symbol), t,
      i.faults ++ e.faults ++ faults ++ i.indexFaults ++ e.asElement.2⟩
  | .ifElse cond thenBlock none =>
    let (cond, faults) := condition t scope cond
    let first := block t thenBlock
    ⟨.ifElse cond first.tree none, first.table, faults ++ first.faults⟩
  | .ifElse cond thenBlock (some elseBlock) =>
    let (cond, faults) := condition t scope cond
    let first := block t thenBlock
    let second := block first.table elseBlock
    ⟨.ifElse cond first.tree (some second.tree), second.table,
      faults ++ first.faults ++ second.faults⟩
  | .loop cond body =>
    let (cond, faults) := condition t scope cond
    let inner := block t body
    ⟨.loop cond inner.tree, inner.table, faults ++ inner.faults⟩
  | .call function =>
    let e := expr t scope function
    ⟨.call e.expr, t, e.faults⟩
  | .print none => ⟨.print none, t, []⟩
  | .print (some shown) =>
    let e := value t scope shown
    ⟨.print (some e.expr), t, e.faults⟩
  | .ret given =>
    let (s, faults) := returning t scope span (value t scope given)
    ⟨s, t, faults⟩
  | .block body =>
    let inner := block t body
    ⟨.block inner.tree, inner.table, inner.faults⟩

def stmt (scope : ScopeId) (t : Table) : Stmt → Passed Stmt
  | ⟨kind, span⟩ => (stmtKind scope t span kind).map fun kind => ⟨kind, span⟩

/-- Types a block in its own scope. -/
def block (t : Table) : Block → Passed Block
  | ⟨statements, span, some scope⟩ =>
    let inner := stmts scope t statements
    ⟨⟨inner.tree, span, some scope⟩, inner.table, inner.faults⟩
  | b@⟨_, _, none⟩ => ⟨b, t, []⟩

/-- Types the statements of a scope in order. -/
def stmts (scope : ScopeId) (t : Table) : List Stmt → Passed (List Stmt)
  | [] => ⟨[], t, []⟩
  | s :: ss =>
    let first := stmt scope t s
    let others := stmts scope first.table ss
    ⟨first.tree :: others.tree, others.table, first.faults ++ others.faults⟩

end

/-- Types the items of a script in order; `scope` is the scope of its statements. -/
def items (scope : ScopeId) (t : Table) : List Item → Passed (List Item)
  | [] => ⟨[], t, []⟩
  | .function f :: rest =>
    let first := block t f.body
    let others := items scope first.table rest
    ⟨.function { f with body := first.tree } :: others.tree, others.table,
      first.faults ++ others.faults⟩
  | .statement s :: rest =>
    let first := stmt scope t s
    let others := items scope first.table rest
    ⟨.statement first.tree :: others.tree, others.table, first.faults ++ others.faults⟩

def script (t : Table) (s : Script) : Passed Script :=
  let passed := items (s.scope.getD Table.global) t s.items
  ⟨{ s with items := passed.tree }, passed.table, passed.faults⟩

end Typing

end WichToC
