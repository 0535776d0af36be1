import WichToC.Number.Binary64
import WichToC.Script.Operator
import WichToC.Symbol.Id
import WichToC.Text.Span
import WichToC.Ty

/-!
# Scripts

The tree of a script.  Reading a script fills in its shape and its spans; analysis fills in the
scopes of blocks and functions, the symbols that names stand for, and the type of every expression
together with the type to which its consumer widens it.
-/

namespace WichToC

variable {K : Type}

/-- An expression: its shape, its span, and what analysis found out about it. -/
structure Annotated (K : Type) where
  kind : K
  span : Span
  ty : Option Ty := none
  /-- The wider type that the consumer of the expression asks for. -/
  promoteTo : Option Ty := none
deriving Repr

/-- The shape of an expression. -/
inductive ExprKind where
  | int (value : Nat)
  | float (value : Binary64)
  | text (value : String)
  | bool (value : Bool)
  | vector (elements : List (Annotated ExprKind))
  | name (name : String) (symbol : Option SymbolId)
  | binary (left : Annotated ExprKind) (op : Operator) (right : Annotated ExprKind)
  | negate (operand : Annotated ExprKind)
  | not (operand : Annotated ExprKind)
  | index (target index : Annotated ExprKind)
  | call (name : String) (args : List (Annotated ExprKind)) (symbol : Option SymbolId)
  | len (operand : Annotated ExprKind)
deriving Repr

abbrev Expr := Annotated ExprKind

/-- The type that the consumer of an expression sees. -/
def Annotated.effectiveTy (e : Annotated K) : Option Ty :=
  e.promoteTo <|> e.ty

/-- Widens an expression to the type that its consumer expects, unless it has that type. -/
def Annotated.promote (e : Annotated K) (target : Ty) : Annotated K :=
  if e.ty = some target then e else { e with promoteTo := some target }

/-- Something with a span. -/
structure Located (K : Type) where
  kind : K
  span : Span
deriving Repr

/-- A list of statements with a scope of its own. -/
structure BlockOf (S : Type) where
  statements : List S
  span : Span
  scope : Option ScopeId := none
deriving Repr

/-- The shape of a statement. -/
inductive StmtKind where
  | ifElse (cond : Expr) (thenBlock : BlockOf (Located StmtKind))
      (elseBlock : Option (BlockOf (Located StmtKind)))
  | loop (cond : Expr) (body : BlockOf (Located StmtKind))
  | define (name : String) (value : Expr) (symbol : Option SymbolId)
  | assign (name : String) (value : Expr) (symbol : Option SymbolId)
  | assignElement (name : String) (index value : Expr) (symbol : Option SymbolId)
  | call (call : Expr)
  | print (value : Option Expr)
  | ret (value : Expr)
  | block (block : BlockOf (Located StmtKind))
deriving Repr

/-- A statement. -/
abbrev Stmt := Located StmtKind

/-- A block of statements. -/
abbrev Block := BlockOf Stmt

/-- The name of a type as written in a function header. -/
structure TypeMark where
  name : String
  span : Span
deriving DecidableEq, Repr

/-- The type that is written, the error type if the name is not that of a type. -/
def TypeMark.ty (mark : TypeMark) : Ty := (Ty.ofName? mark.name).getD .error

/-- A formal parameter. -/
structure Param where
  name : String
  mark : TypeMark
  span : Span
deriving DecidableEq, Repr

/-- A function definition. -/
structure Function where
  name : String
  params : List Param
  returnMark : Option TypeMark
  body : Block
  span : Span
  scope : Option ScopeId := none
  symbol : Option SymbolId := none
deriving Repr

/-- What stands at the top level of a script. -/
inductive Item where
  | function (function : Function)
  | statement (statement : Stmt)
deriving Repr

/-- A script: functions and statements in source order. -/
structure Script where
  items : List Item := []
  scope : Option ScopeId := none
deriving Repr

namespace Script

variable (script : Script)

def functions : List Function :=
  script.items.filterMap fun
    | .function f => some f
    | .statement _ => none

/-- The statements at the top level of a script. -/
def statements : List Stmt :=
  script.items.filterMap fun
    | .function _ => none
    | .statement s => some s

end Script

end WichToC
