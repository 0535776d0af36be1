import WichToC.Symbol.Id
import WichToC.Text.Span
import WichToC.Ty

/-!
# Symbol tables

A table holds scopes and symbols, both numbered in the order in which they are made.  Scopes form a
tree: the predefined scope with the built-in types, the global scope in it, a scope for the
parameters of each function, and a scope for each block.  A new scope is numbered after its parent,
so the chain of enclosing scopes always ends.

A name is resolved in the first scope of that chain that defines it.
-/

namespace WichToC

inductive ScopeKind where
  | predefined
  | global
  | function
  | block
deriving DecidableEq, Repr

structure Scope where
  kind : ScopeKind
  name : String
  parent : Option ScopeId
  /-- The symbols defined here, in order of definition. -/
  symbols : List SymbolId := []
  /-- The scopes directly inside, in order of creation. -/
  nested : List ScopeId := []
  /-- The function whose parameters these are. -/
  function : Option SymbolId := none
deriving DecidableEq, Repr

/-- A variable or a parameter. -/
structure Variable where
  name : String
  /-- Unknown until the definition has been typed. -/
  ty : Option Ty
  scope : ScopeId
  isParameter : Bool
  span : Span
deriving DecidableEq, Repr

/-- Whether a variable is known to hold a heap value. -/
def Variable.isHeap (v : Variable) : Bool :=
  (v.ty.map Ty.isHeap).getD false

/-- A function as its callers see it. -/
structure Signature where
  name : String
  returnTy : Ty
  params : List SymbolId
  scope : ScopeId
  span : Span
deriving DecidableEq, Repr

inductive Symbol where
  | type (ty : Ty)
  | var (v : Variable)
  | func (f : Signature)
deriving DecidableEq, Repr

namespace Symbol

def name : Symbol → String
  | type ty => ty.name
  | var v => v.name
  | func f => f.name

def var? : Symbol → Option Variable
  | var v => some v
  | _ => none

def func? : Symbol → Option Signature
  | func f => some f
  | _ => none

end Symbol

structure Table where
  scopes : Array Scope
  symbols : Array Symbol
deriving DecidableEq, Repr

namespace Table

variable (t : Table) (scope : ScopeId) (function : SymbolId)

/-- The scope of the built-in types. -/
def predefined : ScopeId := ⟨0⟩

/-- The scope of functions and of variables outside functions. -/
def global : ScopeId := ⟨1⟩

/-- The table with the built-in types and an empty global scope. -/
def initial : Table where
  scopes := #[
    { kind := .predefined, name := "predefined", parent := none,
      symbols := (List.range Ty.builtins.length).map SymbolId.mk },
    { kind := .global, name := "global", parent := some predefined }]
  symbols := (Ty.builtins.map Symbol.type).toArray

instance : Inhabited Table := ⟨initial⟩

/-! ## Reading -/

/-- The scope with this number. -/
def scope? (id : ScopeId) : Option Scope := t.scopes[id.index]?

/-- The symbol with this number. -/
def symbol? (id : SymbolId) : Option Symbol := t.symbols[id.index]?

/-- The variable with this number. -/
def var? (id : SymbolId) : Option Variable := (t.symbol? id).bind Symbol.var?

/-- The function with this number. -/
def func? (id : SymbolId) : Option Signature := (t.symbol? id).bind Symbol.func?

def kind? (id : ScopeId) : Option ScopeKind := (t.scope? id).map Scope.kind

/-- The symbols that a scope defines, in order. -/
def symbolsOf (id : ScopeId) : List SymbolId :=
  ((t.scope? id).map Scope.symbols).getD []

/-- The symbol that a scope itself defines under a name. -/
def resolveLocal (name : String) : Option SymbolId :=
  (t.symbolsOf scope).find? fun id => (t.symbol? id).map Symbol.name = some name

/-- The first `fuel` scopes from a scope outwards. -/
def chainFrom (t : Table) : Nat → ScopeId → List ScopeId
  | 0, _ => []
  | fuel + 1, id =>
    match (t.scope? id).bind Scope.parent with
    | some parent => id :: t.chainFrom fuel parent
    | none => [id]

/-- The scopes from a scope outwards, itself first. -/
def chain : List ScopeId :=
  t.chainFrom (scope.index + 1) scope

/-- The symbol that a name stands for in a scope. -/
def resolve (name : String) : Option SymbolId :=
  (t.chain scope).findSome? fun s => t.resolveLocal s name

/-- The built-in type with a name. -/
def resolveType (name : String) : Option Ty :=
  ((t.resolveLocal predefined name).bind t.symbol?).bind fun
    | .type ty => some ty
    | _ => none

/-- The function that a scope belongs to, looking outwards through blocks. -/
def enclosingFunction : Option SymbolId := do
  let outer ← (t.chain scope).find? fun s => t.kind? s != some .block
  let s ← t.scope? outer
  if s.kind = .function then s.function else none

/-- The variables and parameters of a scope, in order of definition. -/
def varsOf : List Variable :=
  (t.symbolsOf scope).filterMap t.var?

/-- The variables of a scope without its parameters. -/
def locals : List Variable :=
  (t.varsOf scope).filter fun v => !v.isParameter

/-- The heap variables of a scope without its parameters. -/
def heapVariables : List Variable :=
  (t.locals scope).filter Variable.isHeap

def heapParameters : List Variable :=
  (t.varsOf scope).filter fun v => v.isParameter && v.isHeap

/-- Every defined name, in order of definition. -/
def names : List String :=
  t.symbols.toList.map Symbol.name

/-! ## Writing -/

/-- Changes one scope. -/
def modifyScope (id : ScopeId) (f : Scope → Scope) : Table :=
  { t with scopes := t.scopes.modify id.index f }

/-- Changes one symbol. -/
def modifySymbol (id : SymbolId) (f : Symbol → Symbol) : Table :=
  { t with symbols := t.symbols.modify id.index f }

/-- Makes a new scope.  The predefined scope does not list the scopes inside it. -/
def pushScope (kind : ScopeKind) (name : String) (parent : Option ScopeId) : ScopeId × Table :=
  let id : ScopeId := ⟨t.scopes.size⟩
  let grown := { t with scopes := t.scopes.push { kind := kind, name := name, parent := parent } }
  match parent with
  | none => (id, grown)
  | some p =>
    if grown.kind? p = some .predefined then (id, grown)
    else (id, grown.modifyScope p fun s => { s with nested := s.nested ++ [id] })

/-- Defines a symbol in a scope.  If the scope already defines that name the table stays as it is
and the symbol that holds the name is given. -/
def define (symbol : Symbol) : Except SymbolId (SymbolId × Table) :=
  match t.resolveLocal scope symbol.name with
  | some existing => .error existing
  | none =>
    let id : SymbolId := ⟨t.symbols.size⟩
    let grown := { t with symbols := t.symbols.push symbol }
    .ok (id, grown.modifyScope scope fun s => { s with symbols := s.symbols ++ [id] })

/-- Records the function whose parameters a scope holds. -/
def attachFunction : Table :=
  t.modifyScope scope fun s => { s with function := some function }

/-- Gives a variable a type. -/
def setVariableTy (id : SymbolId) (ty : Ty) : Table :=
  t.modifySymbol id fun
    | .var v => .var { v with ty := some ty }
    | s => s

/-- Gives a function a return type. -/
def setReturnTy (id : SymbolId) (ty : Ty) : Table :=
  t.modifySymbol id fun
    | .func f => .func { f with returnTy := ty }
    | s => s

def addParameter (param : SymbolId) : Table :=
  t.modifySymbol function fun
    | .func f => .func { f with params := f.params ++ [param] }
    | s => s

end Table

end WichToC
