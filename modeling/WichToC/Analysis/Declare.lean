import WichToC.Analysis.Fault
import WichToC.Script
import WichToC.Symbol.Table

/-!
# Declaring names

The first pass over a script makes the scope tree and defines every function, parameter and
variable, so that the second pass can resolve names regardless of the order of functions.  A name
that its scope already defines is reported, and its definition keeps the symbol that it had, if any.
-/

namespace WichToC

variable (t : Table)

/-- A part of a script after a pass, with the table and the diagnostics that the pass added. -/
structure Passed (α : Type) where
  tree : α
  table : Table
  faults : List Diagnostic

/-- Changes the tree alone. -/
def Passed.map {α β : Type} (f : α → β) (passed : Passed α) : Passed β :=
  ⟨f passed.tree, passed.table, passed.faults⟩

namespace Declare

mutual

/-- Declares what a statement of a scope defines, given its span. -/
def stmtKind (scope : ScopeId) (t : Table) (span : Span) : StmtKind → Passed StmtKind
  | .define name value symbol =>
    let defined : Variable :=
      { name := name, ty := none, scope := scope, isParameter := false, span := span }
    match t.define scope (.var defined) with
    | .ok (id, t) => ⟨.define name value (some id), t, []⟩
    | .error _ => ⟨.define name value symbol, t, [(Fault.redefinition name).located span]⟩
  | .ifElse cond thenBlock none =>
    let first := block scope t thenBlock
    ⟨.ifElse cond first.tree none, first.table, first.faults⟩
  | .ifElse cond thenBlock (some elseBlock) =>
    let first := block scope t thenBlock
    let second := block scope first.table elseBlock
    ⟨.ifElse cond first.tree (some second.tree), second.table,
      first.faults ++ second.faults⟩
  | .loop cond body =>
    let inner := block scope t body
    ⟨.loop cond inner.tree, inner.table, inner.faults⟩
  | .block body =>
    let inner := block scope t body
    ⟨.block inner.tree, inner.table, inner.faults⟩
  | s@(.assign ..) | s@(.assignElement ..) | s@(.call _) | s@(.print _) | s@(.ret _) => ⟨s, t, []⟩

/-- Declares what a statement of a scope defines. -/
def stmt (scope : ScopeId) (t : Table) : Stmt → Passed Stmt
  | ⟨kind, span⟩ => (stmtKind scope t span kind).map fun kind => ⟨kind, span⟩

def block (parent : ScopeId) (t : Table) : Block → Passed Block
  | ⟨statements, span, _⟩ =>
    let (scope, t) := t.pushScope .block "local" (some parent)
    let inner := stmts scope t statements
    ⟨⟨inner.tree, span, some scope⟩, inner.table, inner.faults⟩

/-- Declares the statements of a scope in order. -/
def stmts (scope : ScopeId) (t : Table) : List Stmt → Passed (List Stmt)
  | [] => ⟨[], t, []⟩
  | s :: ss =>
    let first := stmt scope t s
    let others := stmts scope first.table ss
    ⟨first.tree :: others.tree, others.table, first.faults ++ others.faults⟩

end

/-- The report of a name that is not that of a type.  The predefined scope holds the built-in types
and nothing else (`resolveType_items`). -/
def typeFaults (mark : TypeMark) : List Diagnostic :=
  match Ty.ofName? mark.name with
  | some _ => []
  | none => [(Fault.unknownName mark.name).located mark.span]

/-- Defines the parameters of a function in its scope; those that are not rejected become parameters
of its symbol. -/
def params (scope : ScopeId) (function : Option SymbolId) (t : Table) :
    List Param → Table × List Diagnostic
  | [] => (t, [])
  | p :: ps =>
    let defined : Variable :=
      { name := p.name, ty := some p.mark.ty, scope := scope, isParameter := true,
        span := p.span }
    let (t, faults) : Table × List Diagnostic :=
      match t.define scope (.var defined) with
      | .ok (id, t) => ((function.map fun f => t.addParameter f id).getD t, [])
      | .error _ => (t, [(Fault.redefinition p.name).located p.span])
    let (t, later) := params scope function t ps
    (t, typeFaults p.mark ++ faults ++ later)

/-- Declares a function, its parameters and its body. -/
def function (f : Function) : Passed Function :=
  let (scope, t) := t.pushScope .function f.name (some Table.global)
  let signature : Signature :=
    { name := f.name, returnTy := (f.returnMark.map TypeMark.ty).getD .void, params := [],
      scope := scope, span := f.span }
  let (symbol, t, faults) : Option SymbolId × Table × List Diagnostic :=
    match t.define Table.global (.func signature) with
    | .ok (id, t) => (some id, t.attachFunction scope id, [])
    | .error _ => (f.symbol, t, [(Fault.redefinition f.name).located f.span])
  let (t, paramFaults) := params scope symbol t f.params
  let body := block scope t f.body
  ⟨{ f with body := body.tree, scope := some scope, symbol := symbol }, body.table,
    f.returnMark.toList.flatMap typeFaults ++ faults ++ paramFaults ++ body.faults⟩

/-- Declares the items of a script in order. -/
def items (t : Table) : List Item → Passed (List Item)
  | [] => ⟨[], t, []⟩
  | .function f :: rest =>
    let first := function t f
    let others := items first.table rest
    ⟨.function first.tree :: others.tree, others.table, first.faults ++ others.faults⟩
  | .statement s :: rest =>
    let first := stmt Table.global t s
    let others := items first.table rest
    ⟨.statement first.tree :: others.tree, others.table, first.faults ++ others.faults⟩

def script (s : Script) : Passed Script :=
  let passed := items t s.items
  ⟨{ items := passed.tree, scope := some Table.global }, passed.table, passed.faults⟩

end Declare

end WichToC
