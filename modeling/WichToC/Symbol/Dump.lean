import WichToC.Symbol.Table

/-!
# Scope trees as text

A scope is written as its name and, between braces and indented by four blanks, its symbols in order
of definition and then its inner scopes.  A variable is written as `scope.name:type`, a function by
its scope, and a scope that was written for a function is not written again.
-/

namespace WichToC.Table

/-- The blanks before the lines of a level. -/
def indentation (level : Nat) : String :=
  String.ofList (List.replicate (4 * level) ' ')

/-- The lines of a scope at a level; `fuel` bounds the depth of the tree. -/
def dumpFrom (t : Table) : Nat → Nat → ScopeId → String
  | 0, _, _ => ""
  | fuel + 1, level, id =>
    match t.scope? id with
    | none => ""
    | some scope =>
      let indent := indentation level
      let symbols := scope.symbols.filterMap t.symbol?
      let symbolLine : Symbol → String
        | .type ty => indent ++ "    " ++ ty.name ++ "\n"
        | .var v =>
          indent ++ "    " ++ scope.name ++ "." ++ v.name ++ ":" ++
            (v.ty.map Ty.name).getD "void" ++ "\n"
        | .func f => t.dumpFrom fuel (level + 1) f.scope
      let written := symbols.filterMap fun s => s.func?.map Signature.scope
      let others := scope.nested.filter fun s => !written.contains s
      indent ++ scope.name ++ " \x7b\n" ++ String.join (symbols.map symbolLine) ++
        String.join (others.map (t.dumpFrom fuel (level + 1))) ++ indent ++ "\x7d\n"

/-- A scope with all that it holds, as text. -/
def dump (t : Table) (scope : ScopeId) : String :=
  t.dumpFrom (t.scopes.size + 1) 0 scope

end WichToC.Table
