/-!
# Numbers of scopes and symbols

Scopes and symbols are numbered in the order in which they are made.
-/

namespace WichToC

/-- The number of a scope. -/
structure ScopeId where
  index : Nat
deriving DecidableEq, Repr, Inhabited

/-- The number of a symbol. -/
structure SymbolId where
  index : Nat
deriving DecidableEq, Repr, Inhabited

end WichToC
