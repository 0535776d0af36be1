/-!
# Types

The closed set of types, their names, and how they widen: `int` to `float` to vector in arithmetic,
and only `int` to `float` in an assignment.  `void` is what a function without a result returns, and
`error` marks an expression or a variable about which a fault was already reported.
-/

namespace WichToC

/-- A type. -/
inductive Ty where
  | int
  | float
  | string
  | boolean
  | vector
  | void
  | error
deriving DecidableEq, Repr, Inhabited

namespace Ty

/-- The name of a type as programs and messages write it. -/
def name : Ty → String
  | int => "int"
  | float => "float"
  | string => "string"
  | boolean => "boolean"
  | vector => "[]"
  | void => "void"
  | error => "<error>"

/-- The types that a program can write, in the order in which they are predefined. -/
def builtins : List Ty := [int, float, string, vector, boolean]

/-- The type that a program writes by this name. -/
def ofName? (s : String) : Option Ty :=
  builtins.find? fun ty => ty.name = s

/-- Strings and vectors live on the heap and are reference counted. -/
def isHeap : Ty → Bool
  | string | vector => true
  | _ => false

/-- The scalar number types. -/
def isNumeric : Ty → Bool
  | int | float => true
  | _ => false

/-- The place of a type in the order in which arithmetic widens, if it takes part. -/
def rank? : Ty → Option Nat
  | int => some 0
  | float => some 1
  | vector => some 2
  | _ => none

/-- The type of arithmetic between two operands: the wider of the two. -/
def arithmetic? (left right : Ty) : Option Ty := do
  let l ← left.rank?
  let r ← right.rank?
  return if r ≤ l then left else right

/-- Whether a value of type `source` can be stored where `target` is expected: the same type, or an
`int` widened to a `float`. -/
def assignable (source target : Ty) : Bool :=
  source = target || (source = int && target = float)

end Ty

end WichToC
