import WichToC.Diagnostic
import WichToC.Script.Operator
import WichToC.Ty

/-!
# Faults of meaning

Why a script that has the right form has no meaning: names that are unknown, defined twice or used
before their definition, and types that do not go together.
-/

namespace WichToC

/-- A fault of meaning. -/
inductive Fault where
  | unknownName (name : String)
  | redefinition (name : String)
  | forwardReference (name : String)
  | notAVariable (name : String)
  | notAValue (name : String)
  | notAFunction (name : String)
  | voidValue
  | mixedOperands (left : Ty) (op : Operator) (right : Ty)
  | invalidOperands (left : Ty) (op : Operator) (right : Ty)
  | negated (ty : Ty)
  | complemented (ty : Ty)
  | indexed (ty : Ty)
  | measured (ty : Ty)
  | indexType (found : Ty)
  | elementType (found : Ty)
  | conditionType (found : Ty)
  | assignment (name : String) (expected found : Ty)
  | elementOf (name : String) (ty : Ty)
  | returnOutside
  | returnWithoutType (function : String)
  | returnType (function : String) (expected found : Ty)
  | argumentCount (function : String) (expected found : Nat)
  | argumentType (position : Nat) (function : String) (expected found : Ty)
deriving DecidableEq, Repr

namespace Fault

/-- The kind of diagnostic by which a fault is reported. -/
def kind : Fault → DiagnosticKind
  | unknownName _ => .symbolNotFound
  | redefinition _ => .symbolRedefinition
  | forwardReference _ => .forwardReference
  | mixedOperands .. | indexType _ | elementType _ | conditionType _ | assignment ..
  | returnType .. => .incompatibleTypes
  | argumentCount .. => .argumentCount
  | argumentType .. => .incompatibleArgument
  | notAVariable _ | notAValue _ | notAFunction _ | voidValue | invalidOperands .. | negated _
  | complemented _ | indexed _ | measured _ | elementOf .. | returnOutside
  | returnWithoutType _ => .invalidOperation

def message : Fault → String
  | unknownName name => "symbol not found: " ++ name
  | redefinition name => "symbol redefinition: " ++ name
  | forwardReference name => "forward reference to variable: " ++ name
  | notAVariable name => "invalid operation: " ++ name ++ " is not a variable"
  | notAValue name => "invalid operation: " ++ name ++ " is not a value"
  | notAFunction name => "invalid operation: " ++ name ++ " is not a function"
  | voidValue => "invalid operation: void function result used as a value"
  | mixedOperands left op right =>
    "incompatible types: " ++ left.name ++ " " ++ op.symbol ++ " " ++ right.name
  | invalidOperands left op right =>
    "invalid operation: " ++ left.name ++ " " ++ op.symbol ++ " " ++ right.name
  | negated ty => "invalid operation: - " ++ ty.name
  | complemented ty => "invalid operation: ! " ++ ty.name
  | indexed ty => "invalid operation: cannot index a value of type " ++ ty.name
  | measured ty => "invalid operation: len of " ++ ty.name
  | indexType found => "incompatible types: index must be int, found " ++ found.name
  | elementType found => "incompatible types: vector elements are numbers, found " ++ found.name
  | conditionType found => "incompatible types: condition must be boolean, found " ++ found.name
  | assignment name expected found =>
    "incompatible types: cannot assign " ++ found.name ++ " to " ++ name ++ " of type " ++
      expected.name
  | elementOf name ty =>
    "invalid operation: element assignment to " ++ name ++ " of type " ++ ty.name
  | returnOutside => "invalid operation: return outside of a function"
  | returnWithoutType function =>
    "invalid operation: " ++ function ++ " has no return type but returns a value"
  | returnType function expected found =>
    "incompatible types: " ++ function ++ " returns " ++ expected.name ++ ", found " ++ found.name
  | argumentCount function expected found =>
    "incorrect number of arguments: " ++ function ++ " expects " ++ toString expected ++
      ", found " ++ toString found
  | argumentType position function expected found =>
    "incompatible argument type: argument " ++ toString position ++ " of " ++ function ++
      " expects " ++ expected.name ++ ", found " ++ found.name

/-- The diagnostic for a fault at a place. -/
def located (fault : Fault) (span : Span) : Diagnostic :=
  { kind := fault.kind, message := fault.message, span := some span }

end Fault

end WichToC
