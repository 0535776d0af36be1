import WichToC.Ty

/-!
# C declarations

The C type for each type, and declarators: strings and vectors are pointers, whose star stands next
to the declared name.
-/

namespace WichToC.Ty

/-- The C type for values of a type. -/
def cType : Ty → String
  | int => "int"
  | float => "double"
  | boolean => "bool"
  | string => "String *"
  | vector => "Vector *"
  | void | error => "void"

def cDeclaration (ty : Ty) (name : String) : String :=
  if ty.isHeap then ty.cType ++ name else ty.cType ++ " " ++ name

end WichToC.Ty
