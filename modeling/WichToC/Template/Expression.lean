import WichToC.C.Layout
import WichToC.C.Quoted
import WichToC.Template

/-!
# Templates of expressions

How expressions are written in C, whichever way memory is managed.  Strings and vectors are made and
combined by functions of the runtime library.  Scripts count from one and C from zero.
-/

namespace WichToC.Template

/-- The runtime function for an operator between strings or between vectors. -/
def runtimeFunction? (operandTy : Ty) (op : String) : Option String :=
  match operandTy, op with
  | .string, "+" => some "String_add"
  | .string, "==" => some "String_eq"
  | .string, "!=" => some "String_neq"
  | .vector, "+" => some "Vector_add"
  | .vector, "-" => some "Vector_sub"
  | .vector, "*" => some "Vector_mul"
  | .vector, "/" => some "Vector_div"
  | .vector, "==" => some "Vector_eq"
  | .vector, "!=" => some "Vector_neq"
  | _, _ => none

def callText (function : String) (args : List String) : String :=
  function ++ "(" ++ Layout.commas args ++ ")"

/-- An operation written with its operator. -/
def operation (left op right : String) : String :=
  "(" ++ left ++ " " ++ op ++ " " ++ right ++ ")"

/-- The place in C of an element of a script. -/
def offset (index : String) : String := "(" ++ index ++ ") - 1"

def vectorText (elems : List String) : String :=
  if elems.isEmpty then "Vector_new(NULL, 0)"
  else
    "Vector_new((double [])\x7b" ++ Layout.commas elems ++ "\x7d, " ++ toString elems.length ++ ")"

/-- The C text of an expression with rendered operands. -/
def exprText (n : Node) (args : Args) : String :=
  match n with
  | .literal .string value _ => callText "String_new" [CLiteral.ofString value]
  | .literal _ value _ => value
  | .vectorLit .. => vectorText (args.sequence "elems")
  | .varRef name _ _ => name
  | .call name .. => callText name (args.sequence "args")
  | .binary kind op _ operandTy .. =>
    let left := args.single "left"
    let right := args.single "right"
    match kind with
    | .int | .float => operation left op right
    | .string | .vector =>
      match runtimeFunction? operandTy op with
      | some function => callText function [left, right]
      | none => operation left op right
  | .unary .negate ty .. =>
    if ty = .vector then callText "Vector_neg" [args.single "expr"]
    else "(-" ++ args.single "expr" ++ ")"
  | .unary .not .. => "(!" ++ args.single "expr" ++ ")"
  | .index .vector .. => callText "ith" [args.single "expr", offset (args.single "index")]
  | .index .string .. =>
    let place := "->str[" ++ offset (args.single "index") ++ "]"
    callText "String_from_char" [args.single "expr" ++ place]
  | .length argTy .. =>
    callText (if argTy = .string then "String_len" else "Vector_len") [args.single "expr"]
  | .widen .intToFloat .. => "((double)" ++ args.single "expr" ++ ")"
  | .widen .intToVector .. => callText "Vector_from_int" [args.single "expr", args.single "len"]
  | .widen .floatToVector .. => callText "Vector_from_float" [args.single "expr", args.single "len"]
  | .bind name .. =>
    "(" ++ name ++ " = " ++ args.single "value" ++ ", " ++ args.single "body" ++ ")"
  | _ => ""

/-- The slots that the template of an expression asks for. -/
def exprParams? : Kind → Option (List String)
  | .intLiteral | .floatLiteral | .boolLiteral | .stringLiteral | .varRef => some []
  | .vectorLiteral => some ["elems"]
  | .funcCall => some ["args"]
  | .intBinary | .floatBinary | .strBinary | .vectorBinary => some ["left", "right"]
  | .negateExpr | .notExpr | .vectorLen | .intToFloat => some ["expr"]
  | .vectorIndex | .strIndex => some ["expr", "index"]
  | .intToVector | .floatToVector => some ["expr", "len"]
  | .bind => some ["value", "body"]
  | _ => none

def expr? (kind : Kind) : Option Template :=
  (exprParams? kind).map fun params => ⟨params, exprText⟩

end WichToC.Template
