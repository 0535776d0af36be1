import WichToC.C.Declaration
import WichToC.C.Layout
import WichToC.Template

/-!
# Templates of statements and functions

How statements, functions and the file are written in C, whichever way memory is managed.  The file
declares all functions before it defines them, so that their order does not matter.
-/

namespace WichToC.Template

/-- The head of a function. -/
def signatureText (returnTy : Ty) (name : String) (params : List String) : String :=
  returnTy.cType ++ " " ++ name ++ "(" ++ Layout.commas params ++ ")"

/-- The declaration of a parameter. -/
def paramText? : Node → Option String
  | .argDef name ty => some (ty.cDeclaration name)
  | _ => none

/-- The declaration of a function ahead of its definition. -/
def prototypeText? : Node → Option String
  | .func head args _ =>
    some (signatureText head.returnTy head.name (args.filterMap paramText?) ++ ";")
  | _ => none

/-- The statement that prints a value of a type; without a value it ends the line. -/
def printText (ty : Option Ty) (value : String) : String :=
  match ty with
  | some .int => "printf(\"%d\\n\", " ++ value ++ ");"
  | some .float => "printf(\"%1.2f\\n\", " ++ value ++ ");"
  | some .boolean => "printf(\"%s\\n\", (" ++ value ++ ") ? \"true\" : \"false\");"
  | some .string => "print_string(" ++ value ++ ");"
  | some .vector => "print_vector(" ++ value ++ ");"
  | _ => "printf(\"\\n\");"

/-- The lines at the head of every file. -/
def includes : List String :=
  ["#include <stdio.h>", "#include <stdbool.h>", "#include \"wich.h\""]

/-- The C text of a statement, a function or a file with rendered parts. -/
def stmtText (n : Node) (args : Args) : String :=
  match n with
  | .file _ funcs _ =>
    Layout.paragraphs [Layout.lines includes, Layout.lines (args.entries "globals"),
      Layout.lines (funcs.filterMap prototypeText?), Layout.paragraphs (args.sequence "funcs"),
      args.single "main"]
  | .func head .. =>
    Layout.braced (signatureText head.returnTy head.name (args.sequence "args") ++ " ")
      (args.single "body")
  | .mainFunc _ =>
    Layout.braced "int main(int argc, char *argv[]) "
      (Layout.lines [args.single "body", "return 0;"])
  | .argDef name ty => ty.cDeclaration name
  | .varDef name .. | .assign name .. | .tempDef name .. =>
    name ++ " = " ++ args.single "expr" ++ ";"
  | .elementAssign name .. =>
    "set_ith(" ++ name ++ ", (" ++ args.single "index" ++ ") - 1, " ++ args.single "expr" ++ ");"
  | .ifStat .. =>
    let yes := Layout.braced ("if (" ++ args.single "cond" ++ ") ") (args.single "then")
    match args.single? "else_branch" with
    | some no => Layout.lines [yes, Layout.braced "else " no]
    | none => yes
  | .whileStat .. => Layout.braced ("while (" ++ args.single "cond" ++ ") ") (args.single "body")
  | .returnStat .. => "return " ++ args.single "expr" ++ ";"
  | .printStat ty _ => printText ty (args.single "expr")
  | .callStat _ => args.single "call" ++ ";"
  | .blockStat _ => Layout.braced "" (args.single "block")
  | .breakStat => "break;"
  | _ => ""

/-- The slots that the template of a statement, a function or a file asks for. -/
def stmtParams? : Kind → Option (List String)
  | .file => some ["globals", "funcs", "main"]
  | .func => some ["args", "body"]
  | .mainFunc => some ["body"]
  | .argDef | .breakStat => some []
  | .varDefStat | .assignStat | .returnStat | .printStat => some ["expr"]
  | .elementAssignStat => some ["index", "expr"]
  | .ifStat => some ["cond", "then", "else_branch"]
  | .whileStat => some ["cond", "body"]
  | .callStat => some ["call"]
  | .blockStat => some ["block"]
  | _ => none

/-- The template of a kind of statement, of functions or of the file. -/
def stmt? (kind : Kind) : Option Template :=
  (stmtParams? kind).map fun params => ⟨params, stmtText⟩

end WichToC.Template
