import WichToC.Template.Expression
import WichToC.Template.Statement

/-!
# The two groups of templates

The plain group leaves memory alone: a block declares its variables and the slots of bound values
and then runs its statements.  The counting group starts every heap slot at `NULL`, writes the
changes of reference counts, and ends a block with its cleanup; bound values have been moved into
slots by then.
-/

namespace WichToC.TemplateGroup

/-- What both groups have in common. -/
def shared? (kind : Kind) : Option Template :=
  Template.expr? kind <|> Template.stmt? kind

/-- A declaration without a value. -/
def plainDeclaration : Node → Args → String
  | .varDecl name ty _, _ => ty.cDeclaration name ++ ";"
  | _, _ => ""

/-- A declaration that starts a heap slot without a value. -/
def countedDeclaration : Node → Args → String
  | .varDecl name ty _, _ => ty.cDeclaration name ++ (if ty.isHeap then " = NULL;" else ";")
  | _, _ => ""

/-- The change of a reference count. -/
def countText : Node → Args → String
  | .count .ref slot, _ => "REF(" ++ slot ++ ");"
  | .count .deref slot, _ => "DEREF(" ++ slot ++ ");"
  | _, _ => ""

/-- The templates for programs that do not manage memory. -/
def plain : TemplateGroup where
  name := "plain"
  template?
    | .block =>
      some ⟨["locals", "temps", "stats"], fun _ args =>
        Layout.lines [Layout.lines (args.entries "locals"), Layout.lines (args.entries "temps"),
          Layout.lines (args.sequence "stats")]⟩
    | .varDecl => some ⟨[], plainDeclaration⟩
    | kind => shared? kind

/-- The templates for programs that count references. -/
def counting : TemplateGroup where
  name := "refcounting"
  template?
    | .block =>
      some ⟨["locals", "stats", "cleanup"], fun _ args =>
        Layout.lines [Layout.lines (args.entries "locals"), Layout.lines (args.sequence "stats"),
          Layout.lines (args.sequence "cleanup")]⟩
    | .varDecl => some ⟨[], countedDeclaration⟩
    | .tempVarDef => some ⟨["expr"], Template.stmtText⟩
    | .ref | .deref => some ⟨[], countText⟩
    | kind => shared? kind

end WichToC.TemplateGroup
