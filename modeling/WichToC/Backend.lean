import WichToC.Analysis
import WichToC.Counting.Inject
import WichToC.Model.Build
import WichToC.Template.Memory

/-!
# From scripts to C

A backend is a way to manage memory in the generated program.  Generating C builds the output model,
injects reference counting where the backend asks for it, and renders the model with the templates
of the backend.  A script about which an error was reported is refused.
-/

namespace WichToC

variable (backend : Backend)

/-- How the generated program manages memory. -/
inductive Backend where
  /-- Nothing is ever freed. -/
  | plain
  /-- Strings and vectors are reference counted. -/
  | counting
deriving DecidableEq, Repr

namespace Backend

def templates : Backend → TemplateGroup
  | plain => .plain
  | counting => .counting

def name : Backend → String
  | plain => "plain"
  | counting => "refcounting"

/-- The backend with a name; one of them also has a short name. -/
def ofName? (name : String) : Option Backend :=
  match name with
  | "plain" => some plain
  | "refcounting" | "rc" => some counting
  | _ => none

/-- What is reported about a name that no backend has. -/
def unknown (name : String) : Diagnostic :=
  { kind := .unknownTarget
    message := "unknown target: " ++ name ++ " (expected plain or refcounting)"
    span := none }

end Backend

/-- A generated C text, with the warnings about nodes for which the templates were not made. -/
structure Generated where
  text : String
  warnings : List Diagnostic

/-- Generates C from an analysed script. -/
def Backend.generate (script : Script) (t : Table) : Except BuildError Generated :=
  (Node.ofScript script t).map fun model =>
    let model :=
      match backend with
      | .plain => model
      | .counting => model.inject t
    let (text, mismatches) := model.render backend.templates
    ⟨Layout.indented text, mismatches.map (Mismatch.diagnostic backend.templates.name)⟩

/-- Why a source text gives no C text. -/
inductive Refusal where
  | rejected (errors : Nat)
  | unbuilt (cause : BuildError)
deriving DecidableEq, Repr

def Refusal.message : Refusal → String
  | rejected n => toString n ++ " error(s) reported, no code generated"
  | unbuilt cause => cause.message

/-- Turns a source text into C, adding to a report. -/
def Backend.translate (source : String) (report : Report) : Except Refusal String × Report :=
  let analysis := Analysis.ofSource source report
  if analysis.report.hasErrors then (.error (.rejected analysis.report.errorCount), analysis.report)
  else
    match backend.generate analysis.script analysis.table with
    | .error cause => (.error (.unbuilt cause), analysis.report)
    | .ok generated => (.ok generated.text, analysis.report.addAll generated.warnings)

end WichToC
