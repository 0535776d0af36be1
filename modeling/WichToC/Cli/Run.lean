import WichToC.Backend
import WichToC.Cli.Command
import WichToC.Cli.Files
import WichToC.Diagnostic.Excerpt
import WichToC.Symbol.Dump

/-!
# Running commands

Every command reads a script and runs stages on it.  The first stage that reports an error ends the
command, and its diagnostics are shown under the name of the stage.  The functions work with any
file system; what they print is part of their result.
-/

namespace WichToC

/-- What a command prints, and whether it succeeded. -/
structure CommandResult where
  success : Bool
  out : String := ""
  err : String := ""
deriving DecidableEq, Repr

namespace Cli

/-- A message under the name of a stage. -/
def staged (mark stage body : String) : String :=
  "\n" ++ mark ++ " Stage: " ++ stage ++ "\n" ++ body

def failure (stage message : String) : String :=
  staged "✘" stage (message ++ "\n")

/-- Diagnostics one after the other. -/
def shown (source : Option String) (ds : List Diagnostic) : String :=
  String.join (ds.map (Diagnostic.render source))

/-- The diagnostics of a stage: its warnings and then its errors. -/
def stageReport (stage : String) (source : Option String) (ds : List Diagnostic) : String :=
  let warnings := ds.filter Diagnostic.isWarning
  let errors := ds.filter Diagnostic.isError
  (if warnings.isEmpty then "" else staged "!" stage (shown source warnings)) ++
    (if errors.isEmpty then "" else staged "✘" stage (shown source errors))

/-- A command that has printed something so far: it goes on with a value, or is over. -/
structure Progress (α : Type) where
  err : String
  value : Option α

/-- The stages up to the analysis of a script.  Errors of form are shown without those of meaning,
and `keepFaulty` says whether a script with errors of meaning is given nevertheless. -/
def analysed (keepFaulty : Bool) (source : String) : Progress Analysis :=
  let (script, read) := Script.read source (Report.on source)
  let reading := stageReport "Parsing" read.source read.diagnostics
  if read.hasErrors then ⟨reading, none⟩
  else
    let analysis := Analysis.ofScript script read
    let new := analysis.report.diagnostics.drop read.diagnostics.length
    let meaning := stageReport "Semantic" read.source new
    if analysis.report.hasErrors && !keepFaulty then ⟨reading ++ meaning, none⟩
    else ⟨reading ++ meaning, some analysis⟩

/-- The stages up to the C text. -/
def generated (backend : Backend) (source : String) : Progress String :=
  let front := analysed false source
  match front.value with
  | none => ⟨front.err, none⟩
  | some analysis =>
    match backend.generate analysis.script analysis.table with
    | .error cause => ⟨front.err ++ failure "Codegen" cause.message, none⟩
    | .ok c => ⟨front.err ++ stageReport "Codegen" (some source) c.warnings, some c.text⟩

/-- The message for a backend that does not exist. -/
def unknownBackend (name : String) : String :=
  stageReport "Options" none [Backend.unknown name]

/-- The triple of the machine for which programs are built by default. -/
def hostTarget : String := "x86_64-unknown-linux-gnu"

/-- The lines that announce a build. -/
def header (backend : Backend) (target : String) : String :=
  let rule := String.ofList (List.replicate 60 '━')
  rule ++ "\nwich • " ++ backend.name ++ " backend, " ++ target ++ "\n" ++ rule ++ "\n"

def runtimeFiles : List String := ["wich.h", "wich.c"]

variable {m : Type → Type} [Monad m]

/-- Reads a script and goes on with it. -/
def withSource (files : Files m) (file : String) (next : String → m CommandResult) :
    m CommandResult := do
  match ← files.readText file with
  | .ok source => next source
  | .error e => return ⟨false, "", failure "Read" ("cannot read " ++ file ++ ": " ++ e.message)⟩

/-- Prints the C text of a script, or writes it to a file. -/
def translate (files : Files m) (file backend : String) (output : Option String) :
    m CommandResult :=
  match Backend.ofName? backend with
  | none => return ⟨false, "", unknownBackend backend⟩
  | some backend =>
    withSource files file fun source => do
      let c := generated backend source
      match c.value, output with
      | none, _ => return ⟨false, "", c.err⟩
      | some text, none => return ⟨true, text, c.err⟩
      | some text, some path =>
        match ← files.writeText path text with
        | .ok () =>
          return ⟨true, "", c.err ++ "✔ Wrote " ++ path ++ " (" ++ backend.name ++ " backend)\n"⟩
        | .error e =>
          return ⟨false, "",
            c.err ++ failure "Write" ("cannot write " ++ path ++ ": " ++ e.message)⟩

/-- Prints the scope tree of a script. -/
def symbols (files : Files m) (file : String) (withPredefined : Bool) : m CommandResult :=
  withSource files file fun source => do
    let front := analysed true source
    match front.value with
    | none => return ⟨false, "", front.err⟩
    | some analysis =>
      let predefined := if withPredefined then analysis.table.dump Table.predefined else ""
      return ⟨!analysis.report.hasErrors, predefined ++ analysis.table.dump Table.global, front.err⟩

/-- Says whether a script has errors. -/
def check (files : Files m) (file : String) : m CommandResult :=
  withSource files file fun source => do
    let front := analysed false source
    match front.value with
    | none => return ⟨false, "", front.err⟩
    | some _ => return ⟨true, "✔ No errors found in " ++ file ++ "\n", front.err⟩

/-- The first of the given files that a folder does not have. -/
def firstMissing (files : Files m) (folder : String) : List String → m (Option String)
  | [] => return none
  | name :: names => do
    let path := Path.join folder name
    if ← files.isFile path then firstMissing files folder names else return some path

/-- Writes the C file and looks for what its compilation needs; the result is the failure. -/
def compile (files : Files m) (plan : BuildPlan) (target text : String) : m String := do
  match ← files.createFolders plan.workDir with
  | .error e => return "cannot create work dir " ++ plan.workDir ++ ": " ++ e.message
  | .ok () =>
    let path := Path.cFile plan.workDir (Path.baseName plan.file)
    match ← files.writeText path text with
    | .error e => return "cannot write " ++ path ++ ": " ++ e.message
    | .ok () =>
      match ← firstMissing files plan.runtime runtimeFiles with
      | some missing =>
        return "runtime file " ++ missing ++
          " not found, point --runtime or WICH_RUNTIME at the wich runtime"
      | none => return "no C compiler found for target " ++ target

/-- Builds a program up to the point where a C compiler would be needed, and fails there. -/
def build (files : Files m) (plan : BuildPlan) : m CommandResult :=
  match Backend.ofName? plan.backend with
  | none => return ⟨false, "", unknownBackend plan.backend⟩
  | some backend => do
    let target := plan.target.getD hostTarget
    let outcome ← withSource files plan.file fun source => do
      let c := generated backend source
      match c.value with
      | none => return ⟨false, "", c.err⟩
      | some text =>
        let cause ← compile files plan target text
        return ⟨false, "", c.err ++ failure "C compile" cause⟩
    return { outcome with err := header backend target ++ outcome.err }

end Cli

def Command.execute {m : Type → Type} [Monad m] (files : Files m) : Command → m CommandResult
  | .version => return ⟨true, "wich 0.0.1\n", ""⟩
  | .help text => return ⟨true, text, ""⟩
  | .translate file backend output => Cli.translate files file backend output
  | .symbols file withPredefined => Cli.symbols files file withPredefined
  | .check file => Cli.check files file
  | .build plan | .run plan => Cli.build files plan

end WichToC
