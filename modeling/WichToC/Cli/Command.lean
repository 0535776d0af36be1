import WichToC.Cli.Help

/-!
# Commands

What can be asked for on the command line.  Options may stand before and after the file; a value is
the next argument or is attached, as in `--backend=rc`, `-of` or `-o=f`; after `--` everything is a
file.  An option may be given once.  Paths are never empty.

Arguments are read from left to right, and the first one that asks for help or is not understood
settles the matter.  What is missing is noticed at the end.
-/

namespace WichToC

/-- What building a program needs. -/
structure BuildPlan where
  file : String
  /-- The folder with the runtime library. -/
  runtime : String
  /-- The folder for generated files. -/
  workDir : String
  backend : String
  target : Option String
deriving DecidableEq, Repr

inductive Command where
  | version
  | help (text : String)
  | translate (file backend : String) (output : Option String)
  | symbols (file : String) (withPredefined : Bool)
  | check (file : String)
  | build (plan : BuildPlan)
  | run (plan : BuildPlan)
deriving DecidableEq, Repr

namespace Command

variable (env : String → Option String) (flags : List Flag)

/-- Why reading stops early. -/
inductive Stop where
  | help
  | invalid
deriving DecidableEq, Repr

/-- The arguments of a command, sorted. -/
structure Given where
  file : Option String := none
  /-- Values by the long names of their options; an option without a value has an empty one. -/
  values : List (String × String) := []
deriving DecidableEq, Repr

namespace Given

variable (g : Given) (flag : Flag)

def value? (long : String) : Option String := g.values.lookup long

/-- Records an option, which must be the first of its name. -/
def addValue (value : String) : Except Stop Given :=
  if (g.value? flag.long).isSome || !flag.accepts value then .error .invalid
  else .ok { g with values := (flag.long, value) :: g.values }

/-- Records the file, of which there is one. -/
def addFile (file : String) : Except Stop Given :=
  if g.file.isSome || file = "" then .error .invalid else .ok { g with file := some file }

/-- Gives an option that is missing the value of its variable of the environment, or else its
default. -/
def complete : Except Stop Given :=
  if (g.value? flag.long).isSome then .ok g
  else
    match flag.env.bind env <|> flag.default with
    | some value => g.addValue flag value
    | none => if flag.required then .error .invalid else .ok g

end Given

/-! ## Arguments -/

/-- Whether an argument is read as an option. -/
def looksLikeFlag (arg : String) : Bool :=
  match arg.toList with
  | '-' :: _ :: _ => true
  | _ => false

/-- What an argument asks for. -/
inductive Piece where
  | rest
  | help
  | file (name : String)
  | flag (flag : Flag) (attached : Option String)
  | unknown
deriving DecidableEq, Repr

/-- A long option with the value after an equals sign. -/
def longPiece (body : List Char) : Piece :=
  let name := String.ofList (body.takeWhile fun c => c ≠ '=')
  let attached :=
    match body.dropWhile fun c => c ≠ '=' with
    | _ :: value => some (String.ofList value)
    | [] => none
  match flags.find? fun flag => flag.long = name with
  | some flag => .flag flag attached
  | none => if name = "help" && attached.isNone then .help else .unknown

/-- A short option with the value that follows it directly. -/
def shortPiece (letter : Char) (body : List Char) : Piece :=
  let attached :=
    match body with
    | [] => none
    | '=' :: value => some (String.ofList value)
    | value => some (String.ofList value)
  match flags.find? fun flag => flag.short = some letter with
  | some flag => .flag flag attached
  | none => if letter = 'h' then .help else .unknown

/-- What an argument asks for. -/
def piece (arg : String) : Piece :=
  match arg.toList with
  | ['-', '-'] => .rest
  | '-' :: '-' :: body => longPiece flags body
  | '-' :: letter :: body => shortPiece flags letter body
  | _ => .file arg

def sort (flags : List Flag) : List String → Given → Except Stop Given
  | [], g => .ok g
  | arg :: args, g =>
    match piece flags arg with
    | .rest => args.foldlM Given.addFile g
    | .help => .error .help
    | .unknown => .error .invalid
    | .file name => do sort flags args (← g.addFile name)
    | .flag flag attached =>
      if flag.value.isSome then
        match attached, args with
        | some value, args => do sort flags args (← g.addValue flag value)
        | none, value :: args =>
          if looksLikeFlag value then .error .invalid
          else do sort flags args (← g.addValue flag value)
        | none, [] => .error .invalid
      else
        match attached with
        | some _ => .error .invalid
        | none => do sort flags args (← g.addValue flag "")

/-! ## Commands -/

/-- The plan for `build` and `run`. -/
def plan? (g : Given) : Option BuildPlan := do
  return {
    file := ← g.file
    runtime := ← g.value? "runtime"
    workDir := ← g.value? "work-dir"
    backend := ← g.value? "backend"
    target := g.value? "target" }

/-- The command of a name with its arguments. -/
def ofGiven? (name : String) (g : Given) : Option Command :=
  match name with
  | "translate" => do return .translate (← g.file) (← g.value? "backend") (g.value? "output")
  | "symbols" => do return .symbols (← g.file) (g.value? "predefined").isSome
  | "check" => g.file.map .check
  | "build" => (plan? g).map .build
  | "run" => (plan? g).map .run
  | _ => none

/-- Reads the arguments of a command. -/
def ofForm? (form : CommandForm) (args : List String) : Option Command :=
  match do form.flags.foldlM (Given.complete env) (← sort form.flags args {}) with
  | .ok g => ofGiven? form.name g
  | .error .help => some (.help (Help.ofForm env form))
  | .error .invalid => none

/-- What an option in place of a command asks for. -/
def shortAnswer? (arg : String) : Option Command :=
  match arg.toList with
  | '-' :: 'V' :: _ => some .version
  | '-' :: 'h' :: _ => some (.help Help.program)
  | _ =>
    match arg with
    | "--version" => some .version
    | "--help" => some (.help Help.program)
    | _ => none

/-- The command that arguments ask for, none if they are not understood. -/
def ofArgs? : List String → Option Command
  | [] => none
  | "help" :: topics => (Help.ofTopics? env topics).map .help
  | name :: args =>
    match CommandForm.ofName? name with
    | some form => ofForm? env form args
    | none => shortAnswer? name

end Command

end WichToC
