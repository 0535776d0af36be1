/-!
# Forms of commands

The commands as they are written on the command line.  A command is named first and takes one file
and options.  Reading arguments and writing help both follow these descriptions.
-/

namespace WichToC

/-- An option of a command. -/
structure Flag where
  long : String
  short : Option Char := none
  /-- What help calls the value; none for an option that takes no value. -/
  value : Option String := none
  /-- Whether the value is a path, which is never empty. -/
  isPath : Bool := false
  about : String
  /-- The variable of the environment that stands in for a missing option. -/
  env : Option String := none
  default : Option String := none
  required : Bool := false
deriving DecidableEq, Repr

/-- Whether an option accepts a value. -/
def Flag.accepts (flag : Flag) (value : String) : Bool :=
  !flag.isPath || value ≠ ""

/-- A command with its options. -/
structure CommandForm where
  name : String
  about : String
  flags : List Flag
deriving DecidableEq, Repr

namespace CommandForm

/-- The option that chooses how memory is managed. -/
def backendFlag (default : String) : Flag where
  long := "backend"
  value := some "BACKEND"
  about := "Code generation backend: plain or refcounting"
  default := some default

/-- Prints or writes C. -/
def translate : CommandForm where
  name := "translate"
  about := "Translate a .w file to C"
  flags := [
    backendFlag "plain",
    { long := "output", short := some 'o', value := some "OUTPUT", isPath := true,
      about := "Write the C code here instead of stdout" }]

/-- Prints the scopes. -/
def symbols : CommandForm where
  name := "symbols"
  about := "Print the scope tree with every symbol and its type"
  flags := [{ long := "predefined", about := "Also print the predefined scope" }]

/-- Looks for errors. -/
def check : CommandForm where
  name := "check"
  about := "Parse and type check only"
  flags := []

/-- The options for building a program. -/
def buildFlags : List Flag :=
  [{ long := "runtime", value := some "RUNTIME", isPath := true,
     about := "Directory holding wich.h and wich.c", env := some "WICH_RUNTIME",
     required := true },
   { long := "work-dir", value := some "WORK_DIR", isPath := true,
     about := "Where the generated C and the executable go", env := some "WICH_WORK_DIR",
     default := some "/tmp" },
   backendFlag "refcounting",
   { long := "target", value := some "TARGET",
     about := "Target triple for the C compiler, defaults to the host" }]

/-- Builds a program. -/
def build : CommandForm where
  name := "build"
  about := "Translate, then compile against the C runtime"
  flags := buildFlags

/-- Builds a program and runs it. -/
def run : CommandForm where
  name := "run"
  about := "Build, then run the program"
  flags := buildFlags

/-- Every command, in the order in which help lists them. -/
def all : List CommandForm := [translate, symbols, check, build, run]

def ofName? (name : String) : Option CommandForm :=
  all.find? fun form => form.name = name

end CommandForm

end WichToC
