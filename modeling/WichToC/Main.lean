import WichToC.Cli.Run

/-!
# The command line

Runs the command that the arguments ask for on the files of the system.  Arguments that are not
understood end the program with the exit code 2, a command that fails with 1.
-/

namespace WichToC.Main

/-- The cause of a failed operation on files. -/
def fileError : IO.Error → FileError
  | .noFileOrDirectory .. => .notFound
  | .alreadyExists .. => .alreadyExists
  | .inappropriateType _ 21 _ => .isAFolder
  | .inappropriateType .. => .notAFolder
  | e => .other (toString e)

/-- Runs an operation and gives the cause of its failure. -/
def attempt {α : Type} (action : IO α) : IO (Except FileError α) := do
  try
    return .ok (← action)
  catch e =>
    return .error (fileError e)

def readText (path : String) : IO (Except FileError String) := do
  match ← attempt (IO.FS.readBinFile path) with
  | .error e => return .error e
  | .ok bytes =>
    match String.fromUTF8? bytes with
    | some text => return .ok text
    | none => return .error .notText

/-- Whether there is a file that can be read. -/
def isFile (path : String) : IO Bool := do
  match ← attempt (IO.FS.readBinFile path) with
  | .ok _ => return true
  | .error _ => return false

/-- Whether there is a folder. -/
def isFolder (path : String) : IO Bool := do
  try
    (← IO.FS.realPath path).isDir
  catch _ =>
    return false

/-- The files of the system. -/
def files : Files IO where
  readText := readText
  writeText path content := attempt (IO.FS.writeFile path content)
  createFolder path := attempt (IO.FS.createDir path)
  isFolder := isFolder
  isFile := isFile

end WichToC.Main

open WichToC

/-- The entry point. -/
def main (args : List String) : IO UInt32 := do
  let runtime ← IO.getEnv "WICH_RUNTIME"
  let workDir ← IO.getEnv "WICH_WORK_DIR"
  let env (name : String) : Option String :=
    if name = "WICH_RUNTIME" then runtime else if name = "WICH_WORK_DIR" then workDir else none
  match Command.ofArgs? env args with
  | none =>
    IO.eprint Help.program
    return 2
  | some command =>
    let result ← command.execute Main.files
    IO.eprint result.err
    IO.print result.out
    return if result.success then 0 else 1
