import WichToC.Cli.Path

/-!
# Files

What the command line asks of a file system, and why a request can fail.
-/

namespace WichToC

/-- Why a file could not be read or written. -/
inductive FileError where
  | notFound
  | alreadyExists
  | notAFolder
  | isAFolder
  | notText
  | other (message : String)
deriving DecidableEq, Repr

/-- The message for a failure. -/
def FileError.message : FileError → String
  | notFound => "No such file or directory (os error 2)"
  | alreadyExists => "File exists (os error 17)"
  | notAFolder => "Not a directory (os error 20)"
  | isAFolder => "Is a directory (os error 21)"
  | notText => "stream did not contain valid UTF-8"
  | other message => message

/-- The operations of a file system. -/
structure Files (m : Type → Type) where
  readText : String → m (Except FileError String)
  writeText : String → String → m (Except FileError Unit)
  /-- Makes a folder in one that exists. -/
  createFolder : String → m (Except FileError Unit)
  isFolder : String → m Bool
  isFile : String → m Bool

namespace Files

variable {m : Type → Type} [Monad m]

/-- Makes a folder where there may be one already. -/
def ensureFolder (files : Files m) (path : String) : m (Except FileError Unit) := do
  match ← files.createFolder path with
  | .ok () => return .ok ()
  | .error e => if ← files.isFolder path then return .ok () else return .error e

/-- Makes the first of the folders; where it lacks a folder around it, the others are made before
it, from the last one on. -/
def ensureAll (files : Files m) : List String → m (Except FileError Unit)
  | [] => return .ok ()
  | path :: outer => do
    match ← files.ensureFolder path with
    | .error .notFound =>
      match ← files.ensureAll outer with
      | .ok () => files.ensureFolder path
      | .error e => return .error e
    | result => return result

/-- Makes a folder and the folders around it, where they are missing. -/
def createFolders (files : Files m) (path : String) : m (Except FileError Unit) :=
  files.ensureAll (path :: Path.outer path)

end Files

end WichToC
