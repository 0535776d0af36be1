/-!
# Paths

Paths are texts whose parts stand between slashes.  Empty parts and single dots name no step, so
they do not count as the last part of a path.
-/

namespace WichToC.Path

variable (path : String)

/-- The parts of a path, empty ones included. -/
def split : List Char → List (List Char)
  | [] => [[]]
  | c :: cs =>
    if c = '/' then [] :: split cs
    else
      match split cs with
      | [] => [[c]]
      | part :: parts => (c :: part) :: parts

/-- The names on a path, dots included. -/
def names : List String :=
  ((split path.toList).map String.ofList).filter fun part => part ≠ ""

/-- The parts of a path that name a step. -/
def steps : List String :=
  (names path).filter fun part => part ≠ "."

/-- Whether a path starts at the root. -/
def isAbsolute : Bool :=
  path.toList.head? = some '/'

/-- The paths of the folders around what a path leads to, the innermost one first. -/
def outer : List String :=
  let parts := names path
  let beginnings := (List.range parts.length).map fun n => parts.take (n + 1)
  let places := beginnings.filter fun parts => parts.getLast? ≠ some "."
  places.dropLast.reverse.map fun parts =>
    (if isAbsolute path then "/" else "") ++ String.intercalate "/" parts

/-- The name of the file or folder that a path leads to. -/
def fileName? : Option String :=
  match (steps path).getLast? with
  | some ".." | none => none
  | some name => some name

/-- A name without its extension: what stands before the last dot.  A dot at the start of the name
does not begin an extension. -/
def stem (name : String) : String :=
  let reversed := name.toList.reverse
  let before := (reversed.dropWhile fun c => c ≠ '.').drop 1
  if before.isEmpty then name else String.ofList before.reverse

/-- The path of something inside a folder. -/
def join (folder inside : String) : String :=
  if isAbsolute inside then inside
  else if folder = "" || folder.toList.getLast? = some '/' then folder ++ inside
  else folder ++ "/" ++ inside

/-- The name that generated files get: that of the input without its extension. -/
def baseName (input : String) : String :=
  ((fileName? input).map stem).getD "a"

/-- The path of the generated C file. -/
def cFile (workDir base : String) : String :=
  join workDir (base ++ ".c")

/-- Whether a text occurs in another one. -/
def occursIn (part : List Char) : List Char → Bool
  | [] => part.isEmpty
  | c :: cs => part.isPrefixOf (c :: cs) || occursIn part cs

def executable (workDir target base : String) : String :=
  join workDir (if occursIn "windows".toList target.toList then base ++ ".exe" else base)

end WichToC.Path
