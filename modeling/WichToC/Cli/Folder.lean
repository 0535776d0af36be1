import WichToC.Cli.Files

/-!
# A file system in memory

A tree of folders and files, given by what stands at each place.  A place is the list of names on
the way to it from the root.  Paths that do not start at the root start at the present folder.
-/

namespace WichToC

/-- What stands at a place: a folder, a text, or a file that holds no text. -/
inductive Entry where
  | folder
  | text (content : String)
  | bytes
deriving DecidableEq, Repr

/-- A file system. -/
structure Folder where
  /-- The place at which relative paths start. -/
  present : List String
  entries : List (List String × Entry)
deriving DecidableEq, Repr

namespace Folder

/-- What stands at a place; the root is a folder. -/
def entry? (f : Folder) (place : List String) : Option Entry :=
  if place = [] then some .folder else f.entries.lookup place

/-- Puts something at a place. -/
def set (f : Folder) (place : List String) (entry : Entry) : Folder :=
  { f with
    entries :=
      if (f.entries.lookup place).isSome then
        f.entries.map fun (p, e) => if p = place then (p, entry) else (p, e)
      else f.entries ++ [(place, entry)] }

def endsInSlash (path : String) : Bool :=
  path.toList.getLast? = some '/'

/-- The place at which a path starts. -/
def start (f : Folder) (path : String) : List String :=
  if Path.isAbsolute path then [] else f.present

/-- The place to which names lead, if all but the last step start in a folder. -/
def resolve (f : Folder) (place : List String) : List String → Except FileError (List String)
  | [] => .ok place
  | name :: rest =>
    match f.entry? place with
    | none => .error .notFound
    | some .folder =>
      if name = "." then f.resolve place rest
      else if name = ".." then f.resolve place.dropLast rest
      else f.resolve (place ++ [name]) rest
    | some _ => .error .notAFolder

/-- The place to which a path leads.  A slash at its end asks for a folder, as a dot does. -/
def locate (f : Folder) (path : String) : Except FileError (List String) :=
  if path = "" then .error .notFound
  else f.resolve (f.start path) (Path.names path ++ if endsInSlash path then ["."] else [])

def readText (f : Folder) (path : String) : Except FileError String :=
  match f.locate path with
  | .error e => .error e
  | .ok place =>
    match f.entry? place with
    | none => .error .notFound
    | some .folder => .error .isAFolder
    | some .bytes => .error .notText
    | some (.text content) => .ok content

/-- Writes a text.  A path that ends in a slash names no file. -/
def writeText (f : Folder) (path content : String) : Except FileError Folder :=
  match f.resolve (f.start path) (Path.names path) with
  | .error e => .error e
  | .ok place =>
    if endsInSlash path || f.entry? place = some .folder then .error .isAFolder
    else .ok (f.set place (.text content))

/-- Makes a folder.  What a path leads to after a dot is always there. -/
def createFolder (f : Folder) (path : String) : Except FileError Folder :=
  if path = "" then .error .notFound
  else
    let parts := Path.names path
    match f.resolve (f.start path) (parts.dropLast ++ ["."]) with
    | .error e => .error e
    | .ok outer =>
      match parts.getLast? with
      | none | some "." | some ".." => .error .alreadyExists
      | some name =>
        let place := outer ++ [name]
        if (f.entry? place).isSome then .error .alreadyExists else .ok (f.set place .folder)

def isFolder (f : Folder) (path : String) : Bool :=
  match f.locate path with
  | .error _ => false
  | .ok place => f.entry? place = some .folder

def isFile (f : Folder) (path : String) : Bool :=
  match f.locate path with
  | .error _ => false
  | .ok place =>
    match f.entry? place with
    | none | some .folder => false
    | some _ => true

/-- A present folder with the given files in it, beside a folder for temporary files. -/
def ofFiles (files : List (String × Entry)) : Folder :=
  let present := ["home"]
  let empty : Folder := { present := present, entries := [(present, .folder), (["tmp"], .folder)] }
  files.foldl
    (fun f (path, entry) =>
      let steps := Path.steps path
      let parents := (List.range steps.length).drop 1 |>.map fun n => present ++ steps.take n
      (parents.foldl (fun f place => f.set place .folder) f).set (present ++ steps) entry)
    empty

/-- The texts in the present folder that another state of it does not hold, by their paths. -/
def textsBeside (f before : Folder) : List (String × String) :=
  f.entries.filterMap fun (place, entry) =>
    match entry with
    | .text content =>
      if f.present.isPrefixOf place && before.entry? place ≠ some entry then
        some (String.intercalate "/" (place.drop f.present.length), content)
      else none
    | _ => none

/-- The operations on a file system in memory. -/
def files : Files (StateM Folder) where
  readText path := fun f => (f.readText path, f)
  writeText path content := fun f =>
    match f.writeText path content with
    | .ok changed => (.ok (), changed)
    | .error e => (.error e, f)
  createFolder path := fun f =>
    match f.createFolder path with
    | .ok changed => (.ok (), changed)
    | .error e => (.error e, f)
  isFolder path := fun f => (f.isFolder path, f)
  isFile path := fun f => (f.isFile path, f)

end Folder

end WichToC
