/-!
# Layout of C text

Generated text is put together from parts: parts on lines of their own, parts between braces, and
parts between commas.  An empty part leaves an empty line.  `indented` moves every line to the right
by the number of braces around it and takes out the empty lines that separate nothing.

Blanks and line ends outside string literals carry no meaning in C; `oneLine` brings a text into the
form in which each run of them is one blank.
-/

namespace WichToC.Layout

variable (parts : List String) (text : String)

/-! ## Parts -/

/-- Parts on lines of their own. -/
def lines : String :=
  String.intercalate "\n" parts

/-- Parts with an empty line between them. -/
def paragraphs : String :=
  String.intercalate "\n\n" parts

/-- A body between braces, after what stands on the line of the first brace. -/
def braced (head body : String) : String :=
  head ++ lines ["\x7b", body, "\x7d"]

/-- Parts between commas. -/
def commas : String :=
  String.intercalate ", " parts

/-! ## Places -/

/-- Where in a text a character stands. -/
inductive Place where
  | outside
  | string
  /-- After a backslash in a string. -/
  | escape
deriving DecidableEq, Repr

/-- The place after a character. -/
def Place.next : Place → Char → Place
  | .outside, c => if c = '"' then .string else .outside
  | .string, c => if c = '"' then .outside else if c = '\\' then .escape else .string
  | .escape, _ => .string

/-! ## Indentation -/

/-- The number of open braces after the characters of a line. -/
def depthAfter : Nat → Place → List Char → Nat
  | depth, _, [] => depth
  | depth, place, c :: cs =>
    let depth :=
      if place ≠ .outside then depth
      else if c = '\x7b' then depth + 1
      else if c = '\x7d' then depth - 1
      else depth
    depthAfter depth (place.next c) cs

/-- The lines of a text. -/
def splitLines : List Char → List (List Char)
  | [] => [[]]
  | c :: cs =>
    if c = '\n' then [] :: splitLines cs
    else
      match splitLines cs with
      | [] => [[c]]
      | line :: rest => (c :: line) :: rest

/-- A line with the blanks before it.  A line that begins with a closing brace stands below the
line that opened it. -/
def indentLine (depth : Nat) (line : List Char) : List Char :=
  let outer := line.head? = some '\x7d'
  List.replicate (4 * (if outer then depth - 1 else depth)) ' ' ++ line

/-- Lines moved to the right, where `depth` braces are open before the first one.  `gap` tells
whether an empty line stands before it; one that stands outside braces is written when a line
follows. -/
def indentLines (depth : Nat) (gap : Bool) : List (List Char) → List (List Char)
  | [] => []
  | [] :: rest => indentLines depth (depth == 0) rest
  | line :: rest =>
    let written := indentLine depth line :: indentLines (depthAfter depth .outside line) false rest
    if gap then [] :: written else written

/-- A text with every line moved to the right by the number of braces around it.  Empty lines are
kept only between lines outside braces, and there only one. -/
def indented : String :=
  String.join ((indentLines 0 false (splitLines text.toList)).map fun line =>
    String.ofList line ++ "\n")

/-! ## One line -/

/-- Whether a character may be exchanged for a blank between tokens. -/
def isGap (c : Char) : Bool :=
  c = ' ' || c = '\t' || c = '\r' || c = '\n'

/-- Writes the characters from a place on.  `gap` tells whether a gap stands before them; it is
written when something follows it. -/
def joinLines : Place → Bool → List Char → List Char
  | _, _, [] => []
  | place, gap, c :: cs =>
    if place = .outside && isGap c then joinLines place true cs
    else
      let rest := c :: joinLines (place.next c) false cs
      if gap then ' ' :: rest else rest

/-- The text on one line: outside strings every gap is one blank, and there is none at the start or
at the end. -/
def oneLine : String :=
  String.ofList (joinLines .outside false (text.toList.dropWhile isGap))

end WichToC.Layout
