import WichToC.Diagnostic

/-!
# Diagnostics as text

A diagnostic is shown as its code and message, the line of the source that it is about with a row of
carets under the span, and its suggestion.  Lines are counted from one; the carets count characters,
reach at most to the end of the line, and there is always at least one.
-/

namespace WichToC

/-- The line of a text that holds the start of a span. -/
structure Excerpt where
  lineNumber : Nat
  line : List Char
  /-- The number of characters before the span. -/
  indent : Nat
  /-- The number of characters of the span on this line. -/
  width : Nat
deriving DecidableEq, Repr

namespace Excerpt

/-- Whether a character is not a line feed. -/
def isInLine (c : Char) : Bool := c != '\n'

/-- The excerpt for a span of a text.  A start past the end counts as the end. -/
def ofSpan (text : List Char) (span : Span) : Excerpt :=
  let (before, after) := Text.cutAt span.start text
  let lineStart := (before.reverse.takeWhile isInLine).reverse
  let lineRest := after.takeWhile isInLine
  let marked := (Text.cutAt (span.stop - span.start) after).1.takeWhile isInLine
  { lineNumber := before.count '\n' + 1
    line := lineStart ++ lineRest
    indent := lineStart.length
    width := max marked.length 1 }

/-- A number in a column of at least four characters. -/
def lineLabel (n : Nat) : List Char :=
  let digits := Nat.toDigits 10 n
  List.replicate (4 - digits.length) ' ' ++ digits

/-- The line and the row of carets under it. -/
def render (e : Excerpt) : List Char :=
  lineLabel e.lineNumber ++ [' ', '|', ' '] ++ e.line ++ ['\n'] ++
    [' ', ' ', ' ', ' ', ' ', '|', ' '] ++ List.replicate e.indent ' ' ++
    List.replicate e.width '^' ++ ['\n']

end Excerpt

namespace Diagnostic

variable (source : Option String) (d : Diagnostic)

/-- The excerpt that belongs to a diagnostic, if it has a span and there is a text. -/
def excerpt? : Option Excerpt := do
  let text ← source
  let span ← d.span
  return .ofSpan text.toList span

def line? : Option Nat :=
  (d.excerpt? source).map Excerpt.lineNumber

/-- A diagnostic as text, ending in a line feed. -/
def render : String :=
  let excerpt := ((d.excerpt? source).map fun e => String.ofList e.render).getD ""
  let hint := (d.suggestion.map fun s => "Suggestion: " ++ s ++ "\n").getD ""
  "[" ++ d.kind.code ++ "] " ++ d.message ++ "\n" ++ excerpt ++ hint

end Diagnostic

end WichToC
