/-!
# C string literals

The literal for a string: the quote, the backslash, line feed, tab and carriage return are written
as escape sequences, and every other character stands for itself.
-/

namespace WichToC.CLiteral

/-- How a character is written in a literal. -/
def escape (c : Char) : List Char :=
  match c with
  | '"' => ['\\', '"']
  | '\\' => ['\\', '\\']
  | '\n' => ['\\', 'n']
  | '\t' => ['\\', 't']
  | '\r' => ['\\', 'r']
  | c => [c]

/-- The characters of the literal for a string. -/
def chars (value : List Char) : List Char :=
  '"' :: value.flatMap escape ++ ['"']

def ofString (value : String) : String :=
  String.ofList (chars value.toList)

end WichToC.CLiteral
