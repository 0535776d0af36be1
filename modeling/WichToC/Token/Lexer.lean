import WichToC.Text.Blank
import WichToC.Token

/-!
# Reading tokens

A text is read from left to right, each time taking the longest lexeme that begins at the present
place.  White space and line comments are skipped.  Text that begins no lexeme becomes an error
token: a single character, a string or block comment up to the place where it could not go on, or an
integer that is too large.

`Token.scan` reads one lexeme and `lex` all of them.
-/

namespace WichToC

/-- The characters that may begin a name. -/
def isNameStart (c : Char) : Bool :=
  c.isAlpha || c = '_'

/-- The characters that may continue a name. -/
def isNameChar (c : Char) : Bool :=
  c.isAlphanum || c = '_'

/-- The largest integer that a program can write. -/
def maxInteger : Nat := Nat.pow 2 63 - 1

/-- The number that a list of decimal digits writes. -/
def digitsValue (digits : List Char) : Nat :=
  digits.foldl (fun n d => 10 * n + (d.toNat - '0'.toNat)) 0

/-- The value of the text between the quotes of a string literal.  A backslash before any character
other than `n`, `t`, a backslash or a quote stands for itself. -/
def unescape : List Char → List Char
  | '\\' :: 'n' :: cs => '\n' :: unescape cs
  | '\\' :: 't' :: cs => '\t' :: unescape cs
  | '\\' :: '\\' :: cs => '\\' :: unescape cs
  | '\\' :: '"' :: cs => '"' :: unescape cs
  | '\\' :: c :: cs => '\\' :: c :: unescape cs
  | ['\\'] => []
  | c :: cs => c :: unescape cs
  | [] => []

/-- How the text after an opening quote goes on. -/
inductive QuoteEnd where
  /-- The closing quote stands after `width` characters. -/
  | closed (width : Nat)
  /-- The string breaks off after `width` characters, at the end of the text or before a backslash
  that escapes no character. -/
  | broken (width : Nat)
deriving DecidableEq, Repr

/-- The same end, found after `n` more characters. -/
def QuoteEnd.later (n : Nat) : QuoteEnd → QuoteEnd
  | .closed width => .closed (width + n)
  | .broken width => .broken (width + n)

/-- Looks for the closing quote of a string. -/
def findQuote : List Char → QuoteEnd
  | [] => .broken 0
  | '"' :: _ => .closed 0
  | ['\\'] => .broken 0
  | '\\' :: '\n' :: _ => .broken 0
  | '\\' :: _ :: cs => (findQuote cs).later 2
  | _ :: cs => (findQuote cs).later 1

/-- The number of characters after `/*` that belong to its error token: up to and with the star of
the first `*/`, or all. -/
def commentWidth : List Char → Nat
  | [] => 0
  | '*' :: '/' :: _ => 1
  | _ :: cs => commentWidth cs + 1

/-- The exponent of a decimal literal. -/
structure Exponent where
  value : Int
  width : Nat

/-- Reads `e`, an optional sign and at least one digit.  An exponent without digits is none. -/
def readExponent? : List Char → Option Exponent
  | e :: cs =>
    if e = 'e' ∨ e = 'E' then
      let (negative, signWidth) : Bool × Nat :=
        match cs.head? with
        | some '+' => (false, 1)
        | some '-' => (true, 1)
        | _ => (false, 0)
      let digits := (cs.drop signWidth).takeWhile Char.isDigit
      if digits.isEmpty then none
      else
        let n : Int := digitsValue digits
        some ⟨if negative then -n else n, 1 + signWidth + digits.length⟩
    else none
  | [] => none

/-- What begins at a place: a token or something to skip (`none`), and the number of characters that
it takes beyond the first. -/
structure Scan where
  token : Option Token
  extra : Nat
deriving DecidableEq, Repr

/-- The decimal literal with the given digits before its point; `cs` is what follows the point. -/
def scanFraction (whole cs : List Char) : Scan :=
  let fraction := cs.takeWhile Char.isDigit
  let digits := digitsValue (whole ++ fraction)
  match readExponent? (cs.drop fraction.length) with
  | some e =>
    ⟨some (.float (.ofDecimal digits (e.value - fraction.length))), fraction.length + e.width⟩
  | none => ⟨some (.float (.ofDecimal digits (-(fraction.length : Int)))), fraction.length⟩

/-- A literal that begins with a digit. -/
def scanNumber (c : Char) (cs : List Char) : Scan :=
  let more := cs.takeWhile Char.isDigit
  match cs.drop more.length with
  | '.' :: rest =>
    let scan := scanFraction (c :: more) rest
    { scan with extra := more.length + 1 + scan.extra }
  | _ =>
    let n := digitsValue (c :: more)
    ⟨some (if n ≤ maxInteger then .number n else .error), more.length⟩

/-- A name or a reserved word. -/
def scanWord (c : Char) (cs : List Char) : Scan :=
  let more := cs.takeWhile isNameChar
  let word := String.ofList (c :: more)
  match Keyword.ofSpelling? word with
  | some keyword => ⟨some (.keyword keyword), more.length⟩
  | none => ⟨some (.identifier word), more.length⟩

/-- A string literal; `cs` is what follows the opening quote. -/
def scanString (cs : List Char) : Scan :=
  match findQuote cs with
  | .closed width => ⟨some (.text (String.ofList (unescape (cs.take width)))), width + 1⟩
  | .broken width => ⟨some .error, width⟩

/-- What begins with a slash: a line comment, the error token of a block comment, or the mark. -/
def scanSlash : List Char → Scan
  | '/' :: cs => ⟨none, 1 + (cs.takeWhile fun c => c != '\r' && c != '\n').length⟩
  | '*' :: cs => ⟨some .error, 1 + commentWidth cs⟩
  | _ => ⟨some (.mark .slash), 0⟩

/-- A mark that `second` completes to a longer one. -/
def scanPair (cs : List Char) (second : Char) (long : Mark) (short : Token) : Scan :=
  if cs.head? = some second then ⟨some (.mark long), 1⟩ else ⟨some short, 0⟩

/-- Reads what begins with the character `c`. -/
def Token.scan (c : Char) (cs : List Char) : Scan :=
  if Text.isBlank c then ⟨none, (cs.takeWhile Text.isBlank).length⟩
  else if isNameStart c then scanWord c cs
  else if c.isDigit then scanNumber c cs
  else
    match c with
    | '"' => scanString cs
    | '/' => scanSlash cs
    | '.' =>
      if (cs.head?.map Char.isDigit).getD false then scanFraction [] cs else ⟨some .error, 0⟩
    | '(' => ⟨some (.mark .leftParen), 0⟩
    | ')' => ⟨some (.mark .rightParen), 0⟩
    | '\x7b' => ⟨some (.mark .leftBrace), 0⟩
    | '\x7d' => ⟨some (.mark .rightBrace), 0⟩
    | '[' => ⟨some (.mark .leftBracket), 0⟩
    | ']' => ⟨some (.mark .rightBracket), 0⟩
    | ',' => ⟨some (.mark .comma), 0⟩
    | ':' => ⟨some (.mark .colon), 0⟩
    | '+' => ⟨some (.mark .plus), 0⟩
    | '-' => ⟨some (.mark .minus), 0⟩
    | '*' => ⟨some (.mark .star), 0⟩
    | '=' => scanPair cs '=' .equal (.mark .assign)
    | '!' => scanPair cs '=' .notEqual (.mark .bang)
    | '>' => scanPair cs '=' .greaterEqual (.mark .greater)
    | '<' => scanPair cs '=' .lessEqual (.mark .less)
    | '&' => scanPair cs '&' .and .error
    | '|' => scanPair cs '|' .or .error
    | _ => ⟨some .error, 0⟩

/-- Reads the lexemes of a text that begins at byte `offset`; `fuel` bounds their number. -/
def lexFrom : Nat → Nat → List Char → List Lexeme
  | 0, _, _ => []
  | _ + 1, _, [] => []
  | fuel + 1, offset, c :: cs =>
    let scan := Token.scan c cs
    let stop := offset + Text.byteLength (c :: cs.take scan.extra)
    let later := lexFrom fuel stop (cs.drop scan.extra)
    match scan.token with
    | some token => ⟨token, ⟨offset, stop⟩⟩ :: later
    | none => later

/-- The lexemes of a text. -/
def lexChars (cs : List Char) : List Lexeme :=
  lexFrom cs.length 0 cs

/-- The lexemes of a text. -/
def lex (source : String) : List Lexeme :=
  lexChars source.toList

end WichToC
