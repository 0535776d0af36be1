import WichToC.Diagnostic
import WichToC.Token

/-!
# Faults of form

Why a token sequence is not a script.  `found` is the token at the place of the fault, none at the
end of the input.
-/

namespace WichToC

/-- A fault of form. -/
inductive SyntaxFault where
  | expected (what : String) (found : Option Token)
  | expectedIdentifier (found : Option Token)
  | expectedType
  | expectedExpression (found : Option Token)
  | expectedStatement (found : Option Token)
  | nestedFunction
  | bareName (name : String)
deriving DecidableEq, Repr

namespace SyntaxFault

/-- A token as messages name what was found. -/
def foundText : Option Token → String
  | some token => token.describe
  | none => "end of input"

def message : SyntaxFault → String
  | expected what found => "expected " ++ what ++ ", found " ++ foundText found
  | expectedIdentifier found => "expected identifier, found " ++ foundText found
  | expectedType => "expected a type"
  | expectedExpression (some token) => "unexpected token " ++ token.describe ++ " in expression"
  | expectedExpression none => "unexpected end of input, expected an expression"
  | expectedStatement (some token) =>
    "unexpected token " ++ token.describe ++ ", expected a statement"
  | expectedStatement none => "unexpected end of input, expected a statement"
  | nestedFunction => "functions can only be defined at the top level"
  | bareName name => "invalid statement: '" ++ name ++ "'"

def suggestion? : SyntaxFault → Option String
  | expectedType => some "types are int, float, string, boolean and []"
  | expectedExpression (some _) =>
    some <| "expected a number, string, boolean, identifier, call, vector, " ++
      "or parenthesized expression"
  | nestedFunction => some "move this function out of the enclosing block"
  | bareName name => some ("did you mean 'var " ++ name ++ " = ...'?")
  | _ => none

/-- The diagnostic for a fault at a place. -/
def diagnostic (fault : SyntaxFault) (span : Span) : Diagnostic :=
  { kind := .parseError
    message := fault.message
    span := some span
    suggestion := fault.suggestion? }

end SyntaxFault

end WichToC
