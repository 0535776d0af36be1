import WichToC.Number.Shortest
import WichToC.Text.Quoted
import WichToC.Text.Span

/-!
# Tokens

A token is a keyword, a mark (punctuation or an operator), a name, a literal, or an error that
stands for text in which no token could be read.  A lexeme is a token with the span of its text.
-/

namespace WichToC

/-- The reserved words. -/
inductive Keyword where
  | int
  | float
  | string
  | boolean
  | var
  | func
  | ifWord
  | elseWord
  | whileWord
  | returnWord
  | print
  | len
  | trueWord
  | falseWord
deriving DecidableEq, Repr

/-- Punctuation and operators. -/
inductive Mark where
  | leftParen
  | rightParen
  | leftBrace
  | rightBrace
  | leftBracket
  | rightBracket
  | comma
  | colon
  | assign
  | plus
  | minus
  | star
  | slash
  | equal
  | notEqual
  | greaterEqual
  | lessEqual
  | greater
  | less
  | and
  | or
  | bang
deriving DecidableEq, Repr

inductive Token where
  | keyword (word : Keyword)
  | mark (mark : Mark)
  | identifier (name : String)
  | float (value : Binary64)
  | number (value : Nat)
  | text (value : String)
  | error
deriving DecidableEq, Repr

/-- A token together with the span of its text. -/
structure Lexeme where
  token : Token
  span : Span
deriving DecidableEq, Repr

namespace Keyword

/-- Every reserved word. -/
def all : List Keyword :=
  [int, float, string, boolean, var, func, ifWord, elseWord, whileWord, returnWord, print, len,
    trueWord, falseWord]

/-- The spelling of a reserved word. -/
def spelling : Keyword → String
  | int => "int"
  | float => "float"
  | string => "string"
  | boolean => "boolean"
  | var => "var"
  | func => "func"
  | ifWord => "if"
  | elseWord => "else"
  | whileWord => "while"
  | returnWord => "return"
  | print => "print"
  | len => "len"
  | trueWord => "true"
  | falseWord => "false"

/-- The word by which messages name a reserved word. -/
def label : Keyword → String
  | int => "TypeInt"
  | float => "TypeFloat"
  | string => "TypeString"
  | boolean => "TypeBoolean"
  | var => "Var"
  | func => "Func"
  | ifWord => "If"
  | elseWord => "Else"
  | whileWord => "While"
  | returnWord => "Return"
  | print => "Print"
  | len => "Len"
  | trueWord => "True"
  | falseWord => "False"

/-- The reserved word with this spelling. -/
def ofSpelling? (s : String) : Option Keyword :=
  all.find? fun word => word.spelling = s

end Keyword

namespace Mark

/-- The word by which messages name a mark. -/
def label : Mark → String
  | leftParen => "LParen"
  | rightParen => "RParen"
  | leftBrace => "LBrace"
  | rightBrace => "RBrace"
  | leftBracket => "LBracket"
  | rightBracket => "RBracket"
  | comma => "Comma"
  | colon => "Colon"
  | assign => "Assign"
  | plus => "Plus"
  | minus => "Minus"
  | star => "Star"
  | slash => "Slash"
  | equal => "Equal"
  | notEqual => "NotEqual"
  | greaterEqual => "GreaterEqual"
  | lessEqual => "LessEqual"
  | greater => "Greater"
  | less => "Less"
  | and => "And"
  | or => "Or"
  | bang => "Bang"

end Mark

namespace Token

/-- The word by which messages name a token, without its value. -/
def label : Token → String
  | keyword word => word.label
  | mark m => m.label
  | identifier _ => "Identifier"
  | float _ => "Float"
  | number _ => "Number"
  | text _ => "StringLiteral"
  | error => "Error"

/-- The value that a token carries, as text. -/
def value? : Token → Option String
  | identifier name => some name
  | float value => some value.text
  | number value => some (toString value)
  | text value => some value
  | _ => none

/-- A token as messages show it: its label, and its value in parentheses. -/
def describe (t : Token) : String :=
  match t with
  | identifier name => t.label ++ "(" ++ Text.quoted name ++ ")"
  | float value => t.label ++ "(" ++ value.text ++ ")"
  | number value => t.label ++ "(" ++ toString value ++ ")"
  | text value => t.label ++ "(" ++ Text.quoted value ++ ")"
  | _ => t.label

/-- The tokens at which reading goes on after a fault: those that begin a statement or end a
block. -/
def startsStatement : Token → Bool
  | keyword .var | keyword .func | keyword .ifWord | keyword .whileWord | keyword .returnWord
  | keyword .print | mark .leftBrace | mark .rightBrace => true
  | _ => false

end Token

end WichToC
