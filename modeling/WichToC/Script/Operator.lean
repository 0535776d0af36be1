/-!
# Binary operators

The binary operators with their spelling and their precedence; all of them group to the left.
-/

namespace WichToC

/-- A binary operator. -/
inductive Operator where
  | plus
  | minus
  | times
  | divide
  | less
  | lessEqual
  | greater
  | greaterEqual
  | equal
  | notEqual
  | and
  | or
deriving DecidableEq, Repr

namespace Operator

/-- The spelling of an operator. -/
def symbol : Operator → String
  | plus => "+"
  | minus => "-"
  | times => "*"
  | divide => "/"
  | less => "<"
  | lessEqual => "<="
  | greater => ">"
  | greaterEqual => ">="
  | equal => "=="
  | notEqual => "!="
  | and => "&&"
  | or => "||"

/-- How tightly an operator binds. -/
def precedence : Operator → Nat
  | or => 1
  | and => 2
  | equal | notEqual => 3
  | less | lessEqual | greater | greaterEqual => 4
  | plus | minus => 5
  | times | divide => 6

/-- The families of operators that are typed alike. -/
inductive Family where
  | arithmetic
  | ordering
  | equality
  | logical
deriving DecidableEq, Repr

def family : Operator → Family
  | plus | minus | times | divide => .arithmetic
  | less | lessEqual | greater | greaterEqual => .ordering
  | equal | notEqual => .equality
  | and | or => .logical

end Operator

end WichToC
