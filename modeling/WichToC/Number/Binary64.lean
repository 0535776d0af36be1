/-!
# Non-negative doubles

The literals of a script are non-negative numbers of IEEE double precision.  A finite one is kept as
`mantissa * 2 ^ exponent` in its canonical form: the mantissa has 53 bits, or fewer at the least
exponent.  Decimal literals and integers are rounded to the nearest double, a half to the even one,
in exact arithmetic on natural numbers.
-/

namespace WichToC

/-- A non-negative double. -/
inductive Binary64 where
  | finite (mantissa : Nat) (exponent : Int)
  | infinite
deriving DecidableEq, Repr, Inhabited

namespace Binary64

/-- The exponent of the least positive double. -/
def minExponent : Int := -1074

/-- The exponent of the largest finite double. -/
def maxExponent : Int := 971

/-- The quotient rounded to the nearest natural number, a half to the even one. -/
def roundDiv (num den : Nat) : Nat :=
  let quotient := num / den
  let twice := 2 * (num % den)
  if twice < den then quotient
  else if den < twice then quotient + 1
  else quotient + quotient % 2

/-- The fraction `num / den` divided by `2 ^ e`, again as a fraction. -/
def scaleDown (num den : Nat) : Int → Nat × Nat
  | .ofNat k => (num, den * Nat.pow 2 k)
  | .negSucc k => (num * Nat.pow 2 (k + 1), den)

/-- The largest `e` with `2 ^ e ≤ num / den`, for a positive fraction. -/
def logQuotient (num den : Nat) : Int :=
  let guess : Int := (num.log2 : Int) - den.log2
  let (n, d) := scaleDown num den guess
  if d ≤ n then guess else guess - 1

/-- The double nearest to the fraction `num / den`. -/
def ofQuotient (num den : Nat) : Binary64 :=
  if num = 0 then .finite 0 minExponent
  else
    let e := max (logQuotient num den - 52) minExponent
    let (n, d) := scaleDown num den e
    let rounded := roundDiv n d
    let (mantissa, exponent) :=
      if rounded = Nat.pow 2 53 then (Nat.pow 2 52, e + 1) else (rounded, e)
    if maxExponent < exponent then .infinite else .finite mantissa exponent

/-- The double nearest to a natural number. -/
def ofNat (n : Nat) : Binary64 := ofQuotient n 1

/-- The number of decimal digits of a natural number, none for zero. -/
def digitCount (n : Nat) : Nat :=
  if n = 0 then 0 else (Nat.toDigits 10 n).length

/-- The double nearest to `digits * 10 ^ exponent`.  A number whose first digit stands far outside
the range of doubles is infinite or zero without forming the power of ten. -/
def ofDecimal (digits : Nat) (exponent : Int) : Binary64 :=
  let order : Int := digitCount digits + exponent
  if digits = 0 ∨ order < -330 then .finite 0 minExponent
  else if 310 < order then .infinite
  else
    match exponent with
    | .ofNat k => ofQuotient (digits * Nat.pow 10 k) 1
    | .negSucc k => ofQuotient digits (Nat.pow 10 (k + 1))

end Binary64

end WichToC
