import WichToC.Number.Binary64

/-!
# The shortest decimal text of a double

A double is written with the fewest significant digits that read back to it; of the decimals with
that many digits the nearest one is taken, and the upper one of two that are equally near.

`shortest` finds the digits in exact arithmetic, and `text` lays them out: positionally with at
least one digit after the point for zero and from `1e-4` up to, not including, `1e16`, with an
exponent otherwise.
-/

namespace WichToC

namespace Binary64

/-- A decimal number `digits * 10 ^ exponent`. -/
structure Decimal where
  digits : Nat
  exponent : Int
deriving DecidableEq, Repr

/-- The interval of reals that read back to one double, as numerators over the common denominator
`den`; its ends belong to it when `closed` is set. -/
structure Interval where
  low : Nat
  value : Nat
  high : Nat
  den : Nat
  closed : Bool

/-- The reals that are rounded to `mantissa * 2 ^ exponent`.  Below a power of two the doubles lie
twice as dense, so there the lower end is half as far away. -/
def readingInterval (mantissa : Nat) (exponent : Int) : Interval :=
  let below := if mantissa = Nat.pow 2 52 ∧ minExponent < exponent then 1 else 2
  let (up, down) : Nat × Nat :=
    match exponent - 2 with
    | .ofNat k => (Nat.pow 2 k, 1)
    | .negSucc k => (1, Nat.pow 2 (k + 1))
  { low := (4 * mantissa - below) * up
    value := 4 * mantissa * up
    high := (4 * mantissa + 2) * up
    den := down
    closed := mantissa % 2 = 0 }

/-- The powers of ten by which a grid of spacing `10 ^ e` stretches numerator and denominator. -/
def gridFactors : Int → Nat × Nat
  | .ofNat k => (1, Nat.pow 10 k)
  | .negSucc k => (Nat.pow 10 (k + 1), 1)

/-- The decimal of spacing `10 ^ e` that stands for the interval's value: the neighbour below or
above it on that grid, whichever reads back, and the nearer one when both do. -/
def Interval.onGrid? (i : Interval) (e : Int) : Option Decimal :=
  let (up, down) := gridFactors e
  let unit := i.den * down
  let floor := i.value * up / unit
  let rest := i.value * up % unit
  let reads (d : Nat) : Bool :=
    if i.closed then i.low * up ≤ d * unit && d * unit ≤ i.high * up
    else i.low * up < d * unit && d * unit < i.high * up
  match reads floor, reads (floor + 1) with
  | false, false => none
  | true, false => some ⟨floor, e⟩
  | false, true => some ⟨floor + 1, e⟩
  | true, true => some ⟨if unit ≤ 2 * rest then floor + 1 else floor, e⟩

/-- How many zeros follow the point of the fraction `num / den` below one, counting up to `fuel`. -/
def zerosAfterPoint (den : Nat) : Nat → Nat → Nat
  | 0, _ => 0
  | fuel + 1, num => if den ≤ 10 * num then 0 else zerosAfterPoint den fuel (10 * num) + 1

/-- The `k` with `10 ^ (k - 1) ≤ value < 10 ^ k`. -/
def Interval.order (i : Interval) : Int :=
  if i.den ≤ i.value then digitCount (i.value / i.den)
  else -(zerosAfterPoint i.den 400 i.value : Int)

/-- The first of the grids with `17 - fuel`, … digits that has a decimal for the interval. -/
def Interval.firstGrid (i : Interval) (order : Int) : Nat → Decimal
  | 0 => ⟨i.value / i.den, 0⟩
  | fuel + 1 =>
    match i.onGrid? (order - (17 - fuel : Nat)) with
    | some d => d
    | none => i.firstGrid order fuel

/-- Drops the zeros at the end of the digits, at most `fuel` of them. -/
def Decimal.trim : Nat → Decimal → Decimal
  | 0, d => d
  | fuel + 1, d =>
    if d.digits % 10 = 0 ∧ d.digits ≠ 0 then Decimal.trim fuel ⟨d.digits / 10, d.exponent + 1⟩
    else d

/-- The shortest decimal that reads back to `mantissa * 2 ^ exponent`. -/
def shortest (mantissa : Nat) (exponent : Int) : Decimal :=
  let interval := readingInterval mantissa exponent
  (interval.firstGrid interval.order 17).trim 20

/-- Digits with a point after the first `order` of them. -/
def positional (digits : List Char) (order : Int) : List Char :=
  match order with
  | .negSucc k => ['0', '.'] ++ List.replicate (k + 1) '0' ++ digits
  | .ofNat 0 => ['0', '.'] ++ digits
  | .ofNat k =>
    if digits.length ≤ k then digits ++ List.replicate (k - digits.length) '0' ++ ['.', '0']
    else digits.take k ++ ['.'] ++ digits.drop k

/-- Digits with a point after the first one, and the exponent. -/
def scientific (digits : List Char) (exponent : Int) : List Char :=
  let fraction := if digits.length ≤ 1 then [] else '.' :: digits.drop 1
  digits.take 1 ++ fraction ++ ['e'] ++ (toString exponent).toList

/-- The text of a double. -/
def text : Binary64 → String
  | .infinite => "inf"
  | .finite 0 _ => "0.0"
  | .finite mantissa exponent =>
    let d := shortest mantissa exponent
    let digits := Nat.toDigits 10 d.digits
    let order := digits.length + d.exponent
    if -4 < order ∧ order ≤ 16 then String.ofList (positional digits order)
    else String.ofList (scientific digits (order - 1))

end Binary64

end WichToC
