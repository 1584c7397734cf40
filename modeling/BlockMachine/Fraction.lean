import BlockMachine.Decimal.Binary

/-!
# Fractions of two doubles

Arithmetic is exact while both parts are whole. As soon as a part is not whole, or the denominator
is zero, the value collapses into the numerator over 1.

* `Fraction.reduce` — lowest terms with a positive denominator, or the collapse;
* `plus`, `minus`, `times`, `dividedBy`, `modulo`, `pow`, `powf` — each result is reduced;
* `fuzzyEq` — equality of values, up to `1e-10` as soon as one side has denominator 1.
-/

namespace BlockMachine

/-- A fraction of two doubles. -/
structure Fraction where
  numerator : Float
  denominator : Float
deriving Repr, DecidableEq

namespace Fraction

/-- The sign of `x` as a double; NaN and the zeros have sign `0`. -/
def signOf (x : Float) : Float :=
  if 0 < x then 1 else if x < 0 then -1 else 0

/-- The greatest common divisor of two whole doubles. -/
def commonDivisor (n d : Float) : Float :=
  Float.ofNat (Nat.gcd (Decimal.wholePart n) (Decimal.wholePart d))

/-- Lowest terms. The sign moves to the numerator; a part that is not whole, or a zero denominator,
collapses the fraction to its quotient over 1. -/
def reduce (r : Fraction) : Fraction :=
  if !Decimal.isWhole r.denominator || !Decimal.isWhole r.numerator || r.denominator == 0 then
    ⟨r.numerator / r.denominator, 1⟩
  else if r.denominator != 1 then
    let sign := signOf r.numerator * signOf r.denominator
    let g := commonDivisor r.numerator r.denominator
    ⟨r.numerator.abs / g * sign, r.denominator.abs / g⟩
  else r

/-- The fraction `n / d`, collapsed at once if `d` is not whole. -/
def make (n d : Float) : Fraction :=
  if Decimal.isWhole d then ⟨n, d⟩ else reduce ⟨n, d⟩

/-- A number over 1. -/
def ofFloat (x : Float) : Fraction :=
  make x 1

/-- The quotient. -/
def value (r : Fraction) : Float :=
  r.numerator / r.denominator

/-- The sum. -/
def plus (a b : Fraction) : Fraction :=
  (make (a.numerator * b.denominator + b.numerator * a.denominator)
    (a.denominator * b.denominator)).reduce

/-- The difference. -/
def minus (a b : Fraction) : Fraction :=
  (make (a.numerator * b.denominator - b.numerator * a.denominator)
    (a.denominator * b.denominator)).reduce

/-- The product. -/
def times (a b : Fraction) : Fraction :=
  (make (a.numerator * b.numerator) (a.denominator * b.denominator)).reduce

/-- The quotient of two fractions. -/
def dividedBy (a b : Fraction) : Fraction :=
  (make (a.numerator * b.denominator) (a.denominator * b.numerator)).reduce

/-- Both parts raised to a power. -/
def powf (a : Fraction) (exponent : Float) : Fraction :=
  (make (a.numerator.pow exponent) (a.denominator.pow exponent)).reduce

/-- The power of a fraction; a negative exponent turns the fraction over first. -/
def pow (a b : Fraction) : Fraction :=
  let exponent := b.value
  if exponent < 0 then
    (make (a.denominator.pow (-exponent)) (a.numerator.pow (-exponent))).reduce
  else a.powf exponent

/-- The remainder of the division with the quotient cut off. -/
def modulo (a b : Fraction) : Fraction :=
  (make (Decimal.remainder (a.numerator * b.denominator) (b.numerator * a.denominator))
    (a.denominator * b.denominator)).reduce

/-- Within this distance numbers count as equal. -/
def tolerance : Float := 1e-10

/-- Equal values, or nearly equal ones when a side has denominator 1. -/
def fuzzyEq (a b : Fraction) : Bool :=
  a.value == b.value ||
    ((a.denominator == 1 || b.denominator == 1) && decide ((a.value - b.value).abs < tolerance))

end Fraction

end BlockMachine
