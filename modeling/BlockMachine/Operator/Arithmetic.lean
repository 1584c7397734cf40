import BlockMachine.Block.Equality
import BlockMachine.Operator.Complaint

/-!
# Arithmetic, comparison and logic

The operators whose result depends on their operands alone.

* `Operator.calculate` — the block that such an operator leaves;
* `factorial` — the product of the whole numbers up to a bound, which overflows beyond 170.
-/

namespace BlockMachine

/-- `acc · i · (i + 1) ⋯` up to `n`, as long as the product is finite. -/
def factorialFrom (n : Float) : Nat → Float → Float → Float
  | 0, _, acc => acc
  | fuel + 1, i, acc =>
    if i ≤ n then
      let acc := acc * i
      if acc.isFinite then factorialFrom n fuel (i + 1) acc else acc
    else acc

/-- The factorial of a whole number; the product is infinite long before the 200th factor. -/
def factorial (n : Float) : Float :=
  factorialFrom n 200 2 1

namespace Block

/-- A number from the numbers of two blocks. -/
def combine (f : Fraction → Fraction → Fraction) (a b : Block) : Option Block := do
  return ofFraction (f (← a.fraction?) (← b.fraction?))

/-- A number from the value of a block. -/
def mapValue (f : Float → Float) (a : Block) : Option Block := do
  return ofFloat (f (← a.float?))

/-- A truth value from the numbers of two blocks. -/
def compareBy (f : Fraction → Fraction → Bool) (a b : Block) : Option Block := do
  return .boolean (f (← a.fraction?) (← b.fraction?))

/-- A truth value from two. -/
def connect (f : Bool → Bool → Bool) (a b : Block) : Option Block := do
  return .boolean (f (← a.boolean?) (← b.boolean?))

/-- The factorial of a natural number, or an error. -/
def factorialOf (l : Localizer) (a : Block) : Option Block := do
  let n ← a.float?
  if n < 0 || !Decimal.isWhole n then
    return .error (l.word "Errors.naturalNumber" "Input must be a natural number.")
  else return ofFloat (factorial n)

end Block

namespace Fraction

/-- Strictly less: numbers that count as equal are not. -/
def less (a b : Fraction) : Bool :=
  decide (a.value < b.value) && !a.fuzzyEq b

/-- Strictly greater. -/
def greater (a b : Fraction) : Bool :=
  decide (b.value < a.value) && !a.fuzzyEq b

/-- Less, or equal as far as numbers count as equal. -/
def lessOrEqual (a b : Fraction) : Bool :=
  decide (a.value ≤ b.value) || a.fuzzyEq b

/-- Greater or equal. -/
def greaterOrEqual (a b : Fraction) : Bool :=
  decide (b.value ≤ a.value) || a.fuzzyEq b

/-- The fraction without its signs. -/
def absolute (a : Fraction) : Fraction :=
  make a.numerator.abs a.denominator.abs

end Fraction

open Block in
/-- The block that an operator leaves for its operands, bottom first. A half is rounded up, for
negative numbers too. -/
def Operator.calculate (l : Localizer) (h : Heap) : Operator → List Block → Option Block
  | .plus, [a, b] => combine Fraction.plus a b
  | .minus, [a, b] => combine Fraction.minus a b
  | .multiply, [a, b] => combine Fraction.times a b
  | .divide, [a, b] => combine Fraction.dividedBy a b
  | .power, [a, b] => combine Fraction.pow a b
  | .modulo, [a, b] => combine Fraction.modulo a b
  | .minimum, [a, b] => do return if (← a.float?) < (← b.float?) then a else b
  | .maximum, [a, b] => do return if (← b.float?) < (← a.float?) then a else b
  | .ceil, [a] => mapValue Decimal.ceil a
  | .floor, [a] => mapValue Decimal.floor a
  | .round, [a] => mapValue (fun x => Decimal.floor (x + 0.5)) a
  | .absolute, [a] => do return ofFraction (← a.fraction?).absolute
  | .factorial, [a] => factorialOf l a
  | .squareRoot, [a] => do return ofFraction ((← a.fraction?).powf 0.5)
  | .logarithm, [a] => mapValue Float.log10 a
  | .naturalLogarithm, [a] => mapValue Float.log a
  | .sine, [a] => mapValue Float.sin a
  | .cosine, [a] => mapValue Float.cos a
  | .tangent, [a] => mapValue Float.tan a
  | .arcSine, [a] => mapValue Float.asin a
  | .arcCosine, [a] => mapValue Float.acos a
  | .arcTangent, [a] => mapValue Float.atan a
  | .arcTangent2, [a, b] => do return ofFloat (Float.atan2 (← a.float?) (← b.float?))
  | .lessThan, [a, b] => compareBy Fraction.less a b
  | .greaterThan, [a, b] => compareBy Fraction.greater a b
  | .lessOrEqual, [a, b] => compareBy Fraction.lessOrEqual a b
  | .greaterOrEqual, [a, b] => compareBy Fraction.greaterOrEqual a b
  | .equal, [a, b] => some (.boolean (h.equals a b))
  | .negate, [a] => do return .boolean (!(← a.boolean?))
  | .conjunction, [a, b] => connect and a b
  | .disjunction, [a, b] => connect or a b
  | _, _ => none

end BlockMachine
