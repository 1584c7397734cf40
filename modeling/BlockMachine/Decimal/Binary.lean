/-!
# Doubles as scaled integers

A finite double is a sign and a magnitude `m · 2^q` with a natural `m` and an integer `q`.
Everything that this library computes about the digits or the whole part of a double, it computes
exactly on `m` and `q`.

* `Binary.ofFloat` — taking a double apart, `compose` — putting one together;
* `isWhole`, `wholePart` — whole doubles and the integer part of a magnitude;
* `trunc`, `floor`, `ceil`, `roundHalfAway` — rounding to whole doubles;
* `remainder` — the exact remainder of a truncated division.

Zeros keep their sign throughout.
-/

namespace BlockMachine.Decimal

/-- A finite magnitude `m · 2^q`. -/
structure Binary where
  m : Nat
  q : Int
  /-- The gap to the next smaller double is half the gap to the next greater one. -/
  narrowBelow : Bool
deriving Repr, DecidableEq

/-- The weight of the sign bit, `2^63`. -/
def signWeight : Nat := 0x8000000000000000

/-- The weight of the lowest exponent bit, `2^52`. -/
def exponentWeight : Nat := 0x10000000000000

/-- The sign bit. -/
def isNegative (x : Float) : Bool :=
  x.toBits.toNat / signWeight == 1

/-- The magnitude of a finite double. NaN and the infinities have none: test for them first. -/
def Binary.ofFloat (x : Float) : Binary :=
  let b : Nat := x.toBits.toNat
  let e : Nat := b / exponentWeight % 2048
  let f : Nat := b % exponentWeight
  if e = 0 then ⟨f, -1074, false⟩
  else ⟨exponentWeight + f, (e : Int) - 1075, f == 0 && decide (1 < e)⟩

/-- `m · 2^k`, cut off below the unit. -/
def shift (m : Nat) (k : Int) : Nat :=
  if 0 ≤ k then m * Nat.pow 2 k.toNat else m / Nat.pow 2 (-k).toNat

/-- The double with magnitude `m · 2^q`, provided that there is one. -/
def compose (negative : Bool) (m : Nat) (q : Int) : Float :=
  let sign : Nat := if negative then signWeight else 0
  let lead := (m.log2 : Int) + q
  let magnitude : Nat :=
    if m = 0 then 0
    else if lead < -1022 then shift m (q + 1074)
    else (lead + 1023).toNat * exponentWeight
      + (shift m (52 - (m.log2 : Int)) - exponentWeight)
  Float.ofBits (UInt64.ofNat (sign + magnitude))

/-- The integer part of a magnitude. -/
def Binary.wholePart (x : Binary) : Nat :=
  shift x.m x.q

/-- Whether nothing is left behind the integer part. -/
def Binary.isWhole (x : Binary) : Bool :=
  decide (0 ≤ x.q) || x.m % Nat.pow 2 (-x.q).toNat == 0

/-- Whether `x` is finite and an integer. -/
def isWhole (x : Float) : Bool :=
  x.isFinite && (Binary.ofFloat x).isWhole

/-- The integer part of `|x|`. -/
def wholePart (x : Float) : Nat :=
  (Binary.ofFloat x).wholePart

/-- The double nearest to `n`, with a sign. -/
def signed (negative : Bool) (n : Nat) : Float :=
  if negative then -(Float.ofNat n) else Float.ofNat n

/-- Rounds a finite double that is not whole by `up`, which says whether the magnitude grows. Whole
doubles, infinities and NaN are their own rounding. -/
def roundBy (up : Float → Bool) (x : Float) : Float :=
  if !x.isFinite || isWhole x then x
  else signed (isNegative x) (wholePart x + if up x then 1 else 0)

/-- Rounds towards zero. -/
def trunc (x : Float) : Float :=
  roundBy (fun _ => false) x

/-- The greatest whole double that is not above `x`. -/
def floor (x : Float) : Float :=
  roundBy isNegative x

/-- The least whole double that is not below `x`. -/
def ceil (x : Float) : Float :=
  roundBy (fun y => !isNegative y) x

/-- Rounds to the nearest whole double; a half goes away from zero. -/
def roundHalfAway (x : Float) : Float :=
  let half := fun y =>
    let b := Binary.ofFloat y
    shift b.m (b.q + 1) % 2 == 1
  roundBy half x

/-- The remainder of dividing `x` by `y` with the quotient cut off: exact, of the sign of `x`, and
smaller than `y` in magnitude. A zero divisor or an infinite dividend has none. -/
def remainder (x y : Float) : Float :=
  if x.isNaN || y.isNaN || x.isInf || y == 0 then 0.0 / 0.0
  else if y.isInf then x
  else
    let a := Binary.ofFloat x
    let b := Binary.ofFloat y
    let q := min a.q b.q
    compose (isNegative x) (shift a.m (a.q - q) % shift b.m (b.q - q)) q

end BlockMachine.Decimal
