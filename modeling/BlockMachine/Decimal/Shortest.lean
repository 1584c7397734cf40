import BlockMachine.Decimal.Binary

/-!
# The digits of a double

* `Digits` — a decimal `digits · 10^exp`;
* `Binary.readsBack` — the decimals that are nearer to this double than to any other;
* `Binary.shortest` — of those, one with the fewest digits, and the nearest of these; of two that
  are equally near, the greater;
* `roundDiv`, `Binary.toPlaces`, `Binary.toDigits` — a set number of places or of digits, where a
  half goes to the even neighbour.
-/

namespace BlockMachine.Decimal

/-- The decimal `digits · 10^exp`. -/
structure Digits where
  digits : Nat
  exp : Int
deriving Repr, DecidableEq

/-- Compares `a · 10^i` with `n · 2^j`, exactly. -/
def cmpScaled (a : Nat) (i : Int) (n : Nat) (j : Int) : Ordering :=
  compare (a * Nat.pow 10 i.toNat * Nat.pow 2 (-j).toNat)
    (n * Nat.pow 2 j.toNat * Nat.pow 10 (-i).toNat)

/-- Whether `d` lies among the reals that round to `x`, to nearest and ties to even. -/
def Binary.readsBack (x : Binary) (d : Digits) : Bool :=
  let lo := if x.narrowBelow then 4 * x.m - 1 else 4 * x.m - 2
  let hi := 4 * x.m + 2
  let closed := x.m % 2 == 0
  let cl := cmpScaled d.digits d.exp lo (x.q - 2)
  let ch := cmpScaled d.digits d.exp hi (x.q - 2)
  (cl == .gt || (closed && cl == .eq)) && (ch == .lt || (closed && ch == .eq))

/-- The least `k` with `m · 2^q < 10^k`, for a magnitude that is not zero: a first guess from the
binary logarithm is at most two off. -/
def Binary.scale (x : Binary) : Int :=
  let guess := (((x.m.log2 : Int) + x.q) * 30103) / 100000
  ([guess - 1, guess, guess + 1].find? fun k => cmpScaled 1 k x.m x.q == .gt).getD (guess + 2)

/-- The numerator and denominator of `m · 2^q / 10^g`. -/
def Binary.overGrid (x : Binary) (g : Int) : Nat × Nat :=
  (x.m * Nat.pow 2 x.q.toNat * Nat.pow 10 (-g).toNat,
    Nat.pow 2 (-x.q).toNat * Nat.pow 10 g.toNat)

/-- The better of the two neighbours of `x` on the grid `10^g` that reads back, if one does. -/
def Binary.onGrid (x : Binary) (g : Int) : Option Digits :=
  let (num, den) := x.overGrid g
  let low : Digits := ⟨num / den, g⟩
  let high : Digits := ⟨num / den + 1, g⟩
  match x.readsBack low, x.readsBack high with
  | true, true => some (if 2 * (num % den) < den then low else high)
  | true, false => some low
  | false, true => some high
  | false, false => none

/-- Moves the trailing zeros of the digits into the exponent, at most `fuel` of them. -/
def Digits.strip : Nat → Digits → Digits
  | 0, d => d
  | fuel + 1, d =>
    if d.digits ≠ 0 ∧ d.digits % 10 = 0 then Digits.strip fuel ⟨d.digits / 10, d.exp + 1⟩ else d

/-- The exact decimal value of a magnitude. -/
def Binary.exact (x : Binary) : Digits :=
  ⟨x.m * Nat.pow 2 x.q.toNat * Nat.pow 5 (-x.q).toNat, min x.q 0⟩

/-- The fewest digits that read back: the grids are tried from one digit on. -/
def Binary.shortest (x : Binary) : Digits :=
  if x.m = 0 then ⟨0, 0⟩
  else
    let k := x.scale
    let found := (List.range 17).findSome? fun n => x.onGrid (k - 1 - Int.ofNat n)
    (found.getD x.exact).strip 400

/-- `num / den` rounded to an integer; a half goes to the even neighbour. -/
def roundDiv (num den : Nat) : Nat :=
  let q := num / den
  match compare (2 * (num % den)) den with
  | .lt => q
  | .gt => q + 1
  | .eq => if q % 2 = 0 then q else q + 1

/-- The multiple of `10^(-places)` nearest to `x`, as a number of such units. -/
def Binary.toPlaces (x : Binary) (places : Nat) : Nat :=
  let (num, den) := x.overGrid (-(places : Int))
  roundDiv num den

/-- `x` rounded to `n` digits, where `n` is positive. -/
def Binary.toDigits (x : Binary) (n : Nat) : Digits :=
  if x.m = 0 then ⟨0, 1 - (n : Int)⟩
  else
    let g := x.scale - (n : Int)
    let (num, den) := x.overGrid g
    let r := roundDiv num den
    if r < Nat.pow 10 n then ⟨r, g⟩ else ⟨r / 10, g + 1⟩

end BlockMachine.Decimal
