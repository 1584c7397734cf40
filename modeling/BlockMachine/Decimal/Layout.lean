import BlockMachine.Decimal.Shortest

/-!
# Doubles as text

Four layouts of the same digits:

* `plain` — the fewest digits that read back, positionally whatever the size, `-0`, `NaN`, `inf`;
* `compact` — the same digits, with an exponent for magnitudes outside `[1e-6, 1e21)`;
* `fixed` — a set number of places;
* `exponential` — a set number of places in exponent form.

An exponent always carries its sign.
-/

namespace BlockMachine.Decimal

/-- The decimal digits of `n`. -/
def natText (n : Nat) : String :=
  String.ofList (Nat.toDigits 10 n)

/-- The decimal digits of `n`, behind a minus sign if it is negative. -/
def intText (n : Int) : String :=
  if n < 0 then "-" ++ natText n.natAbs else natText n.natAbs

/-- `s` filled with zeros in front up to `width` characters. -/
def padLeft (width : Nat) (s : List Char) : List Char :=
  List.replicate (width - s.length) '0' ++ s

/-- `s` with a minus sign in front if `negative`. -/
def withSign (negative : Bool) (s : String) : String :=
  if negative then "-" ++ s else s

/-- The positional text of a decimal. -/
def Digits.positional (d : Digits) : String :=
  let cs := Nat.toDigits 10 d.digits
  if 0 ≤ d.exp then String.ofList (cs ++ List.replicate d.exp.toNat '0')
  else
    let places := (-d.exp).toNat
    let cs := padLeft (places + 1) cs
    String.ofList (cs.take (cs.length - places) ++ '.' :: cs.drop (cs.length - places))

/-- An exponent with its sign. -/
def exponentText (e : Int) : String :=
  if e < 0 then "e-" ++ natText (-e).toNat else "e+" ++ natText e.toNat

/-- The text of a decimal with one digit in front of the point, and at least `width` digits. -/
def Digits.scientific (width : Nat) (d : Digits) : String :=
  let cs := padLeft width (Nat.toDigits 10 d.digits)
  let e := d.exp + (cs.length : Int) - 1
  match cs with
  | [] => ""
  | [c] => String.ofList [c] ++ exponentText e
  | c :: rest => String.ofList (c :: '.' :: rest) ++ exponentText e

/-- The fewest digits that read back, always positionally. -/
def plain (x : Float) : String :=
  if x.isNaN then "NaN"
  else if x.isInf then withSign (isNegative x) "inf"
  else withSign (isNegative x) (Binary.ofFloat x).shortest.positional

/-- The fewest digits that read back; in exponent form unless `1e-6 ≤ |x| < 1e21` or `x` is zero. -/
def compact (x : Float) : String :=
  if x.isNaN then "NaN"
  else if x.isInf then withSign (isNegative x) "Infinity"
  else if x != 0 && !(1e-6 ≤ x.abs && x.abs < 1e21) then
    withSign (isNegative x) ((Binary.ofFloat x).shortest.scientific 1)
  else plain x

/-- A set number of places; the value is rounded exactly and a half goes to the even neighbour. -/
def fixed (places : Nat) (x : Float) : String :=
  withSign (isNegative x)
    (Digits.positional ⟨(Binary.ofFloat x).toPlaces places, -(places : Int)⟩)

/-- A set number of places behind the first digit, in exponent form. -/
def exponential (places : Nat) (x : Float) : String :=
  withSign (isNegative x) (((Binary.ofFloat x).toDigits (places + 1)).scientific (places + 1))

/-- A comma before every group of three digits, counted from the right. -/
def groupThousands (digits : List Char) : List Char :=
  (digits.zipIdx.map fun (c, i) =>
    if 0 < i ∧ (digits.length - i) % 3 = 0 then [',', c] else [c]).flatten

/-- Digits without the zeros at the end. -/
def dropTrailingZeros (s : List Char) : List Char :=
  (s.reverse.dropWhile (· == '0')).reverse

/-- The decimal text in groups of three digits with at most three places, such as `1,234.5`. A value
that rounds to zero has no sign. -/
def grouped (x : Float) : String :=
  let units := (Binary.ofFloat x).toPlaces 3
  let front := Nat.toDigits 10 (units / 1000)
  let places := dropTrailingZeros (padLeft 3 (Nat.toDigits 10 (units % 1000)))
  let body := String.ofList (groupThousands front ++ if places.isEmpty then [] else '.' :: places)
  withSign (x < 0 && units != 0) body

end BlockMachine.Decimal
