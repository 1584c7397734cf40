import BlockMachine.Decimal.Binary

/-!
# Reading doubles

* `ofDecimal` — the double nearest to `n · 10^e`;
* `read?` — the grammar of written doubles: an optional sign, then `inf`, `infinity` or `nan` in any
  case, or digits with an optional point among them and an optional exponent.
-/

namespace BlockMachine.Decimal

/-- Whether `c` is one of the ten digits. -/
def isDigit (c : Char) : Bool :=
  decide ('0' ≤ c) && decide (c ≤ '9')

/-- The number that digits write. -/
def natOfDigits (s : List Char) : Nat :=
  s.foldl (fun n c => 10 * n + (c.toNat - 48)) 0

/-- The double nearest to `n · 10^e`. Beyond the range of exponents the answer is known without a
power of ten. -/
def ofDecimal (n : Nat) (e : Int) : Float :=
  let lead := (n.log2 : Int) * 30103 / 100000 + e
  if n = 0 then 0
  else if 400 < lead then 1.0 / 0.0
  else if lead < -400 then 0
  else if 0 ≤ e then Float.ofScientific n false e.toNat
  else Float.ofScientific n true (-e).toNat

/-- The text in lower case, for letters of the basic alphabet. -/
def lower (s : List Char) : List Char :=
  s.map Char.toLower

/-- A whole number: an optional sign and at least one digit. -/
def readInt? (s : List Char) : Option Int :=
  let (negative, ds) := match s with
    | '-' :: ds => (true, ds)
    | '+' :: ds => (false, ds)
    | ds => (false, ds)
  if ds.isEmpty || !ds.all isDigit then none
  else some (if negative then -(natOfDigits ds : Int) else natOfDigits ds)

/-- A magnitude: digits, perhaps with a point, perhaps with an exponent. -/
def readMagnitude? (s : List Char) : Option Float :=
  let front := s.takeWhile isDigit
  let rest := s.dropWhile isDigit
  let (back, rest) := match rest with
    | '.' :: more => (more.takeWhile isDigit, more.dropWhile isDigit)
    | more => ([], more)
  let value := fun (e : Int) => ofDecimal (natOfDigits (front ++ back)) (e - (back.length : Int))
  if front.isEmpty && back.isEmpty then none
  else match rest with
    | [] => some (value 0)
    | c :: more => if c = 'e' ∨ c = 'E' then (readInt? more).map value else none

/-- A magnitude in digits, or one of the special words. -/
def readUnsigned? (s : List Char) : Option Float :=
  let word := lower s
  if word = ['i', 'n', 'f'] ∨ word = ['i', 'n', 'f', 'i', 'n', 'i', 't', 'y'] then some (1.0 / 0.0)
  else if word = ['n', 'a', 'n'] then some (0.0 / 0.0)
  else readMagnitude? s

/-- Reads a written double, to the nearest. -/
def read? (s : List Char) : Option Float :=
  match s with
  | '-' :: rest => (readUnsigned? rest).map fun x => -x
  | '+' :: rest => readUnsigned? rest
  | rest => readUnsigned? rest

end BlockMachine.Decimal
