import BlockMachine.Decimal.Layout
import BlockMachine.Fraction
import BlockMachine.Localizer

/-!
# Fractions as text

* `Fraction.Mode` — a decimal, a fraction in one piece, or a whole part and a fraction;
* `Fraction.Style` — *written* text is exact and free of any locale, *shown* text is for readers;
* `Fraction.text` — the text of a fraction.
-/

namespace BlockMachine.Fraction

/-- How a fraction is laid out. -/
inductive Mode where
  | decimal
  | reduced
  | mixed
deriving Repr, DecidableEq

/-- Whom a text is for: `written` text is read again by the grammar, `shown` text by people. -/
inductive Style where
  | written
  | shown (localizer : Localizer)

/-- A word of the number vocabulary. -/
def Style.word (style : Style) (key fallback : String) : String :=
  match style with
  | .written => fallback
  | .shown l => l.word key fallback

/-- Whether a text is to be read again. -/
def Style.isWritten : Style → Bool
  | .written => true
  | .shown _ => false

/-- The double nearest to the circle's ratio. -/
def pi : Float := 3.141592653589793

/-- The double nearest to the base of the natural logarithm. -/
def euler : Float := 2.718281828459045

/-- The word for a double that has one of its own. -/
def properName (style : Style) (rounded : Bool) (x : Float) : Option String :=
  if x == pi then some (style.word "NumberBlock.pi" "π")
  else if x == euler then some (style.word "NumberBlock.eulersNumber" "e")
  else if x.abs < 1e-15 && rounded then some (style.word "NumberBlock.zero" "0")
  else if x.isInf then
    some (if 0 < x then style.word "NumberBlock.infinity" "∞"
      else style.word "NumberBlock.negativeInfinity" "-∞")
  else if x.isNaN then some (style.word "NumberBlock.notANumber" "NaN")
  else none

/-- The first three places of a text, cut off without rounding. -/
def cutPlaces (s : String) : String :=
  let front := s.toList.takeWhile (· != '.')
  String.ofList (front ++ (s.toList.dropWhile (· != '.')).take 4)

/-- The shown text of a double without a proper name. Unrounded doubles lose all but three places;
rounded ones get an exponent as soon as positional text would be long or would lose digits. -/
def shownDecimal (rounded : Bool) (x : Float) : String :=
  if !rounded && !Decimal.isWhole x then cutPlaces (Decimal.compact x)
  else
    let exact := Decimal.grouped x
    let magnitude := x.abs
    let lead := Decimal.floor magnitude.log10
    if !(-3 ≤ lead && lead ≤ 7) then Decimal.exponential 2 x
    else if magnitude - Decimal.floor magnitude < 1e-15 || !rounded then exact
    else
      let fixed := Decimal.fixed 3 x
      if exact.length ≤ 9 then exact
      else if 8 < fixed.length then Decimal.exponential 2 x
      else fixed

/-- The text of a double. -/
def decimalText (style : Style) (rounded : Bool) (x : Float) : String :=
  match properName style rounded x with
  | some name => name
  | none => if style.isWritten then Decimal.plain x else shownDecimal rounded x

/-- A whole part and a fraction below 1. -/
def mixedText (style : Style) (r : Fraction) : String :=
  let whole := Decimal.trunc (r.numerator / r.denominator)
  let part := (Decimal.remainder (r.numerator - r.denominator * whole) r.denominator).abs
  if part == 0 then
    if style.isWritten then Decimal.plain whole else Decimal.grouped whole
  else
    let lead :=
      if whole != 0 then Decimal.compact whole ++ " "
      else if r.numerator < 0 then "-"
      else ""
    lead ++ Decimal.compact part ++ "/" ++ Decimal.compact r.denominator

/-- Numerator and denominator. -/
def reducedText (style : Style) (r : Fraction) : String :=
  if style.isWritten then Decimal.plain r.numerator ++ "/" ++ Decimal.plain r.denominator
  else Decimal.compact r.numerator ++ "/" ++ Decimal.compact r.denominator

/-- The text of a fraction. -/
def text (mode : Mode) (rounded : Bool) (style : Style) (r : Fraction) : String :=
  if r.numerator == 0 && r.denominator == 0 then style.word "NumberBlock.notANumber" "NaN"
  else if r.numerator == 0 then style.word "NumberBlock.zero" "0"
  else if r.denominator == 1 || mode == .decimal then decimalText style rounded r.value
  else if mode == .mixed then mixedText style r
  else reducedText style r

end BlockMachine.Fraction
