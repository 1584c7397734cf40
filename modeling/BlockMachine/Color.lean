import BlockMachine.Decimal.Binary
import BlockMachine.Text.Escape

/-!
# Colors

Three channels of a byte each, given as doubles and cut to the range of a byte.
-/

namespace BlockMachine

/-- A color with a byte per channel. -/
structure Color where
  red : Fin 256
  green : Fin 256
  blue : Fin 256
deriving Repr, DecidableEq

namespace Color

/-- The byte nearest to `x`: a half goes up, what lies outside goes to the nearer end, NaN to 0. -/
def channel (x : Float) : Fin 256 :=
  let y := Decimal.roundHalfAway x
  if y.isNaN || y ≤ 0 then 0
  else if 255 ≤ y then 255
  else Fin.ofNat 256 (Decimal.wholePart y)

/-- The color with the given channels. -/
def ofFloats (r g b : Float) : Color :=
  ⟨channel r, channel g, channel b⟩

/-- Two hexadecimal digits. -/
def hexByte (n : Fin 256) : List Char :=
  [Text.hexDigit (n.val / 16), Text.hexDigit (n.val % 16)]

/-- A number sign and two hexadecimal digits per channel. -/
def hex (c : Color) : String :=
  String.ofList ('#' :: hexByte c.red ++ hexByte c.green ++ hexByte c.blue)

end Color

end BlockMachine
