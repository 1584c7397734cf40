import BlockMachine.Decimal.Binary
import BlockMachine.Dice.Stream

/-!
# Dice

A seedable generator of doubles in `[0, 1)`, read off a stream of bits.

* `Dice.ofSeed` — a generator;
* `Dice.unit`, `Dice.int`, `Dice.real` — the next value;
* `RandMode` — what the next random operator is to give.
-/

namespace BlockMachine

/-- The key of a stream, and how many words were read from it. -/
structure Dice where
  key : Stream.Key
  rolled : Nat
deriving Repr, DecidableEq

/-- What a random operator gives: the least value, the greatest, or a rolled one. -/
inductive RandMode where
  | min
  | max
  | random
deriving Repr, DecidableEq

namespace Dice

/-- A generator from a seed. -/
def ofSeed (seed : UInt64) : Dice :=
  ⟨Stream.keyOfSeed seed, 0⟩

/-- The next 64 bits. -/
def next (d : Dice) : UInt64 × Dice :=
  (Stream.word d.key d.rolled, { d with rolled := d.rolled + 1 })

/-- A double in `[0, 1)`, one of `2^53` equally likely ones. -/
def unit (d : Dice) : Float × Dice :=
  let (z, d) := d.next
  (Decimal.compose false (z.toNat / 0x800) (-53), d)

/-- A whole number in `[⌈lo⌉, ⌊hi⌋)`, or `⌈lo⌉` where that holds no number. -/
def int (lo hi : Float) (d : Dice) : Float × Dice :=
  let (u, d) := d.unit
  let lo := Decimal.ceil lo
  let hi := Decimal.floor hi
  (Decimal.floor (u * (hi - lo)) + lo, d)

/-- A number in `[lo, hi)`. -/
def real (lo hi : Float) (d : Dice) : Float × Dice :=
  let (u, d) := d.unit
  (u * (hi - lo) + lo, d)

end Dice

end BlockMachine
