/-!
# Streams of bits

The ChaCha keystream with twelve rounds: a key and a counter are mixed into blocks of sixteen words,
so any part of the stream can be had without the parts before it.

* `Stream.Words` — the sixteen words of a state;
* `Stream.block` — a block of the stream;
* `Stream.keyOfSeed` — a key from a seed;
* `Stream.word` — the stream as words of 64 bits.
-/

namespace BlockMachine.Stream

/-- The sixteen words of a state. -/
abbrev Words := Vector UInt32 16

/-- The eight words of a key. -/
abbrev Key := Vector UInt32 8

/-- `x` turned to the left. -/
def rotate (x k : UInt32) : UInt32 :=
  (x <<< k) ||| (x >>> (32 - k))

/-- Adds word `b` to word `a`, and the sum to word `d`, which is then turned. -/
def mix (s : Words) (a b d : Fin 16) (k : UInt32) : Words :=
  let s := s.set a (s[a] + s[b])
  s.set d (rotate (s[d] ^^^ s[a]) k)

/-- A quarter of a round. -/
def quarter (s : Words) (a b c d : Fin 16) : Words :=
  let s := mix s a b d 16
  let s := mix s c d b 12
  let s := mix s a b d 8
  mix s c d b 7

/-- Two rounds: on the columns, then on the diagonals, of the square of words. -/
def twoRounds (s : Words) : Words :=
  let s := quarter s 0 4 8 12
  let s := quarter s 1 5 9 13
  let s := quarter s 2 6 10 14
  let s := quarter s 3 7 11 15
  let s := quarter s 0 5 10 15
  let s := quarter s 1 6 11 12
  let s := quarter s 2 7 8 13
  quarter s 3 4 9 14

/-- So many times two rounds. -/
def rounds : Nat → Words → Words
  | 0, s => s
  | n + 1, s => rounds n (twoRounds s)

/-- The state from which block `n` is mixed: constants, the key, the counter, and two words of
zero. -/
def start (key : Key) (n : Nat) : Words :=
  (#v[0x61707865, 0x3320646e, 0x79622d32, 0x6b206574] : Vector UInt32 4) ++ key
    ++ (#v[UInt32.ofNat n, UInt32.ofNat (n / 0x100000000), 0, 0] : Vector UInt32 4)

/-- Block `n` of the stream. -/
def block (key : Key) (n : Nat) : Words :=
  let s := start key n
  (rounds 6 s).zipWith (· + ·) s

/-- The next state of the generator that spreads a seed over a key. -/
def spread (s : UInt64) : UInt64 :=
  s * 6364136223846793005 + 11634580027462260723

/-- The word that the spreading generator gives in a state. -/
def spreadWord (s : UInt64) : UInt32 :=
  let x := (((s >>> 18) ^^^ s) >>> 27).toUInt32
  let k := (s >>> 59).toUInt32
  rotate x ((32 - k) % 32)

/-- The state of the spreading generator after some steps. -/
def spreadBy : Nat → UInt64 → UInt64
  | 0, s => s
  | n + 1, s => spreadBy n (spread s)

/-- The key of a seed. -/
def keyOfSeed (seed : UInt64) : Key :=
  Vector.ofFn fun i => spreadWord (spreadBy (i.val + 1) seed)

/-- The `n`th word of 64 bits: two words of the stream, the lower half first. -/
def word (key : Key) (n : Nat) : UInt64 :=
  let s := block key (n / 8)
  let i := 2 * (n % 8)
  (s[i + 1]).toUInt64 <<< 32 ||| (s[i]).toUInt64

end BlockMachine.Stream
