import BlockMachine.Block.Text
import BlockMachine.Decimal.Reading
import BlockMachine.Dice
import BlockMachine.Text.Escape

/-!
# Literals

What a written token says, before any stack is allocated and any dice are rolled: reading a token is
a pure function of its text, and making the block is a separate step.

* `Literal` — the content of a token;
* `Literal.ofToken` — the content of a token of a given kind;
* `Store` — the heap and the dice, `Literal.make` — the block of a literal.
-/

namespace BlockMachine

/-- The content of a token. -/
inductive Literal where
  | error (message : String)
  | number (value : Fraction)
  | boolean (value : Bool)
  | string (value : String)
  | memoryReference (name : String)
  | memory (id : String)
  | randomInt (bounds : Bounds)
  | randomReal (bounds : Bounds)
  | randomBool
  | operator (op : Operator)
  | assign (name : String)
  | fetch (name : String)
  | null
  | data (name : String)
  | package (inner : Literal)
  | getSymbol (name : String)
  | setSymbol (name : String)
  | color (value : Color)
  | code (name : String)
  | extension (ext : Extension)
  /-- A text that no kind of block is written as. -/
  | unreadable (text : String)
deriving Repr, DecidableEq

namespace Literal

/-! ## Reading tokens -/

/-- The text without its first `front` and its last `back` characters; empty if it is too short. -/
def between (front back : Nat) (s : List Char) : List Char :=
  (s.take (s.length - back)).drop front

/-- A double as it stands in a token; what is no number is NaN. -/
def readFloat (s : List Char) : Float :=
  let s := Text.trim s
  if s = "Infinity".toList then 1.0 / 0.0
  else if s = "-Infinity".toList then -1.0 / 0.0
  else (Decimal.read? s).getD (0.0 / 0.0)

/-- A number token: commas do not count, and a slash divides a numerator from a denominator, of
which only the whole part counts. -/
def readFraction (s : List Char) : Fraction :=
  let s := s.filter (· != ',')
  if s = ['π'] then Fraction.ofFloat Fraction.pi
  else if s = ['e'] then Fraction.ofFloat Fraction.euler
  else if s.contains '/' then
    Fraction.make (readFloat (s.takeWhile (· != '/')))
      (Decimal.trunc (readFloat ((s.dropWhile (· != '/')).drop 1)))
  else Fraction.ofFloat (readFloat s)

/-- Writes `new` for the pairs `a b`, from the left. -/
def replacePair (a b new : Char) : List Char → List Char
  | x :: y :: rest =>
    if x = a ∧ y = b then new :: replacePair a b new rest else x :: replacePair a b new (y :: rest)
  | s => s

/-- A string token: first each backslash before a quote goes, then each double backslash becomes a
single one. -/
def readString (s : List Char) : String :=
  String.ofList
    (replacePair '\\' '\\' '\\' (replacePair '\\' '\x22' '\x22' (between 1 1 s)))

/-- The message of an error token. -/
def readError (s : List Char) : String :=
  String.ofList (between 5 2 s)

/-- The object of a memory token: the text up to the first comma. -/
def readMemory (s : List Char) : String :=
  String.ofList ((between 7 1 s).takeWhile (· != ','))

/-- The bounds of a random literal. They are divided by the first minus that is no sign. -/
def readBounds (s : List Char) : Bounds :=
  match (s.dropWhile (· != '(')).drop 1 with
  | [] => none
  | c :: rest =>
    let rest := rest.take (rest.length - 1)
    let low := rest.takeWhile (· != '-')
    match rest.dropWhile (· != '-') with
    | [] => none
    | _ :: high => some (readFloat (c :: low), readFloat high)

/-- The color of a color token. -/
def readColor (s : List Char) : Color :=
  let inner := (between 0 1 (s.dropWhile (· != '['))).drop 1
  let parts := (String.ofList inner).splitOn ","
  let part := fun i => (parts[i]?).elim 0 fun p => readFloat p.toList
  Color.ofFloats (part 0) (part 1) (part 2)

/-- The content of a token of a kind; `inner` reads the token inside a package. -/
def ofToken (inner : List Char → Literal) (kind : Kind) (s : List Char) : Literal :=
  match kind with
  | .error => .error (readError s)
  | .number => .number (readFraction s)
  | .boolean => .boolean (s == ['T'])
  | .string => .string (readString s)
  | .memoryReference => .memoryReference (String.ofList (between 7 1 s))
  | .memory => .memory (readMemory s)
  | .randomInt => .randomInt (readBounds s)
  | .randomReal => .randomReal (readBounds s)
  | .randomBool => .randomBool
  | .operator op => .operator op
  | .assign => .assign (String.ofList (s.drop 3))
  | .fetch => .fetch (String.ofList (s.drop 1))
  | .null => .null
  | .data => .data (Text.unescape (String.ofList (s.drop 1)))
  | .package => .package (inner (between 1 1 s))
  | .getSymbol => .getSymbol (String.ofList (between 4 1 s))
  | .setSymbol => .setSymbol (String.ofList (between 4 1 s))
  | .color => .color (readColor s)
  | .code => .code (Text.unescape (String.ofList s))
  | .extension _ => inner s

end Literal

/-! ## Making blocks -/

/-- What making a block needs: the heap that its stacks go to, and the dice. -/
structure Store where
  heap : Heap
  dice : Dice
deriving Repr

namespace Store

/-- An empty heap and dice from a seed. -/
def ofSeed (seed : UInt64) : Store :=
  ⟨Heap.empty, Dice.ofSeed seed⟩

/-- Adds a stack to the heap. -/
def alloc (st : Store) (s : Stack) : Loc × Store :=
  let (loc, heap) := st.heap.alloc s
  (loc, { st with heap })

/-- A new null block. -/
def null (st : Store) : Block × Store :=
  let (loc, st) := st.alloc (Stack.make "null" [])
  (.null loc, st)

/-- A new data block that holds `blocks`. -/
def data (st : Store) (name : String) (blocks : List Block) : Block × Store :=
  let (loc, st) := st.alloc (Stack.make name blocks)
  (.ofStack loc, st)

/-- A new package of a block, named for what it shows. -/
def package (st : Store) (l : Localizer) (b : Block) : Block × Store :=
  let (loc, st) := st.alloc (Stack.make (st.heap.shown l b) [b])
  (.package loc, st)

/-- A data block that is yet to be resolved. -/
def placeholder (st : Store) (name : String) : Block × Store :=
  let (loc, st) := st.alloc (Stack.make (if name.isEmpty then "a1" else name) [])
  (.data loc false, st)

end Store

namespace Literal

/-- The message for a text that is no block. -/
def unreadableMessage (l : Localizer) (text : String) : String :=
  l.lookup "Errors.CreateBlock.nomatch"
    ("Input \"" ++ Text.slot "blockString"
      ++ "\" to CreateBlock does not match any block's serialization pattern.")
    [("blockString", text)]

/-- The block of a literal. -/
def make (l : Localizer) : Literal → Store → Block × Store
  | .error message, st => (.error message, st)
  | .number value, st => (.ofFraction value, st)
  | .boolean value, st => (.boolean value, st)
  | .string value, st => (.string value, st)
  | .memoryReference name, st => (.memoryReference name, st)
  | .memory id, st => (.memory id, st)
  | .randomInt bounds, st =>
    let (lo, hi) := bounds.valid.getD (-128, 128)
    let (x, dice) := st.dice.int lo hi
    (.randomInt (Fraction.ofFloat x) bounds, { st with dice })
  | .randomReal bounds, st =>
    let (lo, hi) := bounds.valid.getD (-100, 100)
    let (x, dice) := st.dice.real lo hi
    (.randomReal (Fraction.ofFloat x) bounds, { st with dice })
  | .randomBool, st =>
    let (x, dice) := st.dice.real 0 1
    (.randomBool (0.5 ≤ x), { st with dice })
  | .operator op, st => (.operator op, st)
  | .assign name, st => (.assign name, st)
  | .fetch name, st => (.fetch name, st)
  | .null, st => st.null
  | .data name, st => st.placeholder name
  | .package inner, st =>
    let (b, st) := make l inner st
    st.package l b
  | .getSymbol name, st => (.getSymbol name, st)
  | .setSymbol name, st => (.setSymbol name, st)
  | .color value, st => (.color value, st)
  | .code name, st => (.code name none, st)
  | .extension ext, st => (.extension ext, st)
  | .unreadable text, st => (.error (unreadableMessage l text), st)

/-- The blocks of literals, made in order. -/
def makeAll (l : Localizer) : List Literal → Store → List Block × Store
  | [], st => ([], st)
  | x :: xs, st =>
    let (b, st) := x.make l st
    let (bs, st) := makeAll l xs st
    (b :: bs, st)

end Literal

end BlockMachine
