import BlockMachine.Decimal.Reading
import BlockMachine.Keyed
import BlockMachine.Text.Escape

/-!
# JSON text

Reading goes in two steps. The syntax of a text is a tree whose numbers are still digits and whose
texts may still hold half of a surrogate pair; its meaning is a value. A part that nobody asks for
is never given a meaning, so only its syntax has to be right.

* `Json.Syntax`, `Json.Syntax.read?` — the tree of a text;
* `Json.Numeral`, `Json.Numeral.value?` — a number in digits, and the double or integer it denotes;
* `Json`, `Json.Syntax.value?` — values, with the members of an object in order of their keys.
-/

namespace BlockMachine

namespace Json

/-- A number as it is written. -/
structure Numeral where
  negative : Bool
  whole : List Char
  /-- The digits behind the point. -/
  places : List Char
  /-- The sign and the digits of the exponent. -/
  exponent : Option (Bool × List Char)
deriving Repr, DecidableEq

/-- What a numeral denotes: an integer of 64 bits, or a double. -/
inductive Number where
  | integer (n : Int)
  | float (x : Float)
deriving Repr, DecidableEq

/-- The nearest double. -/
def Number.toFloat : Number → Float
  | .integer n => Float.ofInt n
  | .float x => x

/-- The syntax of a text. A string is a list of code points, among which may be surrogates. -/
inductive Syntax where
  | null
  | bool (value : Bool)
  | number (value : Numeral)
  | string (points : List Nat)
  | array (items : List Syntax)
  | object (members : List (List Nat × Syntax))
deriving Repr

/-! ## Syntax -/

/-- Whether a character may stand between tokens. -/
def isSpace (c : Char) : Bool :=
  c == ' ' || c == '\n' || c == '\t' || c == '\r'

/-- The text without the space in front. -/
def skip (s : List Char) : List Char :=
  s.dropWhile isSpace

/-- The code point of a one-letter escape. -/
def escapePoint? (c : Char) : Option Nat :=
  match c with
  | '\x22' => some 0x22
  | '\\' => some 0x5c
  | '/' => some 0x2f
  | 'b' => some 0x08
  | 'f' => some 0x0c
  | 'n' => some 0x0a
  | 'r' => some 0x0d
  | 't' => some 0x09
  | _ => none

/-- The code points of a string up to its closing quote. Control characters must be escaped. -/
def readPoints : List Char → Option (List Nat × List Char)
  | [] => none
  | '\x22' :: rest => some ([], rest)
  | '\\' :: 'u' :: a :: b :: c :: d :: rest => do
    let n ← Text.quadValue? a b c d
    let (ns, rest) ← readPoints rest
    return (n :: ns, rest)
  | '\\' :: c :: rest => do
    let n ← escapePoint? c
    let (ns, rest) ← readPoints rest
    return (n :: ns, rest)
  | c :: rest =>
    if c.toNat < 0x20 then none
    else do
      let (ns, rest) ← readPoints rest
      return (c.toNat :: ns, rest)

/-- Digits, at least one. -/
def readDigits (s : List Char) : Option (List Char × List Char) :=
  let ds := s.takeWhile Decimal.isDigit
  if ds.isEmpty then none else some (ds, s.dropWhile Decimal.isDigit)

/-- The whole part of a numeral: a zero stands alone. -/
def readWhole (s : List Char) : Option (List Char × List Char) := do
  let (ds, rest) ← readDigits s
  if ds.head? = some '0' ∧ 1 < ds.length then none else return (ds, rest)

/-- The places of a numeral, if it has a point. -/
def readPlaces : List Char → Option (List Char × List Char)
  | '.' :: rest => readDigits rest
  | s => some ([], s)

/-- The exponent of a numeral, if it has one. -/
def readExponent (s : List Char) : Option (Option (Bool × List Char) × List Char) :=
  match s with
  | c :: rest =>
    if c = 'e' ∨ c = 'E' then do
      let (negative, rest) := match rest with
        | '-' :: rest => (true, rest)
        | '+' :: rest => (false, rest)
        | rest => (false, rest)
      let (ds, rest) ← readDigits rest
      return (some (negative, ds), rest)
    else some (none, s)
  | [] => some (none, [])

/-- A numeral. -/
def readNumeral (s : List Char) : Option (Numeral × List Char) := do
  let (negative, s) := match s with
    | '-' :: rest => (true, rest)
    | s => (false, s)
  let (whole, s) ← readWhole s
  let (places, s) ← readPlaces s
  let (exponent, s) ← readExponent s
  return (⟨negative, whole, places, exponent⟩, s)

/-- The text behind a word that it starts with. -/
def afterWord? : List Char → List Char → Option (List Char)
  | [], s => some s
  | c :: cs, d :: s => if c = d then afterWord? cs s else none
  | _ :: _, [] => none

mutual

/-- A value at the front of a text, which may start with space. -/
def readSyntax : Nat → List Char → Option (Syntax × List Char)
  | 0, _ => none
  | fuel + 1, s =>
    match skip s with
    | '\x22' :: rest => (readPoints rest).map fun (ns, rest) => (.string ns, rest)
    | '[' :: rest =>
      match skip rest with
      | ']' :: rest => some (.array [], rest)
      | _ => (readItems fuel rest).map fun (items, rest) => (.array items, rest)
    | '\x7b' :: rest =>
      match skip rest with
      | '\x7d' :: rest => some (.object [], rest)
      | _ => (readMembers fuel rest).map fun (members, rest) => (.object members, rest)
    | 't' :: rest => (afterWord? "rue".toList rest).map fun rest => (.bool true, rest)
    | 'f' :: rest => (afterWord? "alse".toList rest).map fun rest => (.bool false, rest)
    | 'n' :: rest => (afterWord? "ull".toList rest).map fun rest => (.null, rest)
    | s => (readNumeral s).map fun (n, rest) => (.number n, rest)

/-- The items of an array that has one, up to its closing bracket. -/
def readItems : Nat → List Char → Option (List Syntax × List Char)
  | 0, _ => none
  | fuel + 1, s => do
    let (item, rest) ← readSyntax fuel s
    match skip rest with
    | ',' :: rest =>
      let (items, rest) ← readItems fuel rest
      return (item :: items, rest)
    | ']' :: rest => return ([item], rest)
    | _ => none

/-- The members of an object that has one, up to its closing brace. -/
def readMembers : Nat → List Char → Option (List (List Nat × Syntax) × List Char)
  | 0, _ => none
  | fuel + 1, s =>
    match skip s with
    | '\x22' :: rest => do
      let (key, rest) ← readPoints rest
      match skip rest with
      | ':' :: rest =>
        let (value, rest) ← readSyntax fuel rest
        match skip rest with
        | ',' :: rest =>
          let (members, rest) ← readMembers fuel rest
          return ((key, value) :: members, rest)
        | '\x7d' :: rest => return ([(key, value)], rest)
        | _ => none
      | _ => none
    | _ => none

end

/-- The syntax of a whole text. Each level of reading uses up a character, or is the second one at
its character. -/
def Syntax.read? (text : String) : Option Syntax :=
  match readSyntax (2 * text.length + 2) text.toList with
  | some (tree, rest) => if (skip rest).isEmpty then some tree else none
  | none => none

/-! ## Meaning -/

/-- The text of code points; a surrogate counts only together with its partner. -/
def textOf? : List Nat → Option (List Char)
  | [] => some []
  | [n] => (Text.charOf? n).map fun c => [c]
  | n :: m :: rest =>
    if 0xd800 ≤ n ∧ n < 0xdc00 ∧ 0xdc00 ≤ m ∧ m < 0xe000 then
      (textOf? rest).map fun cs => Char.ofNat (0x10000 + (n - 0xd800) * 0x400 + (m - 0xdc00)) :: cs
    else do
      let c ← Text.charOf? n
      let cs ← textOf? (m :: rest)
      return c :: cs

/-- The text of a string. -/
def string? (points : List Nat) : Option String :=
  (textOf? points).map String.ofList

/-- Appends digits to a significand as long as it fits 64 bits; the rest is given back. -/
def gather : Nat → List Char → Nat × List Char
  | n, [] => (n, [])
  | n, c :: rest =>
    let n' := 10 * n + (c.toNat - 48)
    if n' < 0x10000000000000000 then gather n' rest else (n, c :: rest)

/-- `x · 10^e` in steps of at most `10^308`. Too great a result is refused; too small a one is 0. -/
def scaleBy : Nat → Float → Int → Option Float
  | 0, x, _ => some x
  | fuel + 1, x, e =>
    if 308 < e then (if x == 0 then some x else none)
    else if 0 ≤ e then
      let y := x * Decimal.ofDecimal 1 e
      if y.isInf then none else some y
    else if -308 ≤ e then some (x / Decimal.ofDecimal 1 (-e))
    else if x == 0 then some x
    else scaleBy fuel (x / 1e308) (e + 308)

/-- The double `significand · 10^e`, rounded at each step. -/
def fromParts (negative : Bool) (significand : Nat) (e : Int) : Option Float :=
  (scaleBy 8 (Float.ofNat significand) e).map fun x => if negative then -x else x

/-- An exponent that does not fit 31 bits decides alone: the value is zero or out of range. -/
def beyond (negative : Bool) (significand : Nat) (small : Bool) : Option Float :=
  if significand = 0 ∨ small then some (if negative then -0.0 else 0.0) else none

/-- What a numeral denotes. Without point and exponent it is an integer if it fits 64 bits, signed
if it is negative; minus zero is a double. Otherwise the first digits that fit 64 bits are scaled by
a power of ten. -/
def Numeral.value? (n : Numeral) : Option Number :=
  let (front, cut) := gather 0 n.whole
  if cut.isEmpty && n.places.isEmpty && n.exponent.isNone then
    if !n.negative then some (.integer front)
    else if 0 < front ∧ front ≤ 0x8000000000000000 then some (.integer (-(front : Int)))
    else some (.float (-(Float.ofNat front)))
  else
    let (all, ignored) := gather front n.places
    let e : Int := (cut.length : Int) - ((n.places.length : Int) - (ignored.length : Int))
    match n.exponent with
    | none => (fromParts n.negative all e).map .float
    | some (small, ds) =>
      let x := Decimal.natOfDigits ds
      if 0x80000000 ≤ x then (beyond n.negative all small).map .float
      else (fromParts n.negative all (if small then e - x else e + x)).map .float

end Json

/-- A JSON value. -/
inductive Json where
  | null
  | bool (value : Bool)
  | number (value : Json.Number)
  | string (value : String)
  | array (items : List Json)
  | object (members : List (String × Json))
deriving Repr

namespace Json

/-- Arrays and objects nest at most so deep. -/
def depthLimit : Nat := 127

mutual

/-- The value of a syntax tree with at most `depth` levels of arrays and objects. -/
def Syntax.valueAt : (depth : Nat) → Syntax → Option Json
  | _, .null => some .null
  | _, .bool b => some (.bool b)
  | _, .number n => n.value?.map .number
  | _, .string points => (string? points).map .string
  | 0, .array _ => none
  | 0, .object _ => none
  | depth + 1, .array items => (itemValues depth items).map .array
  | depth + 1, .object members => (memberValues depth members []).map .object

/-- The values of the items of an array. -/
def itemValues : (depth : Nat) → List Syntax → Option (List Json)
  | _, [] => some []
  | depth, item :: items => do
    let v ← Syntax.valueAt depth item
    let vs ← itemValues depth items
    return v :: vs

/-- The members of an object, sorted; of equal keys the last one counts. -/
def memberValues : (depth : Nat) → List (List Nat × Syntax) → List (String × Json) →
    Option (List (String × Json))
  | _, [], found => some found
  | depth, (key, value) :: members, found => do
    let k ← string? key
    let v ← Syntax.valueAt depth value
    memberValues depth members (Keyed.insert k v found)

end

/-- The value of a text. -/
def read? (text : String) : Option Json :=
  (Syntax.read? text).bind fun tree => tree.valueAt depthLimit

/-! ## Shapes

Readers for parts of a tree with a known shape. Each uses up one level of nesting for an array or an
object. -/

/-- A string. -/
def Syntax.string? : Syntax → Option String
  | .string points => Json.string? points
  | _ => none

/-- An array whose items all have a shape. -/
def Syntax.list? {α : Type} (item : Syntax → Option α) : Syntax → Option (List α)
  | .array items => items.mapM item
  | _ => none

/-- An object of strings; of equal keys the last one counts. -/
def Syntax.stringMap? : Syntax → Option (List (String × String))
  | .object members =>
    members.foldlM (fun found (key, value) => do
      let k ← Json.string? key
      let v ← value.string?
      return Keyed.insert k v found) []
  | _ => none

/-- An integer of 32 bits. -/
def Syntax.int32? : Syntax → Option Int
  | .number n =>
    match n.value? with
    | some (.integer i) => if -0x80000000 ≤ i ∧ i < 0x80000000 then some i else none
    | _ => none
  | _ => none

/-- The fields of a record by name. A record may be given as an object, where unknown keys are
passed over and a known key must not come twice, or as an array of the fields in order, where fields
at the end may be left out. -/
def Syntax.fields? (names : List String) : Syntax → Option (List (String × Syntax))
  | .object members => do
    let named ← members.mapM fun (key, value) => (Json.string? key).map fun k => (k, value)
    let known := named.filter fun p => names.contains p.1
    if (known.map Prod.fst).eraseDups.length = known.length then return known else none
  | .array items => if items.length ≤ names.length then some (names.zip items) else none
  | _ => none

end Json

end BlockMachine
