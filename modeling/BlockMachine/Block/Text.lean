import BlockMachine.Block
import BlockMachine.Fraction.Text

/-!
# Blocks as text

Each block has two texts: the *written* one is read again by the grammar, the *shown* one is for
people and goes through the localizer.

* `Heap.written`, `Heap.shown` — the two texts of a block;
* `Stack.shown` — the shown text of a stack with its parameters.

A package writes its own block inside brackets, which may be a package again. The texts themselves
know no bound on this nesting, so a package that is inside itself has none: to write or show it would
never end. Here both carry a bound, the size of the heap, and the shown text is also cut off where a
package is met again. Both functions answer on every heap therefore, and they give the text of every
block that leads to no package inside itself, that is, on every heap that holds no such package
(`Heap.Ends`, `Heap.writes_iff` and `Heap.shows_iff` in `Proofs/Heap/PackageText`). Packages that are
read or made hold blocks that are older than themselves, so none of them is inside itself.
-/

namespace BlockMachine

/-- The written form of a text: in quotes, with a backslash before each quote and backslash. -/
def quote (s : String) : String :=
  let body := s.toList.flatMap fun c => if c = '\\' ∨ c = '\x22' then ['\\', c] else [c]
  String.ofList ('\x22' :: body ++ ['\x22'])

/-- The written form of a number. -/
def Fraction.written (r : Fraction) : String :=
  let x := r.value
  if x == Fraction.pi then "π"
  else if x == Fraction.euler then "e"
  else if x.isInf then Decimal.withSign (Decimal.isNegative x) "Infinity"
  else r.text .reduced false .written

/-- Bounds that a random number can be rolled from. -/
def Bounds.valid : Bounds → Option (Float × Float)
  | some (lo, hi) => if lo ≤ hi then some (lo, hi) else none
  | none => none

/-- The written form of a random literal; bounds that are no range are left out. -/
def Bounds.written (word : String) (bounds : Bounds) : String :=
  match bounds.valid with
  | some (lo, hi) => word ++ "(" ++ Decimal.plain lo ++ "-" ++ Decimal.plain hi ++ ")"
  | none => word

/-- The written form of an error: its grammar admits neither quotes nor line breaks. -/
def errorText (message : String) : String :=
  if message.isEmpty then "Err"
  else "Err(\"" ++ Text.replaceChar '\n' ' ' (Text.replaceChar '\x22' '\x27' message) ++ "\")"

/-- The written form of a color. -/
def Color.written (c : Color) : String :=
  "Color[" ++ ",".intercalate ([c.red, c.green, c.blue].map fun n => Decimal.natText n.val) ++ "]"

/-- The shown form of a color. -/
def Color.shown (c : Color) : String :=
  ", ".intercalate ([c.red, c.green, c.blue].map fun n => Decimal.natText n.val)

namespace Heap

/-- The first block inside a package, as `inner` writes it, in brackets. -/
def bracketed (h : Heap) (inner : Block → String) (loc : Loc) : String :=
  match h.blocks loc with
  | b :: _ => "[" ++ inner b ++ "]"
  | [] => "[]"

/-- The written form of a block, with packages nested at most `depth` deep. The bound is not part of
the form: it cuts off packages inside themselves, which have none. -/
def writtenAt (h : Heap) : (depth : Nat) → Block → String
  | _, .error message => errorText message
  | _, .number r _ => r.written
  | _, .boolean v => if v then "T" else "F"
  | _, .string s => quote s
  | _, .memoryReference name => "MemRef[" ++ name ++ "]"
  | _, .memory id => "Object[" ++ id ++ "]"
  | _, .randomInt _ bounds => bounds.written "int"
  | _, .randomReal _ bounds => bounds.written "real"
  | _, .randomBool _ => "bool"
  | _, .operator op => op.info.token
  | _, .assign name => "->$" ++ name
  | _, .fetch name => "$" ++ name
  | _, .null _ => "@null"
  | _, .data loc _ => "@" ++ Text.escape (h.nameOf loc)
  | 0, .package _ => "[]"
  | depth + 1, .package loc => h.bracketed (h.writtenAt depth) loc
  | _, .getSymbol name => "Get[" ++ name ++ "]"
  | _, .setSymbol name => "Set[" ++ name ++ "]"
  | _, .color c => c.written
  | _, .code name _ => Text.escape name
  | _, .extension ext => ext.written

/-- The written form of a block that leads to no package inside itself. -/
def written (h : Heap) (b : Block) : String :=
  h.writtenAt (h.size + 1) b

/-- The shown name of a variable. -/
def shownVariable (l : Localizer) (name : String) : String :=
  l.word ("VariableNames." ++ name) name

/-- The shown form of a block inside the packages `around`, nested at most `depth` deep. Neither the
bound nor the test for a package that is met again is part of the form: they cut off packages inside
themselves, which have none. -/
def shownAt (l : Localizer) (h : Heap) : (depth : Nat) → (around : List Loc) → Block → String
  | _, _, .error _ => "Err"
  | _, _, .number r rounded => r.text .mixed rounded (.shown l)
  | _, _, .boolean v | _, _, .randomBool v =>
    if v then l.word "BooleanBlock.true" "T" else l.word "BooleanBlock.false" "F"
  | _, _, .string s => quote s
  | _, _, .memoryReference s | _, _, .memory s => s
  | _, _, .randomInt r _ | _, _, .randomReal r _ => r.text .mixed true (.shown l)
  | _, _, .operator op => op.shown l
  | _, _, .assign name =>
    l.lookup "LetBlock.string" ("→\u00a0" ++ Text.slot "varName")
      [("varName", shownVariable l name)]
  | _, _, .fetch name => shownVariable l name
  | _, _, .null _ => l.word "NullBlock.string" "@null"
  | _, _, .data loc _ => "@" ++ (h.get loc).shownName
  | 0, _, .package _ => "[]"
  | depth + 1, around, .package loc =>
    if around.contains loc then "[]" else h.bracketed (shownAt l h depth (loc :: around)) loc
  | _, _, .getSymbol _ => l.word "GetSymbolOperator.string" "Get"
  | _, _, .setSymbol _ => l.word "SetSymbolOperator.string" "Set"
  | _, _, .color c => c.shown
  | _, _, .code _ (some loc) => (h.get loc).shownName
  | _, _, .code name none => Text.replaceChar '_' ' ' name
  | _, _, .extension ext => ext.shown

/-- The shown form of a block that leads to no package inside itself. -/
def shown (l : Localizer) (h : Heap) (b : Block) : String :=
  shownAt l h (h.size + 1) [] b

/-- Shown blocks, each with a space behind it. -/
def shownList (l : Localizer) (h : Heap) (bs : List Block) : String :=
  String.join (bs.map fun b => h.shown l b ++ " ")

/-- The shown form of a stack: its name, its parameters and its blocks. -/
def shownStack (l : Localizer) (h : Heap) (s : Stack) : String :=
  let inputs :=
    if s.inputs.isEmpty then ""
    else " ( " ++ String.join (s.inputs.map fun name => name ++ " ") ++ ")"
  s.name ++ inputs ++ " \x7b " ++ h.shownList l s.blocks ++ "\x7d"

end Heap

end BlockMachine
