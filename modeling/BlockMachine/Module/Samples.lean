import BlockMachine.Module

/-!
# Sample modules

Small modules that show what a module can do, and two that a grammar refuses.

* `vectors` — a kind of data: lists of 64-bit integers;
* `shuffle` — kinds that act on the value stack;
* `shadow` — a kind that takes tokens away from a built-in one;
* `hooks` — no kinds, but a note on the value stack whenever a frame finishes;
* `broken`, `grouped` — patterns that cannot be read, or that capture.
-/

namespace BlockMachine.Module

/-- The value stack as it is. -/
def leave (_ : String) (values : List Block) : List Block :=
  values

/-! ## Vectors -/

/-- Whether an integer fits in 64 bits with a sign. -/
def isWord (n : Int) : Bool :=
  -0x8000000000000000 ≤ n && n < 0x8000000000000000

/-- The elements of a vector token; those that do not fit in 64 bits are left out. -/
def vectorElements (token : String) : List Int :=
  (((Literal.between 4 1 token.toList).splitOn ',').filterMap Decimal.readInt?).filter isWord

/-- The token of a vector. -/
def vectorText (elements : List Int) : String :=
  "Vec[" ++ ",".intercalate (elements.map Decimal.intText) ++ "]"

/-- Lists of 64-bit integers. -/
def vectors : Module where
  name := "vectors"
  firstId := 9000
  kinds := [⟨"VectorBlock", "Vec\\[-?[0-9]+(?:,-?[0-9]+)*\\]"⟩]
  read := fun i token =>
    let text := vectorText (vectorElements token)
    .extension ⟨9000 + i, "VectorBlock", text, text, .pushSelf⟩
  afterFrame := leave

/-! ## The other samples -/

/-- Doubling and dropping the top block. -/
def shuffle : Module where
  name := "shuffle"
  firstId := 9500
  kinds := [⟨"DupBlock", "dup!"⟩, ⟨"DropBlock", "drop!"⟩]
  read := fun i _ =>
    if i = 0 then .extension ⟨9500, "DupBlock", "dup!", "DUP!", .respread 2 "empty"⟩
    else .extension ⟨9501, "DropBlock", "drop!", "DROP!", .respread 0 "empty"⟩
  afterFrame := leave

/-- Strings without quotes for two tokens, one of which is also a boolean. -/
def shadow : Module where
  name := "shadow"
  firstId := 9600
  kinds := [⟨"ShadowBlock", "T|yes"⟩]
  read := fun _ token => .string token
  afterFrame := leave

/-- Notes the name of each finished frame's stack and the height of the value stack. -/
def hooks : Module where
  name := "hooks"
  firstId := 9700
  kinds := []
  read := fun _ token => .unreadable token
  afterFrame := fun name values =>
    .string (name ++ "#" ++ Decimal.natText values.length) :: values

/-- A pattern with a group that is not closed. -/
def broken : Module where
  name := "broken"
  firstId := 9100
  kinds := [⟨"BrokenBlock", "(unclosed"⟩]
  read := fun _ token => .unreadable token
  afterFrame := leave

/-- A pattern with groups that capture. -/
def grouped : Module where
  name := "grouped"
  firstId := 9200
  kinds := [⟨"PairBlock", "Pair<([0-9]+),([0-9]+)>"⟩]
  read := fun _ token => .unreadable token
  afterFrame := leave

/-- The samples. -/
def samples : List Module :=
  [vectors, shuffle, shadow, hooks, broken, grouped]

/-- The sample of a name. -/
def sample? (name : String) : Option Module :=
  samples.find? fun m => m.name == name

end BlockMachine.Module
