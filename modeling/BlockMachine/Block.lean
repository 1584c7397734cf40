import BlockMachine.Color
import BlockMachine.Fraction
import BlockMachine.Operator

/-!
# Blocks, stacks and the heap

A block is a unit of data or of computation; a stack is a named list of blocks. Blocks refer to
stacks by location, and all stacks live in one heap that only grows, so data can be shared and
cyclic while every value of this library stays a plain first-order value.

* `Block` — the blocks, `Kind` — what a block is, `Kind.isA` — which operand tags it answers to;
* `Stack` — a stack with its parameters and its marks;
* `Heap` — the stacks by location: `get`, `alloc`, `modify`.
-/

namespace BlockMachine

/-- The place of a stack in the heap. -/
abbrev Loc := Nat

/-- What running a module's block does. -/
inductive Behaviour where
  /-- The block is pushed. -/
  | pushSelf
  /-- The top block is taken and pushed `copies` times; without one, an error is pushed. -/
  | respread (copies : Nat) (whenEmpty : String)
deriving Repr, DecidableEq

/-- A block of a kind that a module brought in. -/
structure Extension where
  typeId : Int
  typeName : String
  written : String
  shown : String
  behaviour : Behaviour
deriving Repr, DecidableEq

/-- The bounds that a random literal was written with. -/
abbrev Bounds := Option (Float × Float)

/-- The unit of computation and data. -/
inductive Block where
  | error (message : String)
  | number (value : Fraction) (rounded : Bool)
  | boolean (value : Bool)
  | string (value : String)
  | memoryReference (name : String)
  | memory (id : String)
  /-- A whole number that was rolled when the block was made. -/
  | randomInt (value : Fraction) (bounds : Bounds)
  /-- A number that was rolled when the block was made. -/
  | randomReal (value : Fraction) (bounds : Bounds)
  /-- A truth value that was rolled when the block was made. -/
  | randomBool (value : Bool)
  | operator (op : Operator)
  /-- Takes the top block and binds it to a name. -/
  | assign (name : String)
  /-- Pushes what a name is bound to. -/
  | fetch (name : String)
  | null (stack : Loc)
  /-- A stack as data. Until it is resolved, the stack is an empty one that carries only the
  name. -/
  | data (stack : Loc) (resolved : Bool)
  /-- A literal stack of one block. -/
  | package (stack : Loc)
  | getSymbol (name : String)
  | setSymbol (name : String)
  | color (value : Color)
  /-- A call of the stack with a name, bound to that stack once it is found. -/
  | code (name : String) (target : Option Loc)
  | extension (ext : Extension)
deriving Repr, DecidableEq

/-- The concrete kind of a block. -/
inductive Kind where
  | error
  | number
  | boolean
  | string
  | memoryReference
  | memory
  | randomInt
  | randomReal
  | randomBool
  | operator (op : Operator)
  | assign
  | fetch
  | null
  | data
  | package
  | getSymbol
  | setSymbol
  | color
  | code
  | extension (typeId : Int)
deriving Repr, DecidableEq

namespace Kind

/-- The name of a kind. -/
def name : Kind → String
  | .error => "ErrorBlock"
  | .number => "NumberBlock"
  | .boolean => "BooleanBlock"
  | .string => "StringBlock"
  | .memoryReference => "MemoryReferenceBlock"
  | .memory => "MemoryBlock"
  | .randomInt => "RandomIntBlock"
  | .randomReal => "RandomRealBlock"
  | .randomBool => "RandomBoolBlock"
  | .operator op => op.name
  | .assign => "LetBlock"
  | .fetch => "RecallBlock"
  | .null => "NullBlock"
  | .data => "DataBlock"
  | .package => "PackageBlock"
  | .getSymbol => "GetSymbolOperator"
  | .setSymbol => "SetSymbolOperator"
  | .color => "ColorBlock"
  | .code => "CodeBlock"
  | .extension _ => "ExtensionBlock"

/-- Whether blocks of this kind are in the category of a tag. -/
def isA (k : Kind) : Tag → Bool
  | .block => true
  | .number => k == .number || k == .randomInt || k == .randomReal
  | .boolean => k == .boolean || k == .randomBool
  | .string => k == .string
  | .data => k == .data || k == .null || k == .package
  | .memory => k == .memory
  | .memoryReference => k == .memoryReference

end Kind

namespace Block

/-- The kind of a block. -/
def kind : Block → Kind
  | .error _ => .error
  | .number .. => .number
  | .boolean _ => .boolean
  | .string _ => .string
  | .memoryReference _ => .memoryReference
  | .memory _ => .memory
  | .randomInt .. => .randomInt
  | .randomReal .. => .randomReal
  | .randomBool _ => .randomBool
  | .operator op => .operator op
  | .assign _ => .assign
  | .fetch _ => .fetch
  | .null _ => .null
  | .data .. => .data
  | .package _ => .package
  | .getSymbol _ => .getSymbol
  | .setSymbol _ => .setSymbol
  | .color _ => .color
  | .code .. => .code
  | .extension ext => .extension ext.typeId

/-- Whether a block is in the category of a tag. -/
def isA (b : Block) (t : Tag) : Bool :=
  b.kind.isA t

/-- Whether two blocks are of one kind. -/
def sameKind (a b : Block) : Bool :=
  a.kind == b.kind

/-- Whether a block is an error. -/
def isError : Block → Bool
  | .error _ => true
  | _ => false

/-- The name of a block's kind; a module's block brings its own. -/
def typeName : Block → String
  | .extension ext => ext.typeName
  | b => b.kind.name

/-- A number block, rounded when shown. -/
def ofFraction (r : Fraction) : Block :=
  .number r true

/-- A number block. -/
def ofFloat (x : Float) : Block :=
  ofFraction (Fraction.ofFloat x)

/-- A data block on a known stack. -/
def ofStack (stack : Loc) : Block :=
  .data stack true

/-- The number that a block holds. -/
def fraction? : Block → Option Fraction
  | .number r _ => some r
  | .randomInt r _ => some r
  | .randomReal r _ => some r
  | _ => none

/-- The value of the number that a block holds. -/
def float? (b : Block) : Option Float :=
  b.fraction?.map Fraction.value

/-- The truth value that a block holds. -/
def boolean? : Block → Option Bool
  | .boolean v => some v
  | .randomBool v => some v
  | _ => none

/-- The text that a block holds. -/
def string? : Block → Option String
  | .string s => some s
  | _ => none

/-- The stack of a data, null or package block. -/
def stack? : Block → Option Loc
  | .null loc => some loc
  | .data loc _ => some loc
  | .package loc => some loc
  | _ => none

end Block

/-- A named list of blocks. -/
structure Stack where
  name : String
  blocks : List Block
  /-- The parameters, bound from the value stack when the stack is run, in declaration order. -/
  inputs : List String
  /-- Whether calls run on a machine of their own and only their net effect comes back. -/
  obfuscated : Bool
  /-- A name for readers, in place of the proper one. -/
  displayName : Option String
deriving Repr, DecidableEq, Inhabited

namespace Stack

/-- A stack without parameters; a stack without a name is called `i`. -/
def make (name : String) (blocks : List Block) : Stack where
  name := if name.isEmpty then "i" else name
  blocks := blocks
  inputs := []
  obfuscated := false
  displayName := none

/-- The name for readers: the display name, or the proper one with spaces for underscores. -/
def shownName (s : Stack) : String :=
  match s.displayName with
  | some display => display
  | none => Text.replaceChar '_' ' ' s.name

end Stack

/-- The stacks by location. -/
structure Heap where
  cells : Array Stack
deriving Repr

namespace Heap

/-- The heap without stacks. -/
def empty : Heap :=
  ⟨#[]⟩

/-- The number of stacks, which is also the next location. -/
def size (h : Heap) : Nat :=
  h.cells.size

/-- The stack at a location; places that were never allocated hold an empty stack. -/
def get (h : Heap) (loc : Loc) : Stack :=
  h.cells.getD loc (Stack.make "" [])

/-- Adds a stack at the next location. -/
def alloc (h : Heap) (s : Stack) : Loc × Heap :=
  (h.cells.size, ⟨h.cells.push s⟩)

/-- Changes the stack at a location. -/
def modify (h : Heap) (loc : Loc) (f : Stack → Stack) : Heap :=
  ⟨h.cells.modify loc f⟩

/-- The blocks of the stack at a location. -/
def blocks (h : Heap) (loc : Loc) : List Block :=
  (h.get loc).blocks

/-- The name of the stack at a location. -/
def nameOf (h : Heap) (loc : Loc) : String :=
  (h.get loc).name

@[simp] theorem size_alloc (h : Heap) (s : Stack) : (h.alloc s).2.size = h.size + 1 := by
  simp [alloc, size]

/-- The new location reads back the new stack. -/
@[simp] theorem get_alloc_self (h : Heap) (s : Stack) : (h.alloc s).2.get (h.alloc s).1 = s := by
  simp [alloc, get]

/-- Allocation changes nothing at the old locations. -/
theorem get_alloc_of_lt (h : Heap) (s : Stack) {loc : Loc} (hlt : loc < h.size) :
    (h.alloc s).2.get loc = h.get loc := by
  have hlt' : loc < h.cells.size := hlt
  simp [alloc, get, hlt', Array.getElem_push, Nat.lt_succ_of_lt hlt']

end Heap

end BlockMachine
