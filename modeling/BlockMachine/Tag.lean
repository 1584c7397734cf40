import BlockMachine.Localizer

/-!
# Operand tags

The categories of blocks that operators ask for. `Kind.isA` says which kinds of blocks are in which
category.
-/

namespace BlockMachine

/-- A category of blocks. -/
inductive Tag where
  | block
  | number
  | boolean
  | string
  | data
  | memory
  | memoryReference
deriving Repr, DecidableEq

namespace Tag

/-- Every tag, from the most general one on. -/
def all : List Tag :=
  [.block, .number, .boolean, .string, .data, .memory, .memoryReference]

/-- The name of a category. -/
def name : Tag → String
  | .block => "Block"
  | .number => "NumberBlock"
  | .boolean => "BooleanBlock"
  | .string => "StringBlock"
  | .data => "DataBlock"
  | .memory => "MemoryBlock"
  | .memoryReference => "MemoryReferenceBlock"

/-- The name as error messages show it. -/
def shown (l : Localizer) (t : Tag) : String :=
  l.word (t.name ++ ".name") t.name

/-- The tag of a name. -/
def ofName? (s : String) : Option Tag :=
  all.find? fun t => t.name == s

end Tag

end BlockMachine
