import BlockMachine.Literal
import BlockMachine.Pattern.Reader

/-!
# Modules

A module adds kinds of blocks to the grammar and may look at the value stack whenever a frame
finishes.
-/

namespace BlockMachine

/-- A kind of block that a module adds: its name and the text of its pattern. -/
structure ModuleKind where
  name : String
  pattern : String
deriving Repr, DecidableEq

/-- An extension of the language. -/
structure Module where
  name : String
  /-- The number of the first kind; the others follow in order. -/
  firstId : Int
  kinds : List ModuleKind
  /-- The content of a token of the kind with the given place in `kinds`. -/
  read : Nat → String → Literal
  /-- The value stack, top first, after the frame of the stack with a given name has finished. -/
  afterFrame : String → List Block → List Block

end BlockMachine
