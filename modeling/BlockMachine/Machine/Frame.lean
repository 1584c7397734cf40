import BlockMachine.Block.Text
import BlockMachine.Keyed

/-!
# Frames

A frame is a program that is being run, with the variables that it binds. A frame that waits for a
child holds a mark at the front of its program.

* `Binding`, `Pending`, `Frame` — the parts;
* `Frame.fetch` — the innermost binding of a name in a chain of frames;
* `Frame.assignAll` — binding a name in a chain of frames;
* `Heap.shownFrame` — the shown text of a frame.
-/

namespace BlockMachine

/-- What a name is bound to. A parameter stays local to its frame. -/
structure Binding where
  parameter : Bool
  block : Block
deriving Repr, DecidableEq

/-- A part of a program that is yet to run. -/
inductive Pending where
  | block (b : Block)
  /-- A child frame runs here. -/
  | child
deriving Repr, DecidableEq

/-- A program under way. -/
structure Frame where
  program : List Pending
  bindings : Keyed Binding
  /-- The name of the stack that was loaded last. -/
  name : String
deriving Repr

namespace Frame

/-- A frame without a program. -/
def empty : Frame :=
  ⟨[], [], ""⟩

/-- Whether nothing is left to run. -/
def isFinished (f : Frame) : Bool :=
  f.program.isEmpty

/-- Whether a name is bound as a parameter. -/
def isParameter (f : Frame) (name : String) : Bool :=
  (f.bindings.find? name).any Binding.parameter

/-- Binds a name. -/
def bind (f : Frame) (name : String) (parameter : Bool) (b : Block) : Frame :=
  { f with bindings := Keyed.insert name ⟨parameter, b⟩ f.bindings }

/-- The names that are bound as parameters. -/
def parameters (f : Frame) : List String :=
  (f.bindings.filter fun p => p.2.parameter).map Prod.fst

/-- The innermost binding of a name in a chain of frames, innermost first. -/
def fetch (frames : List Frame) (name : String) : Option Block :=
  frames.findSome? fun f => (f.bindings.find? name).map Binding.block

/-- Binds a name in a chain of frames, innermost first: in each frame up to the first in which it is
a parameter. Also lists, for each frame in which the value of the name changed, whether the name is
a parameter there. -/
def assignAll (changed : Block → Bool) (name : String) (b : Block) :
    (parameter : Bool) → List Frame → List Frame × List Bool
  | _, [] => ([], [])
  | parameter, f :: outer =>
    let parameter := parameter || f.isParameter name
    let news := if (fetch (f :: outer) name).all changed then [parameter] else []
    let (outer, more) := if parameter then (outer, []) else assignAll changed name b false outer
    (f.bind name parameter b :: outer, news ++ more)

end Frame

/-- The shown text of a frame: what is left of its program, with dots for a child. -/
def Heap.shownFrame (l : Localizer) (h : Heap) (f : Frame) : String :=
  let part := fun (p : Pending) =>
    match p with
    | .block b => h.shown l b ++ " "
    | .child => "... "
  "[ " ++ String.join (f.program.map part) ++ "]"

end BlockMachine
