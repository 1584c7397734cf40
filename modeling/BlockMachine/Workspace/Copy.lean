import BlockMachine.Workspace

/-!
# Deep copies

A deep copy of a stack copies every stack that can be reached from it through data and code blocks,
resolving references on the way; sharing and cycles stay as they are. The stacks of null and package
blocks are not copied. A copy has the name, the display name and the blocks of its source.

* `Copying` — the heap so far, and which stack was copied to which;
* `Workspace.deepCopy` — the copy of a stack.
-/

namespace BlockMachine

/-- The state of a copy under way: the heap, and the copies made so far. -/
structure Copying where
  heap : Heap
  copies : List (Loc × Loc)

namespace Copying

/-- The copy of a stack, if it was made already. -/
def find? (c : Copying) (loc : Loc) : Option Loc :=
  c.copies.lookup loc

/-- Copies one block: `enter` copies a stack. -/
def block (enter : Loc → Copying → Loc × Copying) (b : Block) (c : Copying) : Block × Copying :=
  match b with
  | .data loc resolved =>
    let (copy, c) := enter loc c
    (.data copy resolved, c)
  | .code name (some loc) =>
    let (copy, c) := enter loc c
    (.code name (some copy), c)
  | b => (b, c)

/-- Copies the blocks of a stack in order, each one resolved first. -/
def blocks (resolve : Heap → Block → Block) (enter : Loc → Copying → Loc × Copying) :
    List Block → Copying → List Block × Copying
  | [], c => ([], c)
  | b :: bs, c =>
    let (b, c) := block enter (resolve c.heap b) c
    let (bs, c) := blocks resolve enter bs c
    (b :: bs, c)

/-- Copies a stack that was not copied yet. The copy is entered before its blocks are made, so that
a cycle ends in it. -/
def stack (resolve : Heap → Block → Block) : Nat → Loc → Copying → Loc × Copying
  | 0, loc, c => (loc, c)
  | fuel + 1, loc, c =>
    match c.find? loc with
    | some copy => (copy, c)
    | none =>
      let source := c.heap.get loc
      let blank := { Stack.make source.name [] with displayName := source.displayName }
      let (copy, heap) := c.heap.alloc blank
      let (bs, c) := blocks resolve (stack resolve fuel) source.blocks
        ⟨heap, (loc, copy) :: c.copies⟩
      (copy, { c with heap := c.heap.modify copy fun s => { s with blocks := bs } })

end Copying

/-- The deep copy of a stack. Each stack of the heap is copied at most once, so the size of the heap
bounds the nesting. -/
def Workspace.deepCopy (ws : Workspace) (loc : Loc) (h : Heap) : Loc × Heap :=
  let (copy, c) := Copying.stack (fun h b => ws.resolve h b) (h.size + 1) loc ⟨h, []⟩
  (copy, c.heap)

end BlockMachine
