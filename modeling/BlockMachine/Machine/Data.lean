import BlockMachine.Machine.Control

/-!
# Data operators

Places are counted from 1. A data block can also be used as a record: a member is a data block named
for its key that holds one value. Operators that edit a data block leave its stack alone and give a
new version of it.

Each function gets the operands of its operator, bottom first, and gives the block to push, if any.
-/

namespace BlockMachine.Machine

open Text (slot)

/-- The error for a place outside of an array. -/
def outOfRange (l : Localizer) (i : Float) (mark : String) : Block :=
  .error (l.lookup "Errors.indexOutOfRange" ("Index " ++ slot "index" ++ " out of range" ++ mark)
    [("index", Decimal.compact i)])

/-- The error for a member that is not there. -/
def undefinedProperty (l : Localizer) (property stackName : String) : Block :=
  .error (l.lookup "Errors.propertyUndefined"
    ("Property " ++ slot "propertyName" ++ " of " ++ slot "stackName" ++ " is undefined.")
    [("propertyName", property), ("stackName", stackName)])

/-- The place of the first member with a key. -/
def memberIndex? (h : Heap) (blocks : List Block) (key : String) : Option Nat :=
  blocks.findIdx? fun b => b.stack?.any fun loc => h.nameOf loc == key

/-- Whether a whole double is a place among the first `n`. -/
def inRange (i : Float) (n : Nat) : Bool :=
  1 ≤ i && i ≤ Float.ofNat n

/-- The number of elements. -/
def count (array : Block) (m : Machine) : Option Block :=
  (m.dataLoc? array).map fun loc => .ofFloat (Float.ofNat (m.heap.blocks loc).length)

/-- Pushes the elements of an array. -/
def readAll (array : Block) (m : Machine) : Machine :=
  match m.dataLoc? array with
  | some loc => m.pushAll (m.heap.blocks loc)
  | none => m

/-- The element at a place, or an error. -/
def elementByIndex (l : Localizer) (array i : Block) (m : Machine) : Option Block := do
  let loc ← m.dataLoc? array
  let i := Decimal.floor (← i.float?)
  if inRange i (m.heap.blocks loc).length then (m.heap.blocks loc)[Decimal.wholePart i - 1]?
  else return outOfRange l i "."

/-- The value of the first member with a key, or an error. -/
def elementByKey (l : Localizer) (array key : Block) (m : Machine) : Option Block := do
  let loc ← m.dataLoc? array
  let key ← key.string?
  let found := (m.heap.blocks loc).findSome? fun b =>
    (m.dataLoc? b).filter fun member => m.heap.nameOf member == key
  match found.bind fun member => (m.heap.blocks member).head? with
  | some value => return value
  | none => return undefinedProperty l key (m.heap.nameOf loc)

/-- A new version with `edit` done at a place from 1 to one behind the end, or an error. -/
def editAt (l : Localizer) (mark : String) (edit : Nat → List Block → List Block)
    (array i : Block) (m : Machine) : Option Block × Machine :=
  match m.dataLoc? array, i.float? with
  | some loc, some i =>
    let i := Decimal.floor i
    if inRange i ((m.heap.blocks loc).length + 1) then
      let (b, m) := m.newVersion loc (edit (Decimal.wholePart i - 1))
      (some b, m)
    else (some (outOfRange l i mark), m)
  | _, _ => (none, m)

/-- A new version in which a member has a value; a new member comes last. -/
def setMember (array value key : Block) (m : Machine) : Option Block × Machine :=
  match m.dataLoc? array, key.string? with
  | some loc, some key =>
    let (member, m) := m.newData key [value]
    let place := memberIndex? m.heap (m.heap.blocks loc) key
    let (b, m) := m.newVersion loc fun blocks =>
      match place with
      | some i => blocks.set i member
      | none => blocks ++ [member]
    (some b, m)
  | _, _ => (none, m)

/-- A new version with a value inserted at a place. -/
def insertAt (l : Localizer) (array value i : Block) (m : Machine) : Option Block × Machine :=
  m.editAt l "." (fun place blocks => blocks.insertIdx place value) array i

/-- A new version with a value in place of an element, or behind the last one. -/
def replaceAt (l : Localizer) (array value i : Block) (m : Machine) : Option Block × Machine :=
  m.editAt l "." (fun place blocks =>
    if place < blocks.length then blocks.set place value else blocks ++ [value]) array i

/-- A new version without an element. -/
def deleteAt (l : Localizer) (array i : Block) (m : Machine) : Option Block × Machine :=
  m.editAt l "" (fun place blocks => blocks.eraseIdx place) array i

/-- A new version without a member, or an error. -/
def deleteMember (l : Localizer) (array key : Block) (m : Machine) : Option Block × Machine :=
  match m.dataLoc? array, key.string? with
  | some loc, some key =>
    match memberIndex? m.heap (m.heap.blocks loc) key with
    | some i =>
      let (b, m) := m.newVersion loc fun blocks => blocks.eraseIdx i
      (some b, m)
    | none => (some (undefinedProperty l key (m.heap.shown l array)), m)
  | _, _ => (none, m)

/-- A new version with a value behind the last element. -/
def appendTo (array value : Block) (m : Machine) : Option Block × Machine :=
  match m.dataLoc? array with
  | some loc =>
    let (b, m) := m.newVersion loc fun blocks => blocks ++ [value]
    (some b, m)
  | none => (none, m)

/-! ## Writing -/

/-- Pops blocks until `count` are found; `blocks` are those found so far, bottom first. If the value
stack ends before that, the number found is given. -/
def gather (this : Block) (count : Float) : Nat → Float → List Block → Machine →
    Except Float (List Block) × Machine
  | 0, _, blocks, m => (.ok blocks, m)
  | fuel + 1, found, blocks, m =>
    if found < count then
      match m.pop (some this) with
      | (some b, m) => gather this count fuel (found + 1) (b :: blocks) m
      | (none, m) => (.error found, m)
    else (.ok blocks, m)

/-- Collects as many blocks as the top block says into a new anonymous stack. -/
def write (l : Localizer) (this : Block) (m : Machine) : Option Block × Machine :=
  let name := l.word "WriteBlock.name" "WriteBlock"
  let (top, m) := m.pop (some this)
  match top.bind Block.float? with
  | none =>
    (some (.error (l.lookup "Errors.writeBlockNoCount"
      (slot "writeBlock" ++ " expected a " ++ slot "numberBlock"
        ++ " to determine the number of blocks to write to the stack.")
      [("writeBlock", name), ("numberBlock", l.word "NumberBlock.name" "Number Block")])), m)
  | some n =>
    let n := Decimal.floor n
    let (i, m) := m.nextAnonymous
    match gather this n (m.values.length + 1) 0 [] m with
    | (.ok blocks, m) =>
      let (b, m) := m.newData ("a" ++ Decimal.natText i) blocks
      (some b, m)
    | (.error found, m) =>
      let wanted := l.lookup "Errors.blocksAsInput" (slot "count" ++ " blocks as input")
        [("count", Decimal.compact n)]
      (some (.error (l.lookup "Errors.writeBlockNotEnoughInputs"
        (slot "writeBlock" ++ " expected " ++ slot "blocksAsInput" ++ " but only found "
          ++ slot "count" ++ ".")
        [("writeBlock", name), ("blocksAsInput", wanted), ("count", Decimal.compact found)])), m)

end BlockMachine.Machine
