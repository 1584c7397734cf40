import BlockMachine.Machine.Operands

/-!
# Control operators

No operator loops by itself. Each one builds a small stack that does one round of the work and ends
with the operator, or its helper, again; the next round is then a tail call, and the chain of frames
stays flat however long the loop runs.

Each function gets the operands of its operator, bottom first, and gives the block to push, if any.
How the built stack is run is left to an `Inserter`.
-/

namespace BlockMachine.Machine

/-- The location that an operand denotes once it is resolved. -/
def dataLoc? (m : Machine) (b : Block) : Option Loc :=
  (m.resolve b).stack?

/-- A call of the stack that an operand denotes. -/
def callOf? (m : Machine) (b : Block) : Option Block := do
  let loc ← m.dataLoc? b
  return .code (m.heap.nameOf loc) (some loc)

/-- Runs the stack of a data block. -/
def execute (insert : Inserter) (f : Block) (m : Machine) : Machine :=
  match m.dataLoc? f with
  | some loc => insert (m.heap.get loc) m
  | none => m

/-- Runs a helper stack. -/
def runHelper (insert : Inserter) (name : String) (blocks : List Block) (m : Machine) : Machine :=
  insert (Stack.make name blocks) m

/-- Folds the array into an empty one, with `f` and then `append` on each element. -/
def mapArray (insert : Inserter) (array f : Block) (m : Machine) : Machine :=
  let array := m.resolve array
  let f := m.resolve f
  let (append, m) := m.newData "append" [.operator .append]
  let (null, m) := m.newNull
  m.runHelper insert "map"
    [null, array, f, append, .operator .read, .operator .append, .operator .fold]

/-- One round of a fold or filter: an element, `f` on it, and the helper for the next index. -/
def round (insert : Inserter) (name : String) (helper : Operator) (element array f : Block)
    (next : Float) (m : Machine) : Machine :=
  match m.callOf? f with
  | some call =>
    m.runHelper insert name
      [element, call, m.resolve array, m.resolve f, .ofFloat next, .operator helper]
  | none => m

/-- Runs `f` behind each element of an array, from the first one on. -/
def foldArray (insert : Inserter) (array f : Block) (m : Machine) : Machine :=
  match (m.dataLoc? array).bind fun loc => (m.heap.blocks loc).head? with
  | some first => m.round insert "fold" .foldHelper first array f 2
  | none => m

/-- The element at a place that is counted from 1. -/
def elementAt? (blocks : List Block) (i : Float) : Option Block :=
  if Float.ofNat blocks.length < i || i < 1 then none
  else blocks[Decimal.wholePart i - 1]?

/-- The round of a fold at place `i`. -/
def foldFrom (insert : Inserter) (array f i : Block) (m : Machine) : Machine :=
  let next := do
    let i ← i.float?
    let loc ← m.dataLoc? array
    let element ← elementAt? (m.heap.blocks loc) i
    return (i, element)
  match next with
  | some (i, element) => m.round insert "fold`" .foldHelper element array f (i + 1)
  | none => m

/-- Runs `condition` on a value, and if that gives true, `f` on the value. -/
def maybe (insert : Inserter) (value condition f : Block) (m : Machine) : Machine :=
  match m.callOf? condition, m.callOf? f with
  | some test, some call =>
    let (act, m) := m.newData "do-op" [value, call]
    let (null, m) := m.newNull
    m.runHelper insert "maybe" [value, test, act, null, .operator .branch]
  | _, _ => m

/-- Keeps the elements of an array on which a predicate gives true, from the first one on. An empty
array stays as it is. -/
def filterArray (insert : Inserter) (array f : Block) (m : Machine) : Option Block × Machine :=
  match m.dataLoc? array with
  | some loc =>
    match (m.heap.blocks loc).head? with
    | some first => (none, m.round insert "filter" .filterHelper first array f 2)
    | none => (some (m.resolve array), m)
  | none => (none, m)

/-! ## Versions

Editing a data block never changes its stack: the result is a new stack, named for the old one with
the next version number behind a colon. -/

/-- Splits a name at its last colon that a digit follows, into what stands before it and the digits
behind it. -/
def splitVersion : List Char → Option (List Char × List Char)
  | [] => none
  | c :: rest =>
    match splitVersion rest with
    | some (base, digits) => some (c :: base, digits)
    | none =>
      let digits := rest.takeWhile Decimal.isDigit
      if c = ':' ∧ digits ≠ [] then some ([], digits) else none

/-- The version behind one written in digits; one that does not fit 64 bits is followed by 1. -/
def nextVersion (digits : List Char) : Nat :=
  let n := Decimal.natOfDigits digits
  if 0x10000000000000000 ≤ n then 1 else min (n + 1) 0xffffffffffffffff

/-- The name of the version after the one called `name`. -/
def versionAfter (name : String) : String :=
  match splitVersion name.toList with
  | some (base, digits) => String.ofList base ++ ":" ++ Decimal.natText (nextVersion digits)
  | none => name ++ ":1"

/-- The name that versions of a stack go by: its display name unless that is empty. -/
def versionBase (s : Stack) : String :=
  match s.displayName with
  | some display => if display.isEmpty then s.name else display
  | none => s.name

/-- The name of the next version of a stack. Versions of null are versions of a new anonymous
stack. -/
def nextName (loc : Loc) (m : Machine) : String × Machine :=
  let name := versionBase (m.heap.get loc)
  if name = "null" then
    let (i, m) := m.nextAnonymous
    (versionAfter ("a" ++ Decimal.natText i), m)
  else (versionAfter name, m)

/-- The next version of a stack, with its blocks edited. -/
def newVersion (loc : Loc) (edit : List Block → List Block) (m : Machine) : Block × Machine :=
  let (name, m) := m.nextName loc
  m.newData name (edit (m.heap.blocks loc))

/-! ## Filtering -/

/-- The array without the element before place `i`, which was tested last. -/
def dropBefore (i : Float) (blocks : List Block) : List Block :=
  if 2 ≤ i then blocks.eraseIdx (Decimal.wholePart (i - 2)) else blocks

/-- The round of a filter at place `i`: drops the element that was tested last unless it is to be
kept, and tests the next one. -/
def filterFrom (insert : Inserter) (keep array f i : Block) (m : Machine) :
    Option Block × Machine :=
  match keep.boolean?, m.dataLoc? array, i.float? with
  | some keep, some loc, some i =>
    let (array, i, m) :=
      if keep then (m.resolve array, i, m)
      else
        let (array, m) := m.newVersion loc (dropBefore i)
        (array, i - 1, m)
    match (array.stack?).bind fun loc => elementAt? (m.heap.blocks loc) i with
    | some element => (none, m.round insert "filter`" .filterHelper element array f (i + 1))
    | none => (some array, m)
  | _, _, _ => (none, m)

/-! ## Counted loops -/

/-- Runs `f` so many times. -/
def repeatTimes (insert : Inserter) (f n : Block) (m : Machine) : Machine :=
  match n.float?, m.callOf? f with
  | some n, some call =>
    if n ≤ 0 then m
    else m.runHelper insert "repeat" [call, m.resolve f, .ofFloat (n - 1), .operator .compose]
  | _, _ => m

/-- Pushes each number from `i` to `n` and runs `f` behind it. -/
def iterate (insert : Inserter) (f i n : Block) (m : Machine) : Machine :=
  match i.float?, n.float?, m.callOf? f with
  | some x, some y, some call =>
    if y < x then m
    else m.runHelper insert "iter" [i, call, m.resolve f, .ofFloat (x + 1), n, .operator .iterate]
  | _, _, _ => m

end BlockMachine.Machine
