import BlockMachine.Machine.View
import BlockMachine.Memory
import BlockMachine.Operator.Complaint
import BlockMachine.Workspace

/-!
# Machines

A machine has one value stack and a chain of frames, of which the innermost is active. Running a
stack from a frame that has work left opens a child frame; from a frame with nothing left the stack
is spliced into that frame, so calls in tail position do not deepen the chain.

* `World` — what a machine shares with the machines nested in it: heap, dice, memory, event log;
* `Machine` — a machine;
* `Machine.push`, `Machine.pop` — the value stack;
* `Machine.insert` — running a stack from the active frame;
* `Machine.assign`, `Machine.fetch` — variables;
* `Machine.nested` — a machine over the same workspace and world;
* `Discipline` — how stacks and nested machines are run within a step.
-/

namespace BlockMachine

open Text (slot)

/-- What nested machines share. -/
structure World where
  store : Store
  memory : Memory
  /-- What a recorder has heard, the latest first. -/
  log : List Event

namespace World

/-- An empty heap and memory, and dice from a seed. -/
def ofSeed (seed : UInt64) : World :=
  ⟨Store.ofSeed seed, [], []⟩

end World

/-- A machine. -/
structure Machine where
  /-- The value stack, top first. -/
  values : List Block
  maxSteps : Nat
  /-- How many anonymous stacks were named. -/
  anonymous : Nat
  randModes : List RandMode
  /-- How many of the modes were used. -/
  randIndex : Nat
  workspace : Workspace
  active : Frame
  /-- The frames around the active one, innermost first. -/
  outer : List Frame
  view : View
  /-- The number of the step under way. -/
  steps : Nat
  /-- The step limit of the evaluation under way. -/
  budget : Option Nat
  world : World

/-- Runs a machine to its end or to its step limit. -/
abbrev Runner := Machine → List Block × Machine

/-- Runs a stack from the active frame of a machine. -/
abbrev Inserter := Stack → Machine → Machine

/-- How a machine runs what a step asks for: `insert` starts a stack from the active frame, `run`
takes a nested machine to its end. -/
structure Discipline where
  insert : Inserter
  run : Runner

namespace Machine

/-- The default step limit. -/
def defaultMaxSteps : Nat := 10000

/-- A machine without a program. -/
def make (maxSteps : Nat) (workspace : Workspace) (world : World) : Machine where
  values := []
  maxSteps := maxSteps
  anonymous := 0
  randModes := []
  randIndex := 0
  workspace := workspace
  active := Frame.empty
  outer := []
  view := .none
  steps := 0
  budget := none
  world := world

/-- The machine without its world, which is handed to a nested machine meanwhile. -/
def withoutWorld (m : Machine) : Machine :=
  { m with world := World.ofSeed 0 }

/-- The heap. -/
def heap (m : Machine) : Heap :=
  m.world.store.heap

/-- The frames, innermost first. -/
def frames (m : Machine) : List Frame :=
  m.active :: m.outer

/-- The main program's frame. -/
def mainFrame (m : Machine) : Frame :=
  m.outer.getLast?.getD m.active

/-- Clears the value stack and the program. Memory and the observer stay. -/
def reset (m : Machine) : Machine :=
  { m with
    values := []
    anonymous := 0
    randIndex := 0
    active := Frame.empty
    outer := []
    steps := 0
    budget := none }

/-- The step limit that counts now. -/
def limit (m : Machine) : Nat :=
  m.budget.getD m.maxSteps

/-- The step limit for a sample of a function. -/
def nestedBudget (m : Machine) : Nat :=
  m.limit / 2 - m.steps

/-- The steps that are left to the evaluation under way. -/
def remainingBudget (m : Machine) : Nat :=
  m.limit - m.steps

/-! ## Events -/

/-- Lets the observer hear of an event. -/
def notify (e : Event) (m : Machine) : Machine :=
  match m.view.report e with
  | some e => { m with world := { m.world with log := e :: m.world.log } }
  | none => m

/-! ## The value stack -/

/-- Pushes a block. -/
def push (b : Block) (m : Machine) : Machine :=
  let m := m.notify (.pushed b)
  { m with values := b :: m.values, view := m.view.pushed }

/-- Pushes blocks, the last one on top. -/
def pushAll (bs : List Block) (m : Machine) : Machine :=
  bs.foldl (fun m b => m.push b) m

/-- Pops the top block; `consumer` is the block that takes it as an operand. -/
def pop (consumer : Option Block) (m : Machine) : Option Block × Machine :=
  match m.values with
  | [] => (none, m)
  | b :: rest =>
    let m := m.notify (.popped b)
    let m := match consumer with
      | some c => m.notify (.consumed b c)
      | none => m
    (some b, { m with values := rest, view := m.view.popped })

/-- The top block if it is in the category of a tag. -/
def peek (t : Tag) (m : Machine) : Option Block :=
  m.values.head?.filter fun b => b.isA t

/-- Pops `n` blocks. -/
def drop : Nat → Machine → Machine
  | 0, m => m
  | n + 1, m => drop n (m.pop none).2

/-! ## The heap -/

/-- Replaces heap and dice. -/
def withStore (store : Store) (m : Machine) : Machine :=
  { m with world := { m.world with store } }

/-- Adds a stack to the heap. -/
def alloc (s : Stack) (m : Machine) : Loc × Machine :=
  let (loc, store) := m.world.store.alloc s
  (loc, m.withStore store)

/-- A new data block. -/
def newData (name : String) (blocks : List Block) (m : Machine) : Block × Machine :=
  let (loc, m) := m.alloc (Stack.make name blocks)
  (.ofStack loc, m)

/-- A new null block. -/
def newNull (m : Machine) : Block × Machine :=
  let (loc, m) := m.alloc (Stack.make "null" [])
  (.null loc, m)

/-- Changes the stack at a location. -/
def modifyStack (loc : Loc) (f : Stack → Stack) (m : Machine) : Machine :=
  m.withStore { m.world.store with heap := m.heap.modify loc f }

/-- The block bound to the workspace. -/
def resolve (m : Machine) (b : Block) : Block :=
  m.workspace.resolve m.heap b

/-- The number of the next anonymous stack. -/
def nextAnonymous (m : Machine) : Nat × Machine :=
  (m.anonymous + 1, { m with anonymous := m.anonymous + 1 })

/-- The mode of the next random operator. -/
def nextRandMode (m : Machine) : RandMode × Machine :=
  match m.randModes[m.randIndex]? with
  | some mode => (mode, { m with randIndex := m.randIndex + 1 })
  | none => (.random, m)

/-! ## Running stacks -/

/-- What a function says that finds too few blocks for its parameters. -/
def missingInputs (l : Localizer) (count : Nat) : Block :=
  let blocks := l.lookup "Errors.blocksAsInput" (slot "count" ++ " block as input")
    [("count", Decimal.natText count)]
  .error (l.lookup "Errors.functionRequiresInputs"
    ("That Function requires " ++ slot "blocksAsInput" ++ ".") [("blocksAsInput", blocks)])

/-- Pops a block for each name, the last name first, and binds the names in that order. -/
def popInputs : List String → Machine → List (String × Block) × Machine
  | [], m => ([], m)
  | name :: names, m =>
    match m.pop none with
    | (some b, m) =>
      let (bound, m) := popInputs names m
      ((name, b) :: bound, m)
    | (none, m) => popInputs names m

/-- Loads a stack into the active frame, which has nothing left to run. Its parameters are taken
from the value stack; if that holds too few blocks, nothing is taken and an error is pushed. -/
def load (env : Environment) (s : Stack) (m : Machine) : Machine :=
  if m.values.length < s.inputs.length then
    m.push (missingInputs env.localizer s.inputs.length)
  else
    let (bound, m) := popInputs s.inputs.reverse m
    let m :=
      if s.blocks.isEmpty then m
      else
        let frame := { m.active with program := s.blocks.map .block, name := s.name }
        { m with active := bound.foldl (fun f (name, b) => f.bind name true b) frame }
    m.notify (.spliced m.active)

/-- Runs a stack from the active frame: in that frame if it has nothing left to run, else in a new
child of it. -/
def insert (env : Environment) (s : Stack) (m : Machine) : Machine :=
  if m.active.isFinished then m.load env s
  else
    let parent := { m.active with program := .child :: m.active.program }
    let m := load env s { m with active := Frame.empty, outer := parent :: m.outer }
    m.notify (.opened m.active)

/-! ## Variables -/

/-- The innermost binding of a name. -/
def fetch (m : Machine) (name : String) : Option Block :=
  Frame.fetch m.frames name

/-- Binds a name in the active frame and in the frames around it, up to the first in which it is a
parameter. -/
def assign (name : String) (b : Block) (parameter : Bool) (m : Machine) : Machine :=
  let (frames, news) := Frame.assignAll (fun old => !m.heap.equals b old) name b parameter m.frames
  let m := match frames with
    | active :: outer => { m with active, outer }
    | [] => m
  news.foldl (fun m parameter => m.notify (.assigned name b parameter)) m

/-- Assigns variables in order, parameters only if `withParameters`. -/
def assignEach (withParameters : Bool) (bindings : Keyed Binding) (m : Machine) : Machine :=
  bindings.foldl
    (fun m (name, v) => if withParameters || !v.parameter then m.assign name v.block false else m) m

/-! ## Nested machines -/

/-- A machine without a program, over the same workspace and with the given step limit. It takes
over the world. -/
def nested (m : Machine) (maxSteps : Nat) : Machine :=
  make maxSteps m.workspace m.world

/-! ## Text -/

/-- The value stack, bottom first. -/
def result (m : Machine) : List Block :=
  m.values.reverse

/-- The shown value stack and what is left of the main program. -/
def describe (env : Environment) (m : Machine) : String :=
  "\x7b " ++ m.heap.shownList env.localizer m.result ++ "\x7d "
    ++ m.heap.shownFrame env.localizer m.mainFrame

end Machine

end BlockMachine
