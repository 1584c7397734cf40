import BlockMachine.Machine.Evaluation

/-!
# Using a machine

What a host does with a machine: load a program and its inputs, run a stack or a line of blocks, and
manage the object memory. What can be refused gives a machine only if it succeeds; done to a machine
in place it comes to the same, and a refusal leaves that machine as it was (`Attempt.load_answer`,
`Attempt.loadInputs_answer`, `failed_request_keeps_iff`).

* `Machine.loadProgram`, `Machine.runStack` — loading and running a stack of the workspace;
* `Machine.loadInputs`, `Machine.setValues` — what the value stack starts from;
* `Machine.interpret` — one line of a dialogue;
* `Machine.loadMemory`, `Machine.reloadMemory`, `Machine.clearMemory` — memory.
-/

namespace BlockMachine.Machine

/-! ## Programs -/

/-- Resets the machine and loads a stack of the workspace as the main program, by an `Inserter`. -/
def loadProgramBy (insert : Inserter) (name : String) (m : Machine) : Except Error Machine :=
  match m.workspace.find? m.heap name with
  | some loc =>
    let s := m.heap.get loc
    .ok (insert s m.reset)
  | none => .error (.unknownStack name)

/-- Resets the machine and loads a stack of the workspace as the main program. -/
def loadProgram (env : Environment) (name : String) (m : Machine) : Except Error Machine :=
  m.loadProgramBy (insert env) name

/-- Runs a stack of the workspace on the machine, reset. -/
def runStack (env : Environment) (name : String) (m : Machine) :
    Except Error (List Block × Machine) := do
  let m ← m.loadProgram env name
  return run env m

/-- Replaces the value stack by blocks, bottom first. -/
def setValues (bs : List Block) (m : Machine) : Machine :=
  { m with values := bs.reverse }

/-- Reads a list of blocks against the workspace. -/
def parseBlocks (env : Environment) (text : String) (m : Machine) :
    Except Error (List Block × Machine) := do
  let (blocks, store) ←
    Workspace.parseBlocks env.grammar env.localizer m.workspace text m.world.store
  return (blocks, m.withStore store)

/-- Runs a line of blocks on the values that are there. The caller decides whether the result
becomes the value stack. -/
def interpret (env : Environment) (line : String) (m : Machine) :
    Except Error (List Block × Machine) := do
  let (blocks, m) ← m.parseBlocks env line
  let fresh := { m.reset with values := m.values }
  return run env (fresh.insert env (Stack.make "repl" blocks))

/-! ## Inputs -/

/-- The blocks of columns. -/
def makeColumns (l : Localizer) : List Column → Store → List (List Block) × Store
  | [], st => ([], st)
  | c :: cs, st =>
    let (blocks, st) := Literal.makeAll l c.body st
    let (rest, st) := makeColumns l cs st
    (blocks :: rest, st)

/-- Replaces the value stack by resolved blocks, bottom first. -/
def loadValues (bs : List Block) (m : Machine) : Machine :=
  m.setValues (bs.map m.resolve)

/-- Replaces the value stack by one block of each column of an input definition. The place is rolled
among those of the first column; columns that are too short for it give nothing. -/
def loadInputs (env : Environment) (text : String) (m : Machine) : Except Error Machine :=
  match env.grammar.columns? text with
  | some columns =>
    let (columns, store) := makeColumns env.localizer columns m.world.store
    let alternatives := (columns.head?.map List.length).getD 0
    let (place, dice) := store.dice.int 0 (Float.ofNat alternatives)
    let m := m.withStore { store with dice }
    .ok (m.loadValues (columns.filterMap fun column => column[Decimal.wholePart place]?))
  | none => .error .inputText

/-! ## Memory -/

/-- Replaces the memory by what a saved form says. -/
def loadMemory (env : Environment) (text : String) (m : Machine) : Machine :=
  let (memory, store) := Memory.read env text m.world.store
  (m.withStore store).withMemory memory

/-- Sets all variables to their defaults. -/
def reloadMemory (env : Environment) (m : Machine) : Machine :=
  let (memory, store) := Memory.reload env m.world.memory m.world.store
  (m.withStore store).withMemory memory

/-- Forgets all objects. -/
def clearMemory (m : Machine) : Machine :=
  m.withMemory []

end BlockMachine.Machine
