import BlockMachine.Machine.Calculus
import BlockMachine.Machine.Call
import BlockMachine.Machine.Data
import BlockMachine.Machine.Recollection
import BlockMachine.Operator.Arithmetic

/-!
# Steps

One step of a machine evaluates one block of the active frame. Operators and calls that need a whole
program run get it done by a `Discipline`, within the step.

* `Machine.operate` — an operator on its operands;
* `Machine.evaluate` — a block;
* `Machine.step` — a step, and whether the main program is done.
-/

namespace BlockMachine

/-- Whether the main program has more to do. -/
inductive Progress where
  | pending
  | finished
deriving Repr, DecidableEq

namespace Machine

open Text (slot)

/-! ## Operators -/

/-- The greatest number that a random operator gives. It is shown in full. -/
def greatestRoll : Block :=
  .number (Fraction.ofFloat (1.0 - Calculus.twoTo (-52))) false

/-- The number of a random operator. -/
def roll (m : Machine) : Block × Machine :=
  match m.nextRandMode with
  | (.max, m) => (greatestRoll, m)
  | (.min, m) => (.ofFloat 0, m)
  | (.random, m) =>
    let (x, dice) := m.world.store.dice.unit
    (.ofFloat x, m.withStore { m.world.store with dice })

/-- An operator on operands that fit it, bottom first; `overload` is the place of the tags that they
fit. Gives the block to push, if any. -/
def operate (d : Discipline) (env : Environment) (this : Block) (op : Operator) (overload : Nat)
    (operands : List Block) (m : Machine) : Option Block × Machine :=
  match op, operands with
  | .random, _ =>
    let (b, m) := m.roll
    (some b, m)
  | .execute, [f] => (none, m.execute d.insert f)
  | .branch, [condition, yes, no] =>
    match condition.boolean? with
    | some c => (none, m.execute d.insert (if c then yes else no))
    | none => (none, m)
  | .map, [array, f] => (none, m.mapArray d.insert array f)
  | .fold, [array, f] => (none, m.foldArray d.insert array f)
  | .foldHelper, [array, f, i] => (none, m.foldFrom d.insert array f i)
  | .maybe, [value, condition, f] => (none, m.maybe d.insert value condition f)
  | .filter, [array, f] => m.filterArray d.insert array f
  | .filterHelper, [keep, array, f, i] => m.filterFrom d.insert keep array f i
  | .compose, [f, n] => (none, m.repeatTimes d.insert f n)
  | .iterate, [f, i, n] => (none, m.iterate d.insert f i n)
  | .count, [array] => (m.count array, m)
  | .read, [array] => (none, m.readAll array)
  | .elem, [array, key] =>
    if overload = 0 then (m.elementByIndex env.localizer array key, m)
    else (m.elementByKey env.localizer array key, m)
  | .insert, [array, value, key] =>
    if overload = 0 then m.insertAt env.localizer array value key else m.setMember array value key
  | .append, [array, value] => m.appendTo array value
  | .replace, [array, value, key] =>
    if overload = 0 then m.replaceAt env.localizer array value key else m.setMember array value key
  | .delete, [array, key] =>
    if overload = 0 then m.deleteAt env.localizer array key
    else m.deleteMember env.localizer array key
  | .write, _ => m.write env.localizer this
  | .integral, [f, a, b] => m.integral d.run env f a b
  | .derivative, [f, t] => m.derivative d.run env f t
  | .sum, [f, a, b] => sum d.run env f a b m
  | .product, [f, a, b] => product d.run env f a b m
  | .positiveLimit, [f, x] => m.sideLimit d.run env .right f x
  | .negativeLimit, [f, x] => m.sideLimit d.run env .left f x
  | .limit, [f, x] => m.bothLimits d.run env f x
  | .getMemory, [.memory id, .memoryReference name] =>
    (some (m.variableOf env.localizer id name), m)
  | .setMemory, [.memory id, value, .memoryReference name] => m.store env.localizer id name value
  | op, operands => (op.calculate env.localizer m.heap operands, m)

/-- The operands of an operator and the place of the tags that they fit; if none fit, a complaint is
pushed. -/
def takeFor (env : Environment) (this : Block) (op : Operator) (m : Machine) :
    Option (List Block × Nat) × Machine :=
  match op.info.signature with
  | .fixed tags =>
    let (operands, m) := m.takeOperands env this op.name tags
    (operands.map fun bs => (bs, 0), m)
  | .overloaded combinations => m.takeOverloaded env this op.name combinations
  | .custom => (some ([], 0), m)

/-- Evaluates an operator. -/
def evaluateOperator (d : Discipline) (env : Environment) (this : Block) (op : Operator)
    (m : Machine) : Machine :=
  match m.takeFor env this op with
  | (none, m) => m
  | (some (operands, overload), m) =>
    match m.operate d env this op overload operands with
    | (some b, m) => m.push b
    | (none, m) => m

/-! ## Blocks -/

/-- The error for a name that is not bound. -/
def unassigned (env : Environment) (this : Block) (m : Machine) : Block :=
  .error (env.localizer.lookup "Errors.unassignedVariable"
    ("Variable " ++ slot "varName" ++ " must be assigned before it is used.")
    [("varName", m.heap.shown env.localizer this)])

/-- Takes the top block and pushes it so many times. -/
def respread (this : Block) (copies : Nat) (whenEmpty : String) (m : Machine) : Machine :=
  match m.pop (some this) with
  | (some b, m) => m.pushAll (List.replicate copies b)
  | (none, m) => m.push (.error whenEmpty)

/-- Evaluates a block. -/
def evaluate (d : Discipline) (env : Environment) (this : Block) (m : Machine) : Machine :=
  match this with
  | .operator op => m.evaluateOperator d env this op
  | .assign name =>
    match m.pop (some this) with
    | (some b, m) => m.assign name b false
    | (none, m) => m.push (.error (operandComplaint env.localizer "LetBlock" [.block]))
  | .fetch name => m.push ((m.fetch name).getD (m.unassigned env this))
  | .data .. => m.push (m.resolve this)
  | .code name target => m.call d env name target
  | .getSymbol name => m.getSymbol env this name
  | .setSymbol name => m.setSymbol env this name
  | .extension ext =>
    match ext.behaviour with
    | .pushSelf => m.push this
    | .respread copies whenEmpty => m.respread this copies whenEmpty
  | b => m.push b

/-! ## Steps -/

/-- Lets the modules look at the value stack when the active frame has finished. -/
def afterFrame (env : Environment) (m : Machine) : Machine :=
  { m with
    values := env.grammar.modules.foldl
      (fun values e => e.afterFrame m.active.name values) m.values }

/-- The error for a place in a program where a child frame was to run that is not there. -/
def missingChild (l : Localizer) : Block :=
  .error (l.word "Errors.nullInProgram" "Null block in program.")

/-- Evaluates the next block of the active frame. The frame is finished once nothing is left of its
program and the block opened no child. -/
def stepFrame (d : Discipline) (env : Environment) (m : Machine) : Progress × Machine :=
  match m.active.program with
  | [] => (.finished, m)
  | next :: rest =>
    let depth := m.outer.length
    let m := { m with active := { m.active with program := rest } }
    let m : Machine := match next with
      | .block b => (m.evaluate d env b).notify (.evaluated b)
      | .child => m.push (missingChild env.localizer)
    if m.outer.length = depth ∧ m.active.isFinished then (.finished, m.afterFrame env)
    else (.pending, m)

/-- Goes back from the active frame, which has finished, to the frame around it. -/
def closeFrame (m : Machine) : Machine :=
  match m.outer with
  | [] => m
  | parent :: outer =>
    let closed := m.active
    let m := { m with active := { parent with program := parent.program.tail }, outer := outer }
    m.notify (.closed closed)

/-- One step. -/
def step (d : Discipline) (env : Environment) (m : Machine) : Progress × Machine :=
  if m.mainFrame.isFinished then (.finished, m)
  else if m.outer.isEmpty then m.stepFrame d env
  else
    match m.stepFrame d env with
    | (.finished, m) => (.pending, m.closeFrame)
    | (.pending, m) => (.pending, m)

end Machine

end BlockMachine
