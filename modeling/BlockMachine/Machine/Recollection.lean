import BlockMachine.Machine.Operands

/-!
# Memory operators

`Get` and `Set` name the variable by a memory reference, the symbol forms carry the name themselves.
-/

namespace BlockMachine.Machine

open Text (slot)

/-- The complaint about a block that memory does not take. -/
def notStorable (l : Localizer) : Block :=
  .error (l.lookup "Errors.setOperatorNotSupported"
    (slot "setOperatorName" ++ " cannot set a state variable to a " ++ slot "dataBlockName"
      ++ " or a " ++ slot "codeBlockName" ++ ".")
    [("setOperatorName", l.word "SetOperator.name" "Set Memory Operator"),
      ("dataBlockName", l.word "DataBlock.name" "Data Block"),
      ("codeBlockName", l.word "CodeBlock.name" "Function")])

/-- Replaces the memory. -/
def withMemory (memory : Memory) (m : Machine) : Machine :=
  { m with world := { m.world with memory } }

/-- Sets or deletes a state variable. The observer hears of a value that is new. -/
def setVariable (id name : String) (value : Option Block) (m : Machine) : Except Error Machine :=
  match m.world.memory.setVariable m.heap id name value with
  | .error e => .error e
  | .ok (memory, changed) =>
    let m := match value with
      | some b => if changed then m.notify (.stored id name b) else m
      | none => m
    .ok (m.withMemory memory)

/-- Stores a block, or complains. -/
def store (l : Localizer) (id name : String) (b : Block) (m : Machine) : Option Block × Machine :=
  match m.setVariable id name (some b) with
  | .ok m => (none, m)
  | .error _ => (some (notStorable l), m)

/-- The value of a state variable. -/
def variableOf (l : Localizer) (id name : String) (m : Machine) : Block :=
  m.world.memory.variableOf l id name

/-- Pushes a variable of the object on top. -/
def getSymbol (env : Environment) (this : Block) (name : String) (m : Machine) : Machine :=
  match m.takeOperands env this "GetSymbolOperator" [.memory] with
  | (some [.memory id], m) => m.push (m.variableOf env.localizer id name)
  | (_, m) => m

/-- Stores the block below the object on top. -/
def setSymbol (env : Environment) (this : Block) (name : String) (m : Machine) : Machine :=
  match m.takeOperands env this "SetSymbolOperator" [.block, .memory] with
  | (some [b, .memory id], m) =>
    match m.store env.localizer id name b with
    | (some complaint, m) => m.push complaint
    | (none, m) => m
  | (_, m) => m

end BlockMachine.Machine
