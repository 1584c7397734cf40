import BlockMachine.Machine.Operands

/-!
# Calls

A call runs the stack of a name. If that stack is marked, the call is isolated: it runs to its end
on a nested machine within one step of the caller, whose observer sees none of its inside. What
comes back is the net effect on the value stack, the variables that it assigned, and the world.

* `callIsolated` — an isolated call;
* `call` — any call.
-/

namespace BlockMachine.Machine

open Text (slot)

/-- The error for a name that no stack has. -/
def undefinedFunction (l : Localizer) (name : String) : Block :=
  .error (l.lookup "Errors.undefinedFunction" ("Function " ++ slot "name" ++ " is not defined.")
    [("name", name)])

/-- Marks the stack at a location for isolated calls, or takes the mark away. -/
def obfuscate (loc : Loc) (mark : Bool) (m : Machine) : Machine :=
  m.modifyStack loc fun s => { s with obfuscated := mark }

/-- The nested machine of an isolated call: it starts from the caller's value stack and from the
variables of the caller's active frame, and may take the steps that are left to the caller. -/
def isolated (env : Environment) (s : Stack) (m : Machine) : Machine :=
  let depth := m.values.length
  let sub := { m.nested m.remainingBudget with values := m.values }
  let sub := sub.assignEach true m.active.bindings
  insert env s { sub with view := .isolated m.view m.active.parameters depth depth }

/-- Takes over what an isolated call left: if it finished, its blocks stand in place of those that
it popped; else they all come on top. -/
def adopt (m : Machine) (result : List Block) (sub : Machine) : Machine :=
  if sub.mainFrame.isFinished then
    let kept := min sub.view.untouched m.values.length
    (m.drop (m.values.length - kept)).pushAll (result.drop kept)
  else m.pushAll result

/-- Calls a stack in isolation. While the call runs, its stack is not marked, so calls of it from
within run inline. -/
def callIsolated (run : Runner) (env : Environment) (loc : Loc) (m : Machine) : Machine :=
  let m := m.obfuscate loc false
  let sub := m.isolated env (m.heap.get loc)
  let m := m.withoutWorld
  let (result, sub) := run sub
  let m := { m with world := sub.world }
  let m := (m.assignEach false sub.mainFrame.bindings).adopt result sub
  m.obfuscate loc true

/-- Calls the stack of a name. -/
def call (d : Discipline) (env : Environment) (name : String) (target : Option Loc) (m : Machine) :
    Machine :=
  match m.resolve (.code name target) with
  | .code _ (some loc) =>
    let s := m.heap.get loc
    if s.obfuscated then m.callIsolated d.run env loc else d.insert s m
  | _ => m.push (undefinedFunction env.localizer name)

end BlockMachine.Machine
