import BlockMachine.Machine

/-!
# Taking operands

An operator takes all its operands from the value stack, whether they fit or not. If they do not,
an error is pushed in their place.
-/

namespace BlockMachine

/-- Whether operands, bottom first, are in the categories of tags. -/
def fits (tags : List Tag) (operands : List Block) : Bool :=
  tags.length == operands.length && (tags.zip operands).all fun (t, b) => b.isA t

namespace Machine

/-- Pops up to `n` operands of `this`; they are listed bottom first. -/
def popOperands (this : Block) : Nat → Machine → List Block × Machine
  | 0, m => ([], m)
  | n + 1, m =>
    match m.pop (some this) with
    | (some b, m) =>
      let (bs, m) := popOperands this n m
      (bs ++ [b], m)
    | (none, m) => ([], m)

/-- Takes the operands of `this`, or pushes the complaint of the operator called `name`. -/
def takeOperands (env : Environment) (this : Block) (name : String) (tags : List Tag)
    (m : Machine) : Option (List Block) × Machine :=
  let (operands, m) := m.popOperands this tags.length
  if fits tags operands then (some operands, m)
  else (none, m.push (.error (operandComplaint env.localizer name tags)))

/-- Takes the operands of an operator with several lists of tags, and tells which list fits. -/
def takeOverloaded (env : Environment) (this : Block) (name : String)
    (combinations : List (List Tag)) (m : Machine) : Option (List Block × Nat) × Machine :=
  let arity := (combinations.head?.map List.length).getD 0
  let (operands, m) := m.popOperands this arity
  match combinations.findIdx? fun tags => fits tags operands with
  | some i => (some (operands, i), m)
  | none => (none, m.push (.error (overloadedComplaint env.localizer name combinations)))

end Machine

end BlockMachine
