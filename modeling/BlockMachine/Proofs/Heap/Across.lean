import BlockMachine.Proofs.Heap.Isomorphism
import BlockMachine.Proofs.Machine.References

/-!
# Blocks in two heaps

A text that is read twice gives two blocks, each with stacks of its own. Unless dice are rolled for
it, the two differ in nothing but the places of these stacks, whatever the heaps held before and
whatever is added later.

* `Block.SameAcross` — blocks in two heaps that differ in the places of stacks only;
* `Heap.Relocates.sameAcross` — two images of a block, in heaps that may have grown since;
* `Literal.rolls` — the literals for which dice are rolled;
* `Literal.make_relocates` — any other literal gives the same in heaps that stand side by side;
* `Literal.make_sameAcross` — and in any two heaps.
-/

namespace BlockMachine

/-! ## Images of images -/

theorem Block.relocate_relocate (σ τ : Loc → Loc) (b : Block) :
    (b.relocate σ).relocate τ = b.relocate (τ ∘ σ) := by
  cases b with
  | code name target => exact congrArg (code name) (Option.map_map τ σ target)
  | _ => rfl

theorem Stack.relocate_relocate (σ τ : Loc → Loc) (s : Stack) :
    (s.relocate σ).relocate τ = s.relocate (τ ∘ σ) := by
  simp [Stack.relocate, Block.relocate_relocate]

/-! ## The same block -/

/-- Blocks in two heaps that differ in the places of stacks only: what can be reached from the first
one stands in the second heap, each stack in a place of its own, with the references between them
moved. -/
def Block.SameAcross (h h' : Heap) (b b' : Block) : Prop :=
  ∃ σ : Loc → Loc, b' = b.relocate σ ∧ ∀ t, b.target? = some t →
    Set.InjOn σ (h.reachable t) ∧
      ∀ loc ∈ h.reachable t, h'.get (σ loc) = (h.get loc).relocate σ

/-- A block that refers to no stack is the same everywhere. -/
theorem Block.SameAcross.of_none {b : Block} (hb : b.target? = none) (h h' : Heap) :
    b.SameAcross h h' b := by
  refine ⟨id, by rw [relocate_id]; rfl, fun t ht => ?_⟩
  rw [hb] at ht
  cases ht

namespace Heap

variable {σ σ' : Loc → Loc} {f g g' h h' : Heap}

theorem closed_empty : empty.Closed := by
  intro loc b hb
  rw [blocks, get_of_size_le empty (Nat.zero_le loc)] at hb
  cases hb

namespace Relocates

/-- Any heap stands behind an empty one. -/
theorem behind (h : Heap) : Relocates (· + h.size) empty h where
  injective _ _ heq := Nat.add_right_cancel heq
  get loc := by
    rw [get_of_size_le h (Nat.le_add_left _ _), get_of_size_le empty (Nat.zero_le loc)]
    rfl
  inside hlt := absurd hlt (Nat.not_lt_zero _)
  next k := by
    rw [show empty.size = 0 from rfl, Nat.zero_add, Nat.add_comm]

/-- What can be reached from the image of a stack is an image, also when the heap has grown. -/
theorem exists_of_reachable (hσ : Relocates σ f g) (hgrows : g.Grows h) (hf : f.Closed) {t s : Loc}
    (ht : t < f.size) (hs : s ∈ h.reachable (σ t)) : ∃ x, x < f.size ∧ s = σ x := by
  induction hs with
  | refl => exact ⟨t, ht, rfl⟩
  | tail _ hrefers ih =>
    -- the stack is unchanged since, and its blocks are images of blocks
    obtain ⟨x, hx, rfl⟩ := ih
    obtain ⟨b, hb, htarget⟩ := hrefers
    rw [Heap.blocks, hgrows.get (hσ.inside hx), hσ.get] at hb
    obtain ⟨c, hc, rfl⟩ := List.mem_map.1 hb
    rw [Block.target?_relocate, Option.map_eq_some_iff] at htarget
    obtain ⟨y, hy, rfl⟩ := htarget
    exact ⟨y, hf x c hc y hy, rfl⟩

/-- **Two images of a block are the same**, also in heaps that have grown since. -/
theorem sameAcross (hσ : Relocates σ f g) (hσ' : Relocates σ' f g') (hgrows : g.Grows h)
    (hgrows' : g'.Grows h') (hf : f.Closed) {c : Block} (hc : c.Inside f.size) :
    (c.relocate σ).SameAcross h h' (c.relocate σ') := by
  -- from the first image back, and on to the second one
  let τ : Loc → Loc := Function.extend σ σ' id
  have hτ : ∀ x, τ (σ x) = σ' x := fun x => hσ.injective.extend_apply σ' id x
  have hcomp : τ ∘ σ = σ' := funext hτ
  refine ⟨τ, by rw [Block.relocate_relocate, hcomp], fun t ht => ?_⟩
  rw [Block.target?_relocate, Option.map_eq_some_iff] at ht
  obtain ⟨x₀, hx₀, rfl⟩ := ht
  have himage : ∀ s ∈ h.reachable (σ x₀), ∃ x, x < f.size ∧ s = σ x :=
    fun s hs => hσ.exists_of_reachable hgrows hf (hc x₀ hx₀) hs
  refine ⟨?_, ?_⟩
  · intro s hs s' hs' heq
    obtain ⟨x, -, rfl⟩ := himage s hs
    obtain ⟨y, -, rfl⟩ := himage s' hs'
    rw [hτ, hτ] at heq
    rw [hσ'.injective heq]
  · intro s hs
    obtain ⟨x, hx, rfl⟩ := himage s hs
    rw [hτ, hgrows'.get (hσ'.inside hx), hgrows.get (hσ.inside hx), hσ.get, hσ'.get,
      Stack.relocate_relocate, hcomp]

end Relocates

end Heap

/-! ## What is read twice -/

namespace Literal

/-- Whether dice are rolled for the block of a literal. -/
def rolls : Literal → Bool
  | .randomInt _ | .randomReal _ | .randomBool => true
  | .package inner => inner.rolls
  | _ => false

variable {l : Localizer} {σ : Loc → Loc}

/-- In heaps that stand side by side, a literal without dice gives a block and its image. -/
theorem make_relocates (x : Literal) (hx : x.rolls = false) (st st' : Store)
    (hσ : Heap.Relocates σ st.heap st'.heap) :
    (x.make l st').1 = (x.make l st).1.relocate σ ∧
      Heap.Relocates σ (x.make l st).2.heap (x.make l st').2.heap := by
  induction x with
  | randomInt | randomReal | randomBool => cases hx
  | null =>
    obtain ⟨hloc, hlater⟩ := hσ.alloc (Stack.make "null" [])
    exact ⟨congrArg Block.null hloc, hlater⟩
  | data name =>
    obtain ⟨hloc, hlater⟩ := hσ.alloc (Stack.make (if name.isEmpty then "a1" else name) [])
    exact ⟨congrArg (Block.data · false) hloc, hlater⟩
  | package inner ih =>
    obtain ⟨hblock, hinner⟩ := ih hx
    obtain ⟨hloc, hlater⟩ := hinner.alloc
      (Stack.make ((inner.make l st).2.heap.shown l (inner.make l st).1) [(inner.make l st).1])
    -- the package is named for what it shows, which is the same in both heaps
    have hstack : (Stack.make ((inner.make l st).2.heap.shown l (inner.make l st).1)
        [(inner.make l st).1]).relocate σ =
          Stack.make ((inner.make l st').2.heap.shown l (inner.make l st').1)
            [(inner.make l st').1] := by
      rw [Stack.relocate_make, List.map_singleton, hblock, hinner.shown]
    rw [hstack] at hloc hlater
    exact ⟨congrArg Block.package hloc, hlater⟩
  | _ => exact ⟨rfl, hσ⟩

/-- **A literal without dice gives the same in any two heaps**, also when they have grown since. -/
theorem make_sameAcross (x : Literal) (hx : x.rolls = false) (st st' : Store) {h h' : Heap}
    (hgrows : (x.make l st).2.heap.Grows h) (hgrows' : (x.make l st').2.heap.Grows h') :
    (x.make l st).1.SameAcross h h' (x.make l st').1 := by
  -- both are images of what is made in an empty heap
  have hstart : (Store.mk Heap.empty st.dice).heap.Closed := Heap.closed_empty
  obtain ⟨hclosed, hinside⟩ := make_closed (l := l) x hstart
  obtain ⟨hblock, hσ⟩ := make_relocates (l := l) x hx ⟨Heap.empty, st.dice⟩ st
    (Heap.Relocates.behind st.heap)
  obtain ⟨hblock', hσ'⟩ := make_relocates (l := l) x hx ⟨Heap.empty, st.dice⟩ st'
    (Heap.Relocates.behind st'.heap)
  rw [hblock, hblock']
  exact hσ.sameAcross hσ' hgrows hgrows' hclosed hinside

end Literal

end BlockMachine
