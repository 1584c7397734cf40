import BlockMachine.Machine.View
import BlockMachine.Memory
import BlockMachine.Operator.Arithmetic
import BlockMachine.Proofs.Heap.Update
import BlockMachine.Proofs.Heap.Walk
import Mathlib.Data.Finset.Card
import Mathlib.Data.Finset.Range
import Mathlib.Logic.Function.Basic

/-!
# Stacks in other places

Blocks know stacks by location, and the location of a stack is settled by how many stacks were there
before it. Nothing that a program can see depends on it: if the stacks of one heap stand in other
places of a second heap, with the references between them moved along, then blocks of the first are
equal, resolved and shown in the same way as their images are in the second.

* `Block.relocate σ` and so on — the image of a block, stack, frame, memory or workspace when each
  stack moves from `loc` to `σ loc`;
* `Heap.Relocates σ h h'` — the stacks of `h` stand in `h'`, moved by `σ`; what is allocated next in
  both keeps it so (`Relocates.alloc`), and so does a change of one stack (`Relocates.modify`);
* `Relocates.equals`, `Relocates.resolve`, `Relocates.shown` — the three views of a block;
* `Relocates.calculate`, `Frame.assignAll_relocate`, `Relocates.setVariable` — arithmetic, variables
  and memory.

The walks behind equality and shown text carry a bound from the size of the heap. A walk enters each
stack once, so all bounds above the number of stacks that are left (`Heap.unmet`) give one answer.
-/

namespace BlockMachine

/-! ## Maps -/

namespace Keyed

variable {α β : Type}

/-- The values of a map, changed one by one. -/
def mapValues (f : α → β) (m : Keyed α) : Keyed β :=
  m.map fun p => (p.1, f p.2)

@[simp] theorem mapValues_id (m : Keyed α) : mapValues id m = m := by
  simp [mapValues]

theorem find?_mapValues (f : α → β) (m : Keyed α) (key : String) :
    find? (mapValues f m) key = (find? m key).map f := by
  induction m with
  | nil => rfl
  | cons p rest ih =>
    obtain ⟨k, v⟩ := p
    simp only [mapValues, find?, List.map_cons, List.lookup_cons] at ih ⊢
    cases key == k with
    | true => rfl
    | false => exact ih

theorem mapValues_insert (f : α → β) (m : Keyed α) (key : String) (value : α) :
    mapValues f (insert key value m) = insert key (f value) (mapValues f m) := by
  induction m with
  | nil => rfl
  | cons p rest ih =>
    simp only [mapValues, List.map_cons, insert] at ih ⊢
    split
    · rfl
    · split
      · rfl
      · rw [List.map_cons, ih]

end Keyed

/-! ## Images -/

/-- The block with its references moved. -/
def Block.relocate (σ : Loc → Loc) : Block → Block
  | .null loc => .null (σ loc)
  | .data loc resolved => .data (σ loc) resolved
  | .package loc => .package (σ loc)
  | .code name target => .code name (target.map σ)
  | b => b

/-- The stack with the references of its blocks moved. -/
def Stack.relocate (σ : Loc → Loc) (s : Stack) : Stack :=
  { s with blocks := s.blocks.map (Block.relocate σ) }

/-- The binding with the references of its block moved. -/
def Binding.relocate (σ : Loc → Loc) (v : Binding) : Binding :=
  { v with block := v.block.relocate σ }

/-- The part of a program with its references moved. -/
def Pending.relocate (σ : Loc → Loc) : Pending → Pending
  | .block b => .block (b.relocate σ)
  | .child => .child

/-- The frame with its references moved. -/
def Frame.relocate (σ : Loc → Loc) (f : Frame) : Frame where
  program := f.program.map (Pending.relocate σ)
  bindings := Keyed.mapValues (Binding.relocate σ) f.bindings
  name := f.name

/-- The event with its references moved. -/
def Event.relocate (σ : Loc → Loc) : Event → Event
  | .evaluated b => .evaluated (b.relocate σ)
  | .pushed b => .pushed (b.relocate σ)
  | .popped b => .popped (b.relocate σ)
  | .opened f => .opened (f.relocate σ)
  | .spliced f => .spliced (f.relocate σ)
  | .closed f => .closed (f.relocate σ)
  | .assigned name b parameter => .assigned name (b.relocate σ) parameter
  | .stored object name b => .stored object name (b.relocate σ)
  | .consumed b consumer => .consumed (b.relocate σ) (consumer.relocate σ)

/-- The object with the references of its variables moved. -/
def ObjectState.relocate (σ : Loc → Loc) (o : ObjectState) : ObjectState :=
  { o with values := Keyed.mapValues (Block.relocate σ) o.values }

/-- The memory with its references moved. -/
def Memory.relocate (σ : Loc → Loc) (mem : Memory) : Memory :=
  Keyed.mapValues (ObjectState.relocate σ) mem

/-- The workspace with its stacks moved. -/
def Workspace.relocate (σ : Loc → Loc) (ws : Workspace) : Workspace :=
  { ws with locs := ws.locs.map σ }

/-! ## What does not move -/

namespace Block

variable (σ : Loc → Loc) (b : Block)

@[simp] theorem relocate_id : relocate id = id := by
  funext b
  cases b <;> simp [relocate]

@[simp] theorem relocate_memory (id : String) : (memory id).relocate σ = memory id := rfl

@[simp] theorem kind_relocate : (b.relocate σ).kind = b.kind := by
  cases b <;> rfl

@[simp] theorem isA_relocate (t : Tag) : (b.relocate σ).isA t = b.isA t := by
  rw [isA, isA, kind_relocate]

@[simp] theorem isError_relocate : (b.relocate σ).isError = b.isError := by
  cases b <;> rfl

@[simp] theorem isStorable_relocate : (b.relocate σ).isStorable = b.isStorable := by
  cases b <;> rfl

@[simp] theorem stack?_relocate : (b.relocate σ).stack? = b.stack?.map σ := by
  cases b <;> rfl

@[simp] theorem target?_relocate : (b.relocate σ).target? = b.target?.map σ := by
  cases b <;> rfl

@[simp] theorem fraction?_relocate : (b.relocate σ).fraction? = b.fraction? := by
  cases b <;> rfl

@[simp] theorem float?_relocate : (b.relocate σ).float? = b.float? := by
  rw [float?, float?, fraction?_relocate]

@[simp] theorem boolean?_relocate : (b.relocate σ).boolean? = b.boolean? := by
  cases b <;> rfl

@[simp] theorem string?_relocate : (b.relocate σ).string? = b.string? := by
  cases b <;> rfl

/-- A block that refers to no stack. -/
theorem relocate_of_none {b : Block} (h : b.target? = none) : b.relocate σ = b := by
  cases b with
  | null loc | data loc _ | package loc => cases h
  | code name target =>
    obtain rfl : target = none := h
    rfl
  | _ => rfl

/-- Blocks that are compared without a look at stacks hold none. -/
theorem plainEquals_relocate (x y : Block) :
    (x.relocate σ).plainEquals (y.relocate σ) = x.plainEquals y := by
  cases x <;> cases y <;> rfl

end Block

@[simp] theorem Stack.relocate_id : Stack.relocate id = id := by
  funext s
  simp [Stack.relocate]

@[simp] theorem Stack.relocate_make (σ : Loc → Loc) (name : String) (blocks : List Block) :
    (Stack.make name blocks).relocate σ = Stack.make name (blocks.map (Block.relocate σ)) := rfl

@[simp] theorem Binding.relocate_id : Binding.relocate id = id := by
  funext v
  simp [Binding.relocate]

@[simp] theorem Pending.relocate_id : Pending.relocate id = id := by
  funext p
  cases p <;> simp [Pending.relocate]

@[simp] theorem Frame.relocate_id : Frame.relocate id = id := by
  funext f
  simp [Frame.relocate]

@[simp] theorem Event.relocate_id : Event.relocate id = id := by
  funext e
  cases e <;> simp [Event.relocate]

@[simp] theorem ObjectState.relocate_id : ObjectState.relocate id = id := by
  funext o
  simp [ObjectState.relocate]

@[simp] theorem Memory.relocate_id : Memory.relocate id = id := by
  funext mem
  simp [Memory.relocate]

@[simp] theorem Workspace.relocate_id : Workspace.relocate id = id := by
  funext ws
  simp [Workspace.relocate]

/-! ## Stacks that a walk has not met -/

namespace Heap

/-- The number of stacks that are not among those met. -/
def unmet (h : Heap) (met : List Loc) : Nat :=
  (Finset.range h.size \ met.toFinset).card

theorem unmet_le_size (h : Heap) (met : List Loc) : h.unmet met ≤ h.size := by
  have hsub : Finset.range h.size \ met.toFinset ⊆ Finset.range h.size := Finset.sdiff_subset
  simpa [unmet] using Finset.card_le_card hsub

/-- Meeting more leaves no more. -/
theorem unmet_le_of_subset (h : Heap) {met met' : List Loc} (hsub : met ⊆ met') :
    h.unmet met' ≤ h.unmet met := by
  refine Finset.card_le_card (Finset.sdiff_subset_sdiff (Finset.Subset.refl _) ?_)
  intro loc hloc
  rw [List.mem_toFinset] at hloc ⊢
  exact hsub hloc

/-- Meeting a new stack leaves fewer. -/
theorem unmet_cons_lt (h : Heap) {met : List Loc} {loc : Loc} (hlt : loc < h.size)
    (hnew : loc ∉ met) : h.unmet (loc :: met) < h.unmet met := by
  refine Finset.card_lt_card (Finset.ssubset_iff_subset_ne.2 ⟨?_, fun heq => ?_⟩)
  · exact Finset.sdiff_subset_sdiff (Finset.Subset.refl _) fun other hother => by
      rw [List.mem_toFinset] at hother ⊢
      exact List.mem_cons_of_mem _ hother
  · have hmem : loc ∈ Finset.range h.size \ met.toFinset := by
      simpa using ⟨hlt, hnew⟩
    rw [← heq] at hmem
    simp at hmem

/-- A place that was never allocated holds nothing. -/
theorem get_of_size_le (h : Heap) {loc : Loc} (hle : h.size ≤ loc) :
    h.get loc = Stack.make "" [] := by
  have hle' : h.cells.size ≤ loc := hle
  simp [get, Array.getD, Nat.not_lt.2 hle']

theorem lt_size_of_blocks {h : Heap} {loc : Loc} {b : Block} {rest : List Block}
    (hb : h.blocks loc = b :: rest) : loc < h.size := by
  by_contra hge
  rw [blocks, get_of_size_le h (Nat.le_of_not_lt hge)] at hb
  cases hb

/-- The bound on the nesting of a shown text does not show. -/
theorem shownAt_bound (l : Localizer) (h : Heap) (depth : Nat) :
    ∀ {depth' : Nat} {around : List Loc} (b : Block), h.unmet around < depth →
      h.unmet around < depth' → shownAt l h depth around b = shownAt l h depth' around b := by
  induction depth with
  | zero =>
    intro depth' around b hlt
    exact absurd hlt (Nat.not_lt_zero _)
  | succ depth ih =>
    intro depth' around b hlt hlt'
    obtain ⟨depth', rfl⟩ := Nat.exists_eq_succ_of_ne_zero (Nat.ne_of_gt (Nat.zero_lt_of_lt hlt'))
    cases b with
    | package loc =>
      simp only [shownAt]
      split
      · rfl
      · rename_i hnew
        simp only [bracketed]
        split
        · rename_i inner rest hb
          have hless := h.unmet_cons_lt (lt_size_of_blocks hb) (by simpa using hnew)
          have hinner : shownAt l h depth (loc :: around) inner =
              shownAt l h depth' (loc :: around) inner := ih inner (by omega) (by omega)
          rw [hinner]
        · rfl
    | code name target =>
      cases target <;> rfl
    | _ => rfl

section Trails

variable {h : Heap} {enter enter' : Trail → Loc → Loc → Option Trail}

/-- A walk that only lengthens its trail. -/
def Lengthens (enter : Trail → Loc → Loc → Option Trail) : Prop :=
  ∀ {t t' : Trail} {a b : Loc}, enter t a b = some t' → t ⊆ t'

theorem Lengthens.matchBlock (he : Lengthens enter) {t t' : Trail} {x y : Block}
    (hm : matchBlock enter t x y = some t') : t ⊆ t' := by
  unfold Heap.matchBlock at hm
  split at hm
  · exact he hm
  · split at hm
    · exact he hm
    · split at hm
      · obtain rfl := Option.some.inj hm
        exact List.Subset.refl _
      · cases hm
    · split at hm
      · obtain rfl := Option.some.inj hm
        exact List.Subset.refl _
      · cases hm

theorem Lengthens.matchBlocks (he : Lengthens enter) (xs : List Block) :
    ∀ {t t' : Trail} {ys : List Block}, matchBlocks enter t xs ys = some t' → t ⊆ t' := by
  induction xs with
  | nil =>
    intro t t' ys hm
    cases ys with
    | nil =>
      obtain rfl := Option.some.inj hm
      exact List.Subset.refl _
    | cons y ys => cases hm
  | cons x xs ih =>
    intro t t' ys hm
    cases ys with
    | nil => cases hm
    | cons y ys =>
      obtain ⟨t₁, h₁, h₂⟩ := Option.bind_eq_some_iff.1 hm
      exact List.Subset.trans (he.matchBlock h₁) (ih h₂)

theorem matchStacks_lengthens (h : Heap) (fuel : Nat) : Lengthens (matchStacks h fuel) := by
  induction fuel with
  | zero =>
    intro t t' a b hm
    cases hm
  | succ fuel ih =>
    intro t t' a b hm
    rw [matchStacks] at hm
    split at hm
    · obtain rfl := Option.some.inj hm
      exact List.Subset.refl _
    · split at hm
      · cases hm
      · exact List.Subset.trans (List.subset_cons_self _ _) (ih.matchBlocks _ hm)

/-- Two walks that agree on all trails from `t₀` on compare blocks alike. -/
theorem matchBlocks_congr {t₀ : Trail} (he : Lengthens enter)
    (heq : ∀ t a b, t₀ ⊆ t → enter t a b = enter' t a b) (xs : List Block) :
    ∀ {t : Trail} (ys : List Block), t₀ ⊆ t →
      matchBlocks enter t xs ys = matchBlocks enter' t xs ys := by
  have hblock : ∀ {t : Trail} (x y : Block), t₀ ⊆ t →
      matchBlock enter t x y = matchBlock enter' t x y := by
    intro t x y hsub
    unfold matchBlock
    split
    · exact heq _ _ _ hsub
    · split
      · exact heq _ _ _ hsub
      · rfl
      · rfl
  induction xs with
  | nil =>
    intro t ys _
    cases ys <;> rfl
  | cons x xs ih =>
    intro t ys hsub
    cases ys with
    | nil => rfl
    | cons y ys =>
      rw [matchBlocks, matchBlocks, ← hblock x y hsub]
      cases hm : matchBlock enter t x y with
      | none => rfl
      | some t₁ => exact ih ys (List.Subset.trans hsub (he.matchBlock hm))

/-- A pair of stacks is entered only if it is new to the trail, so that fewer stacks are left. -/
theorem unmet_lt_of_enter {t : Trail} {a b : Loc} {x : Block} {xs : List Block}
    (hblocks : h.blocks a = x :: xs) (hnew : ¬ (t.any fun p => p.1 == a || p.2 == b) = true) :
    h.unmet (a :: t.map Prod.fst) < h.unmet (t.map Prod.fst) := by
  refine h.unmet_cons_lt (lt_size_of_blocks hblocks) ?_
  intro hmem
  obtain ⟨p, hp, rfl⟩ := List.mem_map.1 hmem
  exact hnew (List.any_eq_true.2 ⟨p, hp, by simp⟩)

/-- The bound on the length of a walk does not show. -/
theorem matchStacks_bound (h : Heap) (fuel : Nat) :
    ∀ {fuel' : Nat} {t : Trail} (a b : Loc), h.unmet (t.map Prod.fst) < fuel →
      h.unmet (t.map Prod.fst) < fuel' → matchStacks h fuel t a b = matchStacks h fuel' t a b := by
  induction fuel with
  | zero =>
    intro fuel' t a b hlt
    exact absurd hlt (Nat.not_lt_zero _)
  | succ fuel ih =>
    intro fuel' t a b hlt hlt'
    obtain ⟨fuel', rfl⟩ := Nat.exists_eq_succ_of_ne_zero (Nat.ne_of_gt (Nat.zero_lt_of_lt hlt'))
    rw [matchStacks, matchStacks]
    split
    · rfl
    · split
      · rfl
      · rename_i hmet
        cases hb : h.blocks a with
        | nil =>
          cases h.blocks b <;> rfl
        | cons x xs =>
          have hless := unmet_lt_of_enter hb hmet
          refine matchBlocks_congr (matchStacks_lengthens h fuel) ?_ _ _ (List.Subset.refl _)
          intro t' a' b' hsub
          have hle : h.unmet (t'.map Prod.fst) ≤ h.unmet (a :: t.map Prod.fst) :=
            h.unmet_le_of_subset (List.map_subset Prod.fst hsub)
          exact ih a' b' (by omega) (by omega)

end Trails

/-! ## Heaps side by side -/

/-- The stacks of `h` stand in `h'`, moved by `σ` with all references between them; and whatever is
added to both comes to corresponding places. -/
structure Relocates (σ : Loc → Loc) (h h' : Heap) : Prop where
  injective : Function.Injective σ
  get : ∀ loc, h'.get (σ loc) = (h.get loc).relocate σ
  inside : ∀ {loc}, loc < h.size → σ loc < h'.size
  next : ∀ k, σ (h.size + k) = h'.size + k

theorem Relocates.refl (h : Heap) : Relocates id h h where
  injective := Function.injective_id
  get loc := by simp
  inside hlt := hlt
  next _ := rfl

namespace Relocates

variable {σ : Loc → Loc} {h h' : Heap}

theorem lt_iff (hσ : Relocates σ h h') (loc : Loc) : σ loc < h'.size ↔ loc < h.size := by
  refine ⟨fun hlt => ?_, hσ.inside⟩
  by_contra hge
  have hnext := hσ.next (loc - h.size)
  rw [Nat.add_sub_cancel' (Nat.le_of_not_lt hge)] at hnext
  rw [hnext] at hlt
  exact Nat.not_lt.2 (Nat.le_add_right _ _) hlt

theorem blocks (hσ : Relocates σ h h') (loc : Loc) :
    h'.blocks (σ loc) = (h.blocks loc).map (Block.relocate σ) := by
  rw [Heap.blocks, hσ.get]
  rfl

theorem nameOf (hσ : Relocates σ h h') (loc : Loc) : h'.nameOf (σ loc) = h.nameOf loc := by
  rw [Heap.nameOf, hσ.get]
  rfl

/-- The same stack added to both heaps. -/
theorem alloc (hσ : Relocates σ h h') (s : Stack) :
    (h'.alloc (s.relocate σ)).1 = σ (h.alloc s).1 ∧
      Relocates σ (h.alloc s).2 (h'.alloc (s.relocate σ)).2 := by
  have hnew : h'.size = σ h.size := (hσ.next 0).symm
  refine ⟨hnew, hσ.injective, ?_, ?_, ?_⟩
  · intro loc
    rcases Nat.lt_trichotomy loc h.size with hlt | rfl | hgt
    · rw [get_alloc_of_lt h s hlt, get_alloc_of_lt h' _ (hσ.inside hlt), hσ.get]
    · rw [← hnew]
      exact (get_alloc_self h' _).trans (congrArg _ (get_alloc_self h s).symm)
    · -- behind the new stack both heaps end
      have hge : h'.size ≤ σ loc := by
        rw [← Nat.not_lt, hσ.lt_iff]
        exact Nat.not_lt.2 (Nat.le_of_lt hgt)
      have hne : h'.size ≠ σ loc := by
        rw [hnew]
        exact fun heq => Nat.ne_of_lt hgt (hσ.injective heq)
      rw [get_of_size_le _ (by rw [size_alloc]; exact Nat.lt_of_le_of_ne hge hne),
        get_of_size_le _ (by rw [size_alloc]; exact hgt)]
      rfl
  · intro loc hlt
    rw [size_alloc] at hlt ⊢
    rcases Nat.lt_or_eq_of_le (Nat.le_of_lt_succ hlt) with hlt | rfl
    · exact Nat.lt_succ_of_lt (hσ.inside hlt)
    · rw [← hnew]
      exact Nat.lt_succ_self _
  · intro k
    rw [size_alloc, size_alloc, Nat.add_assoc, hσ.next, Nat.add_assoc]

/-- The same change of a stack in both heaps. -/
theorem modify (hσ : Relocates σ h h') (loc : Loc) {f : Stack → Stack}
    (hf : ∀ s, (f s).relocate σ = f (s.relocate σ)) :
    Relocates σ (h.modify loc f) (h'.modify (σ loc) f) := by
  refine ⟨hσ.injective, ?_, ?_, ?_⟩
  · intro other
    by_cases hne : other = loc
    · subst hne
      by_cases hlt : other < h.size
      · rw [get_modify_self h f hlt, get_modify_self h' f (hσ.inside hlt), hσ.get, hf]
      · have hlt' : ¬ σ other < h'.size := by rwa [hσ.lt_iff]
        rw [get_of_size_le (h.modify other f) (by simpa using hlt),
          get_of_size_le (h'.modify (σ other) f) (by simpa using hlt')]
        rfl
    · rw [get_modify_of_ne h f hne, get_modify_of_ne h' f (hσ.injective.ne hne), hσ.get]
  · intro other hlt
    rw [size_modify] at hlt ⊢
    exact hσ.inside hlt
  · intro k
    rw [size_modify, size_modify, hσ.next]

/-! ### Equality -/

/-- The trail of a walk in the second heap. -/
def trail (σ : Loc → Loc) (t : Trail) : Trail :=
  t.map (Prod.map σ σ)

theorem matchBlock {enter enter' : Trail → Loc → Loc → Option Trail}
    (he : ∀ t a b, enter' (trail σ t) (σ a) (σ b) = (enter t a b).map (trail σ)) (t : Trail)
    (x y : Block) :
    Heap.matchBlock enter' (trail σ t) (x.relocate σ) (y.relocate σ) =
      (Heap.matchBlock enter t x y).map (trail σ) := by
  have hplain : (if (x.relocate σ).plainEquals (y.relocate σ) then some (trail σ t) else none) =
      (if x.plainEquals y then some t else none).map (trail σ) := by
    rw [Block.plainEquals_relocate]
    split <;> rfl
  unfold Heap.matchBlock
  rw [Block.stack?_relocate, Block.stack?_relocate]
  cases hx : x.stack? with
  | some a =>
    cases hy : y.stack? with
    | some b => exact he t a b
    | none =>
      cases x with
      | code name target => cases hx
      | _ => exact hplain
  | none =>
    cases x with
    | code name target =>
      cases y with
      | code name' target' =>
        cases target with
        | none =>
          cases target' with
          | none =>
            simp only [Block.relocate, Option.map_none]
            split <;> rfl
          | some b => exact hplain
        | some a =>
          cases target' with
          | none => exact hplain
          | some b => exact he t a b
      | _ => cases target <;> exact hplain
    | _ => exact hplain

theorem matchBlocks {enter enter' : Trail → Loc → Loc → Option Trail}
    (he : ∀ t a b, enter' (trail σ t) (σ a) (σ b) = (enter t a b).map (trail σ))
    (xs : List Block) : ∀ (t : Trail) (ys : List Block),
      Heap.matchBlocks enter' (trail σ t) (xs.map (Block.relocate σ)) (ys.map (Block.relocate σ)) =
        (Heap.matchBlocks enter t xs ys).map (trail σ) := by
  induction xs with
  | nil =>
    intro t ys
    cases ys <;> rfl
  | cons x xs ih =>
    intro t ys
    cases ys with
    | nil => rfl
    | cons y ys =>
      rw [List.map_cons, List.map_cons, Heap.matchBlocks, Heap.matchBlocks, matchBlock he]
      cases Heap.matchBlock enter t x y with
      | none => rfl
      | some t₁ => exact ih t₁ ys

/-- Both heaps walked with one bound. -/
theorem matchStacks (hσ : Relocates σ h h') (fuel : Nat) : ∀ (t : Trail) (a b : Loc),
    Heap.matchStacks h' fuel (trail σ t) (σ a) (σ b) =
      (Heap.matchStacks h fuel t a b).map (trail σ) := by
  induction fuel with
  | zero =>
    intro t a b
    rfl
  | succ fuel ih =>
    intro t a b
    have hinj := fun x y => hσ.injective.eq_iff (a := x) (b := y)
    have hmem : (trail σ t).contains (σ a, σ b) = t.contains (a, b) := by
      rw [Bool.eq_iff_iff]
      simp [trail, hinj]
    have hany : ((trail σ t).any fun p => p.1 == σ a || p.2 == σ b) =
        t.any fun p => p.1 == a || p.2 == b := by
      rw [Bool.eq_iff_iff]
      simp [trail, hinj]
    rw [Heap.matchStacks, Heap.matchStacks, hmem, hany]
    split
    · rfl
    · split
      · rfl
      · rw [hσ.blocks, hσ.blocks]
        exact matchBlocks ih _ ((a, b) :: t) _

/-- **Equality takes no notice of places.** -/
theorem equals (hσ : Relocates σ h h') (x y : Block) :
    h'.equals (x.relocate σ) (y.relocate σ) = h.equals x y := by
  -- a bound that is enough for both heaps
  have hbound : ∀ g : Heap, g.size ≤ max h.size h'.size → ∀ t a b,
      Heap.matchStacks g (g.size + 1) t a b =
        Heap.matchStacks g (max h.size h'.size + 1) t a b := by
    intro g hg t a b
    have hle := g.unmet_le_size (t.map Prod.fst)
    exact matchStacks_bound g _ a b (by omega) (by omega)
  have hone : Heap.matchStacks h' (h'.size + 1) = Heap.matchStacks h' (max h.size h'.size + 1) := by
    funext t a b
    exact hbound h' (Nat.le_max_right _ _) t a b
  have htwo : Heap.matchStacks h (h.size + 1) = Heap.matchStacks h (max h.size h'.size + 1) := by
    funext t a b
    exact hbound h (Nat.le_max_left _ _) t a b
  rw [Heap.equals, Heap.equals, hone, htwo]
  have hwalk := matchBlock (hσ.matchStacks (max h.size h'.size + 1)) [] x y
  rw [show (trail σ []) = [] from rfl] at hwalk
  rw [hwalk, Option.isSome_map]

/-! ### Names -/

theorem find? (hσ : Relocates σ h h') (ws : Workspace) (name : String) :
    (ws.relocate σ).find? h' name = (ws.find? h name).map σ := by
  simp only [Workspace.find?, Workspace.relocate, List.find?_map]
  congr 2
  funext loc
  simp [hσ.nameOf]

/-- **Resolving takes no notice of places.** -/
theorem resolve (hσ : Relocates σ h h') (ws : Workspace) (b : Block) :
    (ws.relocate σ).resolve h' (b.relocate σ) = (ws.resolve h b).relocate σ := by
  cases b with
  | data loc resolved =>
    cases resolved with
    | true => rfl
    | false =>
      simp only [Block.relocate, Workspace.resolve, hσ.nameOf, hσ.find?]
      cases ws.find? h (h.nameOf loc) <;> rfl
  | code name target =>
    cases target with
    | none => simp only [Block.relocate, Workspace.resolve, Option.map_none, hσ.find?]
    | some loc => rfl
  | _ => rfl

/-! ### Text -/

theorem shownAt (hσ : Relocates σ h h') (l : Localizer) (depth : Nat) :
    ∀ (around : List Loc) (b : Block),
      Heap.shownAt l h' depth (around.map σ) (b.relocate σ) = Heap.shownAt l h depth around b := by
  induction depth with
  | zero =>
    intro around b
    cases b with
    | data loc resolved => simp only [Block.relocate, Heap.shownAt, hσ.get]; rfl
    | code name target =>
      cases target with
      | none => rfl
      | some loc => simp only [Block.relocate, Heap.shownAt, Option.map_some, hσ.get]; rfl
    | _ => rfl
  | succ depth ih =>
    intro around b
    cases b with
    | data loc resolved => simp only [Block.relocate, Heap.shownAt, hσ.get]; rfl
    | code name target =>
      cases target with
      | none => rfl
      | some loc => simp only [Block.relocate, Heap.shownAt, Option.map_some, hσ.get]; rfl
    | package loc =>
      have hmem : (around.map σ).contains (σ loc) = around.contains loc := by
        rw [Bool.eq_iff_iff]
        simp [hσ.injective.eq_iff]
      simp only [Block.relocate, Heap.shownAt, hmem, bracketed, hσ.blocks]
      split
      · rfl
      · cases h.blocks loc with
        | nil => rfl
        | cons inner rest =>
          simp only [List.map_cons]
          rw [← ih (loc :: around) inner, List.map_cons]
    | _ => rfl

/-- **Shown text takes no notice of places.** -/
theorem shown (hσ : Relocates σ h h') (l : Localizer) (b : Block) :
    h'.shown l (b.relocate σ) = h.shown l b := by
  have hle := h.unmet_le_size []
  have hle' := h'.unmet_le_size []
  calc h'.shown l (b.relocate σ)
      = Heap.shownAt l h' (max h.size h'.size + 1) [] (b.relocate σ) :=
        shownAt_bound l h' _ _ (by omega) (by omega)
    _ = Heap.shownAt l h (max h.size h'.size + 1) [] b := hσ.shownAt l _ [] b
    _ = h.shown l b := shownAt_bound l h _ _ (by omega) (by omega)

end Relocates

end Heap

/-! ## Arithmetic -/

namespace Block

variable (σ : Loc → Loc) (a b : Block)

theorem combine_relocate (f : Fraction → Fraction → Fraction) :
    combine f (a.relocate σ) (b.relocate σ) = (combine f a b).map (relocate σ) := by
  simp only [combine, fraction?_relocate]
  cases a.fraction? <;> cases b.fraction? <;> rfl

theorem mapValue_relocate (f : Float → Float) :
    mapValue f (a.relocate σ) = (mapValue f a).map (relocate σ) := by
  simp only [mapValue, float?_relocate]
  cases a.float? <;> rfl

theorem compareBy_relocate (f : Fraction → Fraction → Bool) :
    compareBy f (a.relocate σ) (b.relocate σ) = (compareBy f a b).map (relocate σ) := by
  simp only [compareBy, fraction?_relocate]
  cases a.fraction? <;> cases b.fraction? <;> rfl

theorem connect_relocate (f : Bool → Bool → Bool) :
    connect f (a.relocate σ) (b.relocate σ) = (connect f a b).map (relocate σ) := by
  simp only [connect, boolean?_relocate]
  cases a.boolean? <;> cases b.boolean? <;> rfl

theorem factorialOf_relocate (l : Localizer) :
    factorialOf l (a.relocate σ) = (factorialOf l a).map (relocate σ) := by
  simp only [factorialOf, float?_relocate]
  cases a.float? with
  | none => rfl
  | some x =>
    simp only [Option.bind_eq_bind, Option.bind_some]
    split <;> rfl

end Block

open Block in
/-- **Arithmetic takes no notice of places.** -/
theorem Heap.Relocates.calculate {σ : Loc → Loc} {h h' : Heap} (hσ : Relocates σ h h')
    (l : Localizer) (op : Operator) (operands : List Block) :
    op.calculate l h' (operands.map (Block.relocate σ)) =
      (op.calculate l h operands).map (Block.relocate σ) := by
  cases op with
  | plus | minus | multiply | divide | power | modulo =>
    match operands with
    | [a, b] => exact combine_relocate σ a b _
    | [] | [_] | _ :: _ :: _ :: _ => rfl
  | ceil | floor | round | logarithm | naturalLogarithm | sine | cosine | tangent | arcSine
  | arcCosine | arcTangent =>
    match operands with
    | [a] => exact mapValue_relocate σ a _
    | [] | _ :: _ :: _ => rfl
  | lessThan | greaterThan | lessOrEqual | greaterOrEqual =>
    match operands with
    | [a, b] => exact compareBy_relocate σ a b _
    | [] | [_] | _ :: _ :: _ :: _ => rfl
  | conjunction | disjunction =>
    match operands with
    | [a, b] => exact connect_relocate σ a b _
    | [] | [_] | _ :: _ :: _ :: _ => rfl
  | minimum | maximum =>
    -- these two answer with an operand
    match operands with
    | [a, b] =>
      simp only [Operator.calculate, List.map_cons, List.map_nil, float?_relocate]
      cases a.float? with
      | none => cases b.float? <;> rfl
      | some x =>
        cases b.float? with
        | none => rfl
        | some y =>
          simp only [Option.bind_eq_bind, Option.bind_some]
          split <;> rfl
    | [] | [_] | _ :: _ :: _ :: _ => rfl
  | absolute | squareRoot =>
    match operands with
    | [a] =>
      simp only [Operator.calculate, List.map_cons, List.map_nil, fraction?_relocate]
      cases a.fraction? <;> rfl
    | [] | _ :: _ :: _ => rfl
  | factorial =>
    match operands with
    | [a] => exact factorialOf_relocate σ a l
    | [] | _ :: _ :: _ => rfl
  | arcTangent2 =>
    match operands with
    | [a, b] =>
      simp only [Operator.calculate, List.map_cons, List.map_nil, float?_relocate]
      cases a.float? <;> cases b.float? <;> rfl
    | [] | [_] | _ :: _ :: _ :: _ => rfl
  | equal =>
    match operands with
    | [a, b] =>
      simp only [Operator.calculate, List.map_cons, List.map_nil, hσ.equals]
      rfl
    | [] | [_] | _ :: _ :: _ :: _ => rfl
  | negate =>
    match operands with
    | [a] =>
      simp only [Operator.calculate, List.map_cons, List.map_nil, boolean?_relocate]
      cases a.boolean? <;> rfl
    | [] | _ :: _ :: _ => rfl
  | _ => rfl

/-! ## Frames -/

namespace Frame

variable (σ : Loc → Loc)

@[simp] theorem isFinished_relocate (f : Frame) : (f.relocate σ).isFinished = f.isFinished := by
  simp [isFinished, relocate]

@[simp] theorem isParameter_relocate (f : Frame) (name : String) :
    (f.relocate σ).isParameter name = f.isParameter name := by
  simp only [isParameter, relocate, Keyed.find?_mapValues]
  cases f.bindings.find? name <;> rfl

theorem relocate_bind (f : Frame) (name : String) (parameter : Bool) (b : Block) :
    (f.bind name parameter b).relocate σ = (f.relocate σ).bind name parameter (b.relocate σ) := by
  simp only [bind, relocate, Keyed.mapValues_insert]
  rfl

theorem fetch_relocate (frames : List Frame) (name : String) :
    fetch (frames.map (relocate σ)) name = (fetch frames name).map (Block.relocate σ) := by
  simp only [fetch, List.findSome?_map, List.map_findSome?]
  congr 1
  funext f
  simp only [Function.comp, relocate, Keyed.find?_mapValues]
  cases f.bindings.find? name <;> rfl

/-- A name that is bound to corresponding blocks in corresponding frames. -/
theorem assignAll_relocate {changed changed' : Block → Bool}
    (hchanged : ∀ old, changed' (old.relocate σ) = changed old) (name : String) (b : Block)
    (frames : List Frame) : ∀ parameter : Bool,
      assignAll changed' name (b.relocate σ) parameter (frames.map (relocate σ)) =
        ((assignAll changed name b parameter frames).1.map (relocate σ),
          (assignAll changed name b parameter frames).2) := by
  induction frames with
  | nil =>
    intro parameter
    rfl
  | cons f outer ih =>
    intro parameter
    have hnews : (fetch (f.relocate σ :: outer.map (relocate σ)) name).all changed' =
        (fetch (f :: outer) name).all changed := by
      rw [← List.map_cons, fetch_relocate]
      cases fetch (f :: outer) name with
      | none => rfl
      | some old => exact hchanged old
    simp only [List.map_cons, assignAll, isParameter_relocate, hnews, ih false]
    cases parameter || f.isParameter name with
    | true => simp [relocate_bind]
    | false => simp [relocate_bind]

end Frame

/-! ## Memory -/

section Memory

variable (σ : Loc → Loc) (mem : Memory) (id name : String)

theorem Memory.object_relocate : (mem.relocate σ).object id = (mem.object id).relocate σ := by
  rw [Memory.object, Memory.object, Memory.relocate, Keyed.find?_mapValues]
  cases Keyed.find? mem id <;> rfl

theorem Memory.variableOf_relocate (l : Localizer) :
    (mem.relocate σ).variableOf l id name = (mem.variableOf l id name).relocate σ := by
  rw [Memory.variableOf, Memory.variableOf, Memory.object_relocate]
  simp only [ObjectState.relocate, Keyed.find?_mapValues]
  cases Keyed.find? (mem.object id).values name <;> rfl

theorem Memory.update_relocate {f g : ObjectState → ObjectState}
    (hf : ∀ o, (f o).relocate σ = g (o.relocate σ)) :
    (mem.update id f).relocate σ = (mem.relocate σ).update id g := by
  rw [Memory.update, Memory.update, Memory.object_relocate, ← hf, Memory.relocate,
    Keyed.mapValues_insert]
  rfl

/-- **Writing to memory takes no notice of places.** -/
theorem Heap.Relocates.setVariable {h h' : Heap} (hσ : Relocates σ h h') (b : Block) :
    (mem.relocate σ).setVariable h' id name (some (b.relocate σ)) =
      (mem.setVariable h id name (some b)).map (Prod.map (Memory.relocate σ) fun c => c) := by
  simp only [Memory.setVariable, Block.isStorable_relocate]
  split
  · rfl
  · simp only [Except.map, Prod.map]
    refine congrArg Except.ok (congrArg₂ Prod.mk ?_ ?_)
    · refine (Memory.update_relocate σ mem id ?_).symm
      intro o
      simp only [ObjectState.relocate, Keyed.mapValues_insert]
    · simp only [Memory.object_relocate, ObjectState.relocate, Keyed.find?_mapValues]
      cases Keyed.find? (mem.object id).values name with
      | none => rfl
      | some old => simp [hσ.equals]

end Memory

end BlockMachine
