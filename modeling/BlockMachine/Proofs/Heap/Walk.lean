import BlockMachine.Block.Equality
import Mathlib.Data.List.Forall2
import Mathlib.Data.List.Perm.Subperm

/-!
# When stacks are equal

Two stacks are compared by a walk through both in step. The walk succeeds when the stacks can be
paired: paired stacks hold matching blocks, matching blocks refer to paired stacks, and no stack has
two partners. Such a pairing is all that a proof of equality has to give; the trail of the walk and
the bound on its length do not show any more.

* `Block.target?` — the stack that a block refers to;
* `Block.Matched` — two blocks match, given which stacks are paired;
* `Heap.matchBlocks_of_matched` — matching blocks keep the walk going;
* `Heap.Pairing` — a pairing of stacks, `Heap.Pairing.stackEquals` — paired stacks are equal;
* `Heap.matchBlocks_of_matchStacks` — what a walk that succeeded has compared.
-/

namespace BlockMachine

namespace Block

/-- The stack that a block refers to. -/
def target? : Block → Option Loc
  | .code _ target => target
  | b => b.stack?

theorem target?_of_stack? {b : Block} {loc : Loc} (h : b.stack? = some loc) :
    b.target? = some loc := by
  cases b with
  | code name target => cases h
  | _ => exact h

/-- Blocks that are equal without looking at stacks refer to none. -/
theorem target?_of_plainEquals {x y : Block} (equal : x.plainEquals y = true) :
    x.target? = none ∧ y.target? = none := by
  simp only [plainEquals] at equal
  split at equal
  case h_17 => cases equal
  all_goals exact ⟨rfl, rfl⟩

/-- Two blocks match, if the stacks that `paired` relates do. -/
inductive Matched (paired : Loc → Loc → Prop) : Block → Block → Prop where
  | stack {x y : Block} {a b : Loc} (left : x.stack? = some a) (right : y.stack? = some b)
      (partners : paired a b) : Matched paired x y
  | bound {m n : String} {a b : Loc} (partners : paired a b) :
      Matched paired (.code m (some a)) (.code n (some b))
  | unbound (name : String) : Matched paired (.code name none) (.code name none)
  | plain {x y : Block} (equal : x.plainEquals y = true) : Matched paired x y

end Block

namespace Heap

/-- A pairing of stacks: no stack has two partners, and partners hold matching blocks. -/
structure Pairing (h : Heap) (paired : Loc → Loc → Prop) : Prop where
  bounded : ∀ {a b}, paired a b → a < h.size
  blocks : ∀ {a b}, paired a b → List.Forall₂ (Block.Matched paired) (h.blocks a) (h.blocks b)
  left : ∀ {a b b'}, paired a b → paired a b' → b = b'
  right : ∀ {a a' b}, paired a b → paired a' b → a = a'

/-- Blocks that are equal without looking at stacks do not lengthen the trail. -/
theorem matchBlock_of_plainEquals {enter : Trail → Loc → Loc → Option Trail} {t : Trail}
    {x y : Block} (equal : x.plainEquals y = true) : matchBlock enter t x y = some t := by
  have h := equal
  simp only [Block.plainEquals] at h
  split at h
  case h_17 => cases h
  all_goals simp [matchBlock, Block.stack?, equal]

section

variable {paired : Loc → Loc → Prop} {enter : Trail → Loc → Loc → Option Trail} {kept : Trail → Prop}

/-- Matching blocks keep a walk going, and keep what entering a pair of stacks keeps of the trail. -/
theorem matchBlock_of_matched
    (henter : ∀ t a b, kept t → paired a b → ∃ t', enter t a b = some t' ∧ kept t')
    {t : Trail} (ht : kept t) {x y : Block} (hxy : Block.Matched paired x y) :
    ∃ t', matchBlock enter t x y = some t' ∧ kept t' := by
  cases hxy with
  | stack left right partners =>
    simp only [matchBlock, left, right]
    exact henter t _ _ ht partners
  | bound partners => exact henter t _ _ ht partners
  | unbound name => exact ⟨t, by simp [matchBlock, Block.stack?], ht⟩
  | plain equal => exact ⟨t, matchBlock_of_plainEquals equal, ht⟩

theorem matchBlocks_of_matched
    (henter : ∀ t a b, kept t → paired a b → ∃ t', enter t a b = some t' ∧ kept t')
    {t : Trail} (ht : kept t) {xs ys : List Block}
    (hxs : List.Forall₂ (Block.Matched paired) xs ys) :
    ∃ t', matchBlocks enter t xs ys = some t' ∧ kept t' := by
  induction hxs generalizing t with
  | nil => exact ⟨t, rfl, ht⟩
  | cons hxy _ ih =>
    obtain ⟨t₁, h₁, ht₁⟩ := matchBlock_of_matched henter ht hxy
    obtain ⟨t₂, h₂, ht₂⟩ := ih ht₁
    refine ⟨t₂, ?_, ht₂⟩
    rw [matchBlocks, h₁]
    exact h₂

end

namespace Pairing

variable {h : Heap} {paired : Loc → Loc → Prop}

/-- A trail of partners, each met once. -/
structure Along (paired : Loc → Loc → Prop) (t : Trail) : Prop where
  partners : ∀ p ∈ t, paired p.1 p.2
  once : (t.map Prod.fst).Nodup

/-- A walk that succeeds and goes on along partners. -/
def Passes (paired : Loc → Loc → Prop) (t : Trail) (r : Option Trail) : Prop :=
  ∃ t', r = some t' ∧ Along paired t' ∧ t.length ≤ t'.length

/-- A trail along partners is no longer than the heap. -/
theorem length_le (hp : h.Pairing paired) {t : Trail} (ht : Along paired t) :
    t.length ≤ h.size := by
  have hsub : t.map Prod.fst ⊆ List.range h.size := by
    intro a ha
    obtain ⟨p, hmem, rfl⟩ := List.mem_map.1 ha
    exact List.mem_range.2 (hp.bounded (ht.partners p hmem))
  have hlen := (List.subperm_of_subset ht.once hsub).length_le
  simpa using hlen

/-- A pair that was not met yet can be added to the trail. -/
theorem along_cons (hp : h.Pairing paired) {t : Trail} (ht : Along paired t) {a b : Loc}
    (hab : paired a b) (hnew : (a, b) ∉ t) : Along paired ((a, b) :: t) := by
  refine ⟨?_, ?_⟩
  · intro p hmem
    rcases List.mem_cons.1 hmem with rfl | hmem
    · exact hab
    · exact ht.partners p hmem
  · rw [List.map_cons, List.nodup_cons]
    refine ⟨fun hfst => ?_, ht.once⟩
    obtain ⟨⟨a', b'⟩, hmem, rfl⟩ := List.mem_map.1 hfst
    obtain rfl := hp.left hab (ht.partners _ hmem)
    exact hnew hmem

/-- **The walk along a pairing.** The trail is never longer than the heap, so the bound on the walk
is not reached. -/
theorem matchStacks_passes (hp : h.Pairing paired) (fuel : Nat) {t : Trail} (ht : Along paired t)
    {a b : Loc} (hab : paired a b) (hfuel : h.size < fuel + t.length) :
    Passes paired t (matchStacks h fuel t a b) := by
  induction fuel generalizing t a b with
  | zero =>
    have := hp.length_le ht
    omega
  | succ fuel ih =>
    rw [matchStacks]
    split
    case isTrue _ => exact ⟨t, rfl, ht, Nat.le_refl _⟩
    case isFalse hnew =>
      have hnew : (a, b) ∉ t := by simpa using hnew
      split
      case isTrue hmet =>
        -- a stack that was met with another partner has two of them
        exfalso
        obtain ⟨⟨a', b'⟩, hmem, hmet⟩ := List.any_eq_true.1 hmet
        have hpartners := ht.partners _ hmem
        rcases (by simpa using hmet : a' = a ∨ b' = b) with rfl | rfl
        · obtain rfl := hp.left hab hpartners
          exact hnew hmem
        · obtain rfl := hp.right hab hpartners
          exact hnew hmem
      case isFalse _ =>
        have hcons := hp.along_cons ht hab hnew
        obtain ⟨t', h', ht', hle⟩ := matchBlocks_of_matched
          (fun t₁ a₁ b₁ (ht₁ : Along paired t₁ ∧ t.length + 1 ≤ t₁.length) hab₁ => by
            obtain ⟨t₂, h₂, ht₂, hle₂⟩ := ih ht₁.1 hab₁ (by omega)
            exact ⟨t₂, h₂, ht₂, by omega⟩) ⟨hcons, Nat.le_refl _⟩ (hp.blocks hab)
        exact ⟨t', h', ht', by omega⟩

/-- **Partners are equal.** -/
theorem stackEquals (hp : h.Pairing paired) {a b : Loc} (hab : paired a b) :
    h.stackEquals a b = true := by
  have hnil : Along paired [] := ⟨by simp, by simp⟩
  obtain ⟨t, ht, -⟩ := hp.matchStacks_passes (h.size + 1) hnil hab (by simp)
  simp [Heap.stackEquals, ht]

end Pairing

/-! ## What a walk has compared -/

section

variable {h : Heap} {t : Trail} {a b : Loc}

/-- A walk that enters a pair of stacks for the first time compares their blocks. -/
theorem matchBlocks_of_matchStacks {fuel : Nat} (hnew : ∀ p ∈ t, p.1 ≠ a)
    (hsome : (matchStacks h fuel t a b).isSome) :
    ∃ fuel', (matchBlocks (matchStacks h fuel') ((a, b) :: t) (h.blocks a) (h.blocks b)).isSome := by
  cases fuel with
  | zero => cases hsome
  | succ fuel =>
    rw [matchStacks] at hsome
    split at hsome
    case isTrue hmem => exact absurd rfl (hnew _ (List.contains_iff_mem.1 hmem))
    case isFalse _ =>
      split at hsome
      case isTrue _ => cases hsome
      case isFalse _ => exact ⟨fuel, hsome⟩

variable {enter : Trail → Loc → Loc → Option Trail} {xs : List Block}

theorem eq_nil_of_matchBlocks (hsome : (matchBlocks enter t [] xs).isSome) : xs = [] := by
  cases xs with
  | nil => rfl
  | cons x xs => cases hsome

theorem singleton_of_matchBlocks {y : Block} (hsome : (matchBlocks enter t [y] xs).isSome) :
    ∃ x, xs = [x] ∧ (matchBlock enter t y x).isSome := by
  cases xs with
  | nil => cases hsome
  | cons x xs =>
    obtain ⟨t', ht'⟩ := Option.isSome_iff_exists.1 hsome
    obtain ⟨t₁, h₁, h₂⟩ := Option.bind_eq_some_iff.1 ht'
    obtain rfl := eq_nil_of_matchBlocks (by rw [h₂]; rfl)
    exact ⟨x, rfl, by rw [h₁]; rfl⟩

end

end Heap

end BlockMachine
