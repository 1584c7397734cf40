import BlockMachine.Proofs.Fraction.Ordering
import BlockMachine.Proofs.Heap.Isomorphism

/-!
# Equality of blocks is symmetric, and reflexive but for NaN

The walk through two graphs can be done with the graphs exchanged: it takes the same turns, with
each pair of its trail exchanged. A walk through one graph, in step with itself, pairs each stack
with itself, so all that can end it is a block that is not equal to itself, and these are the
numbers that are NaN.

* `Heap.matchStacks_swap` — the walk with the graphs exchanged, `Heap.equals_comm` — the answer;
* `Heap.Contains` — the blocks that can be reached from a block;
* `Heap.stackEquals_self_iff`, `Heap.equals_self_iff` — which stacks and blocks are equal to
  themselves;
* `Heap.equals_symmetric_reflexive` — both together.
-/

namespace BlockMachine

namespace Block

/-- Whether a block holds a number that is NaN. -/
def isNaN (b : Block) : Bool :=
  b.fraction?.any fun r => r.value.isNaN

theorem plainEquals_comm (x y : Block) : x.plainEquals y = y.plainEquals x := by
  cases x with
  | number a | randomInt a | randomReal a =>
    cases y with
    | number b | randomInt b | randomReal b => first | exact a.fuzzyEq_comm b | rfl
    | _ => rfl
  | extension a =>
    cases y with
    | extension b =>
      simp only [plainEquals, BEq.comm (a := a.typeId), BEq.comm (a := a.typeName),
        BEq.comm (a := a.written)]
    | _ => rfl
  | _ => cases y <;> first | rfl | exact BEq.comm

/-- A block that refers to no stack and is no call is equal to itself, unless it is NaN. -/
theorem plainEquals_self {x : Block} (hstack : x.stack? = none) (hcall : ∀ m t, x ≠ .code m t) :
    x.plainEquals x = !x.isNaN := by
  have hfraction : ∀ a : Fraction, a.fuzzyEq a = !a.value.isNaN := by
    intro a
    rw [Bool.eq_iff_iff, Fraction.fuzzyEq_self]
    simp
  cases x with
  | number a | randomInt a | randomReal a => exact hfraction a
  | code m t => exact absurd rfl (hcall m t)
  | null | data | package => cases hstack
  | _ => simp [plainEquals, isNaN, fraction?]

theorem isNaN_of_target? {x : Block} {a : Loc} (h : x.target? = some a) : x.isNaN = false := by
  cases x with
  | number | randomInt | randomReal => cases h
  | _ => rfl

/-- A block that is no NaN matches itself, if the stack that it refers to is paired with itself. -/
theorem matched_self {paired : Loc → Loc → Prop} {x : Block}
    (hpaired : ∀ a, x.target? = some a → paired a a) (hnan : x.isNaN = false) :
    Matched paired x x := by
  cases hstack : x.stack? with
  | some a => exact .stack hstack hstack (hpaired a (target?_of_stack? hstack))
  | none =>
    by_cases hcall : ∃ m t, x = .code m t
    · obtain ⟨m, t, rfl⟩ := hcall
      cases t with
      | none => exact .unbound m
      | some a => exact .bound (hpaired a rfl)
    · refine .plain ?_
      rw [plainEquals_self hstack fun m t heq => hcall ⟨m, t, heq⟩, hnan]
      rfl

theorem isNaN_of_matched_self {paired : Loc → Loc → Prop} {x : Block} (h : Matched paired x x) :
    x.isNaN = false := by
  cases h with
  | stack left => exact isNaN_of_target? (target?_of_stack? left)
  | bound | unbound => rfl
  | plain equal =>
    have hnone := (target?_of_plainEquals equal).1
    have hstack : x.stack? = none := by
      cases hs : x.stack? with
      | none => rfl
      | some a =>
        rw [target?_of_stack? hs] at hnone
        cases hnone
    have hcall : ∀ m t, x ≠ .code m t := by
      rintro m t rfl
      cases equal
    rw [plainEquals_self hstack hcall] at equal
    simpa using equal

end Block

namespace Heap

variable {h : Heap}

/-! ## Exchanging the sides -/

section

variable {enter enter' : Trail → Loc → Loc → Option Trail}

theorem matchBlock_swap
    (he : ∀ t a b, enter' (t.map Prod.swap) b a = (enter t a b).map (List.map Prod.swap))
    (t : Trail) (x y : Block) :
    matchBlock enter' (t.map Prod.swap) y x =
      (matchBlock enter t x y).map (List.map Prod.swap) := by
  have hplain : (if y.plainEquals x then some (t.map Prod.swap) else none) =
      (if x.plainEquals y then some t else none).map (List.map Prod.swap) := by
    rw [y.plainEquals_comm]
    split <;> rfl
  cases x with
  | null a | data a | package a =>
    cases y with
    | null b | data b | package b => exact he t a b
    | code n u => cases u <;> exact hplain
    | _ => exact hplain
  | code m s =>
    cases y with
    | code n u =>
      cases s with
      | none =>
        cases u with
        | none =>
          simp only [matchBlock, Block.stack?, BEq.comm (a := n)]
          split <;> rfl
        | some b => exact hplain
      | some a =>
        cases u with
        | none => exact hplain
        | some b => exact he t a b
    | _ => cases s <;> exact hplain
  | _ =>
    cases y with
    | code n u => cases u <;> exact hplain
    | _ => exact hplain

theorem matchBlocks_swap
    (he : ∀ t a b, enter' (t.map Prod.swap) b a = (enter t a b).map (List.map Prod.swap))
    (xs : List Block) : ∀ (t : Trail) (ys : List Block),
      matchBlocks enter' (t.map Prod.swap) ys xs =
        (matchBlocks enter t xs ys).map (List.map Prod.swap) := by
  induction xs with
  | nil =>
    intro t ys
    cases ys <;> rfl
  | cons x xs ih =>
    intro t ys
    cases ys with
    | nil => rfl
    | cons y ys =>
      rw [matchBlocks, matchBlocks, matchBlock_swap he]
      cases matchBlock enter t x y with
      | none => rfl
      | some t₁ => exact ih t₁ ys

end

/-- **The walk with the graphs exchanged.** -/
theorem matchStacks_swap (h : Heap) (fuel : Nat) : ∀ (t : Trail) (a b : Loc),
    matchStacks h fuel (t.map Prod.swap) b a =
      (matchStacks h fuel t a b).map (List.map Prod.swap) := by
  induction fuel with
  | zero =>
    intro t a b
    rfl
  | succ fuel ih =>
    intro t a b
    have hmem : (t.map Prod.swap).contains (b, a) = t.contains (a, b) := by
      rw [Bool.eq_iff_iff]
      simp
    have hany : ((t.map Prod.swap).any fun p => p.1 == b || p.2 == a) =
        t.any fun p => p.1 == a || p.2 == b := by
      rw [List.any_map]
      congr 1
      funext p
      exact Bool.or_comm _ _
    rw [matchStacks, matchStacks, hmem, hany]
    split
    · rfl
    · split
      · rfl
      · exact matchBlocks_swap ih _ ((a, b) :: t) _

/-- **Which of two blocks comes first** does not matter for being equal. -/
theorem equals_comm (h : Heap) (x y : Block) : h.equals x y = h.equals y x := by
  have hwalk := matchBlock_swap (h.matchStacks_swap (h.size + 1)) [] x y
  rw [List.map_nil] at hwalk
  rw [equals, equals, hwalk, Option.isSome_map]

/-! ## Being equal to itself -/

/-- A block can be reached from another one: it is that block, or one of a stack that can be reached
from the stack that the block refers to. -/
def Contains (h : Heap) (x y : Block) : Prop :=
  y = x ∨ ∃ a, x.target? = some a ∧ ∃ s ∈ h.reachable a, y ∈ h.blocks s

/-- An isomorphism of a graph with itself that keeps the root keeps each stack. -/
theorem Isomorphism.eq_self {a s : Loc} {f : Loc → Loc} (hf : h.Isomorphism a a f)
    (hs : s ∈ h.reachable a) : f s = s := by
  induction hs with
  | refl => exact hf.root
  | @tail s s' hs hrefers ih =>
    obtain ⟨x, hx, htarget⟩ := hrefers
    have hmatched := hf.matched hs
    rw [ih, List.forall₂_same] at hmatched
    obtain ⟨u, hu, -, hpartner⟩ := (hmatched x hx).target_left htarget
    rw [hpartner]
    exact Option.some.inj (hu.symm.trans htarget)

/-- A stack is equal to itself unless NaN can be reached from it. -/
theorem stackEquals_self_iff {a : Loc} :
    h.stackEquals a a = true ↔ ∀ s ∈ h.reachable a, ∀ y ∈ h.blocks s, y.isNaN = false := by
  constructor
  · intro hequal s hs y hy
    obtain ⟨t, ht⟩ := Option.isSome_iff_exists.1 hequal
    obtain ⟨f, hf⟩ := isomorphic_of_matchStacks ht
    have hmatched := hf.matched hs
    rw [hf.eq_self hs, List.forall₂_same] at hmatched
    exact Block.isNaN_of_matched_self (hmatched y hy)
  · intro hnan
    have hself : h.Isomorphism a a id := by
      refine ⟨Set.bijOn_id _, rfl, fun s hs => ?_⟩
      rw [id_eq, List.forall₂_same]
      intro y hy
      exact corresponds_iff_matched.2 (Block.matched_self (fun _ _ => rfl) (hnan s hs y hy))
    obtain ⟨t, ht, -⟩ := matchStacks_of_isomorphism hself (h.size + 1) .refl
      (fun p hp => absurd hp List.not_mem_nil) (Nat.lt_succ_of_le (h.unmet_le_size []))
    rw [stackEquals]
    exact Option.isSome_iff_exists.2 ⟨t, ht⟩

theorem equals_of_target? {x : Block} {a : Loc} (hx : x.target? = some a) :
    h.equals x x = h.stackEquals a a := by
  cases x with
  | null | package | data =>
    cases hx
    rfl
  | code m t =>
    obtain rfl : t = some a := hx
    rfl
  | _ => cases hx

/-- A block that refers to no stack and is no call is compared without a look at the heap. -/
theorem equals_eq_plainEquals {x : Block} (hstack : x.stack? = none)
    (hcall : ∀ m t, x ≠ .code m t) (h : Heap) (y : Block) : h.equals x y = x.plainEquals y := by
  have hplain : ((if x.plainEquals y then some [] else none : Option Trail)).isSome =
      x.plainEquals y := by
    cases x.plainEquals y <;> rfl
  cases x with
  | null | data | package => cases hstack
  | code m t => exact absurd rfl (hcall m t)
  | _ => exact hplain

theorem equals_of_target?_eq_none {x : Block} (hx : x.target? = none) :
    h.equals x x = !x.isNaN := by
  cases x with
  | null | data | package => cases hx
  | code m t =>
    obtain rfl : t = none := hx
    simp [equals, matchBlock, Block.stack?, Block.isNaN, Block.fraction?]
  | _ =>
    rw [equals_eq_plainEquals rfl (by simp)]
    exact Block.plainEquals_self rfl (by simp)

/-- A block is equal to itself unless NaN can be reached from it. -/
theorem equals_self_iff {x : Block} :
    h.equals x x = true ↔ ∀ y, h.Contains x y → y.isNaN = false := by
  cases hx : x.target? with
  | some a =>
    rw [equals_of_target? hx, stackEquals_self_iff]
    constructor
    · rintro hnan y (rfl | ⟨b, hb, s, hs, hy⟩)
      · exact Block.isNaN_of_target? hx
      · obtain rfl := Option.some.inj (hx.symm.trans hb)
        exact hnan s hs y hy
    · exact fun hnan s hs y hy => hnan y (.inr ⟨a, hx, s, hs, hy⟩)
  | none =>
    have honly : (∀ y, h.Contains x y → y.isNaN = false) ↔ x.isNaN = false := by
      constructor
      · exact fun hnan => hnan x (.inl rfl)
      · rintro hnan y (rfl | ⟨a, ha, -⟩)
        · exact hnan
        · rw [hx] at ha
          cases ha
    rw [honly, equals_of_target?_eq_none hx]
    simp

/-- **Equality of blocks is symmetric**, and a block is equal to itself if and only if no number
that is NaN can be reached from it. -/
theorem equals_symmetric_reflexive (h : Heap) :
    (∀ x y, h.equals x y = h.equals y x) ∧
      ∀ x, h.equals x x = true ↔ ∀ y, h.Contains x y → y.isNaN = false :=
  ⟨h.equals_comm, fun _ => equals_self_iff⟩

end Heap

end BlockMachine
