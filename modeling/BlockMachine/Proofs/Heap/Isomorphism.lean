import BlockMachine.Proofs.Heap.Relocation
import Mathlib.Data.Set.Function
import Mathlib.Logic.Relation

/-!
# Equality of stacks is isomorphism

The walk that compares two stacks decides whether the graphs that hang on them are isomorphic.

* `Heap.reachable` — the stacks that can be reached from a stack;
* `Heap.Corresponds`, `Heap.Isomorphic` — corresponding blocks, and a one-to-one correspondence
  between all that is reachable from two stacks;
* `Heap.walk` — the walk again, where being cut short is an answer of its own; `walk_eq` — with as
  many levels as the heap has stacks it is not cut short, because each level enters a new stack;
* `matchStacks_grown` — what a trail has gained when a walk succeeds; the trail of a whole walk is
  the correspondence;
* `matchStacks_of_isomorphism` — a walk along a correspondence succeeds;
* `stackEquals_decides_isomorphism` — both together.
-/

namespace BlockMachine

namespace Block

namespace Matched

variable {paired other : Loc → Loc → Prop} {x y : Block}

/-- The pairs that matter are those of the stacks that the blocks refer to. -/
theorem of_targets
    (h : ∀ a b, x.target? = some a → y.target? = some b → paired a b → other a b)
    (hxy : Matched paired x y) : Matched other x y := by
  cases hxy with
  | stack left right partners =>
    exact .stack left right (h _ _ (target?_of_stack? left) (target?_of_stack? right) partners)
  | bound partners => exact .bound (h _ _ rfl rfl partners)
  | unbound name => exact .unbound name
  | plain equal => exact .plain equal

/-- What the first of two matching blocks refers to has a partner. -/
theorem target_left (hxy : Matched paired x y) {a : Loc} (ha : x.target? = some a) :
    ∃ b, y.target? = some b ∧ paired a b := by
  cases hxy with
  | stack left right partners =>
    obtain rfl := Option.some.inj ((target?_of_stack? left).symm.trans ha)
    exact ⟨_, target?_of_stack? right, partners⟩
  | bound partners =>
    obtain rfl := Option.some.inj ha
    exact ⟨_, rfl, partners⟩
  | unbound name => cases ha
  | plain equal =>
    rw [(target?_of_plainEquals equal).1] at ha
    cases ha

/-- What the second of two matching blocks refers to has a partner. -/
theorem target_right (hxy : Matched paired x y) {b : Loc} (hb : y.target? = some b) :
    ∃ a, x.target? = some a ∧ paired a b := by
  cases hxy with
  | stack left right partners =>
    obtain rfl := Option.some.inj ((target?_of_stack? right).symm.trans hb)
    exact ⟨_, target?_of_stack? left, partners⟩
  | bound partners =>
    obtain rfl := Option.some.inj hb
    exact ⟨_, rfl, partners⟩
  | unbound name => cases hb
  | plain equal =>
    rw [(target?_of_plainEquals equal).2] at hb
    cases hb

end Matched

end Block

namespace Heap

variable {h : Heap}

/-! ## Correspondences -/

/-- A stack holds a block that refers to another stack. -/
def Refers (h : Heap) (s t : Loc) : Prop :=
  ∃ x ∈ h.blocks s, x.target? = some t

/-- The stacks that can be reached from a stack. -/
def reachable (h : Heap) (a : Loc) : Set Loc :=
  { s | Relation.ReflTransGen h.Refers a s }

/-- Two blocks correspond: both hold stacks, or are bound calls, and these correspond; both are
unbound calls of one name; or they are none of these and equal. -/
inductive Corresponds (h : Heap) (paired : Loc → Loc → Prop) : Block → Block → Prop where
  | stack {x y : Block} {a b : Loc} (left : x.stack? = some a) (right : y.stack? = some b)
      (partners : paired a b) : Corresponds h paired x y
  | bound {m n : String} {a b : Loc} (partners : paired a b) :
      Corresponds h paired (.code m (some a)) (.code n (some b))
  | unbound (name : String) : Corresponds h paired (.code name none) (.code name none)
  | other {x y : Block} (kinds : ¬ (x.stack?.isSome ∧ y.stack?.isSome))
      (calls : ∀ m s n t, x = .code m s → y = .code n t → s.isSome ≠ t.isSome)
      (equal : h.equals x y = true) : Corresponds h paired x y

/-- A one-to-one correspondence between what is reachable from two stacks, which pairs these two and
under which stacks in pairs hold corresponding blocks. -/
structure Isomorphism (h : Heap) (a b : Loc) (f : Loc → Loc) : Prop where
  bijective : Set.BijOn f (h.reachable a) (h.reachable b)
  root : f a = b
  blocks : ∀ s ∈ h.reachable a,
    List.Forall₂ (h.Corresponds fun s t => f s = t) (h.blocks s) (h.blocks (f s))

/-- The graphs that hang on two stacks are isomorphic. -/
def Isomorphic (h : Heap) (a b : Loc) : Prop :=
  ∃ f, h.Isomorphism a b f

/-- Equality does not look at stacks where there are none to look at. -/
theorem corresponds_iff_matched {paired : Loc → Loc → Prop} {x y : Block} :
    h.Corresponds paired x y ↔ Block.Matched paired x y := by
  constructor
  · intro hxy
    cases hxy with
    | stack left right partners => exact .stack left right partners
    | bound partners => exact .bound partners
    | unbound name => exact .unbound name
    | other kinds calls equal =>
      simp only [equals, matchBlock] at equal
      split at equal
      case h_1 left right => exact absurd ⟨by rw [left]; rfl, by rw [right]; rfl⟩ kinds
      case h_2 _ =>
        split at equal
        case h_1 => exact (calls _ _ _ _ rfl rfl rfl).elim
        case h_2 => exact (calls _ _ _ _ rfl rfl rfl).elim
        case h_3 =>
          split at equal
          case isTrue hplain => exact .plain hplain
          case isFalse _ => cases equal
  · intro hxy
    cases hxy with
    | stack left right partners => exact .stack left right partners
    | bound partners => exact .bound partners
    | unbound name => exact .unbound name
    | plain equal =>
      obtain ⟨hx, hy⟩ := Block.target?_of_plainEquals equal
      refine .other ?_ ?_ ?_
      · rintro ⟨hsome, -⟩
        obtain ⟨a, ha⟩ := Option.isSome_iff_exists.1 hsome
        rw [Block.target?_of_stack? ha] at hx
        cases hx
      · rintro m s n t rfl rfl
        cases equal
      · rw [equals, matchBlock_of_plainEquals equal]
        rfl

/-! ## The walk ends -/

/-- The pair of stacks that a pair of blocks sends the walk into. -/
def branch? (x y : Block) : Option (Loc × Loc) :=
  match x.stack?, y.stack? with
  | some a, some b => some (a, b)
  | _, _ =>
    match x, y with
    | .code _ (some a), .code _ (some b) => some (a, b)
    | _, _ => none

/-- Two lists of blocks, position by position. The answer is `none` when a walk that `enter` started
was cut short. -/
def walkBlocks (enter : Trail → Loc → Loc → Option (Option Trail)) :
    Trail → List Block → List Block → Option (Option Trail)
  | t, [], [] => some (some t)
  | t, x :: xs, y :: ys =>
    let found := match branch? x y with
      | some (a, b) => enter t a b
      | none => some (matchBlock (fun _ _ _ => none) t x y)
    found.bind fun
      | some t => walkBlocks enter t xs ys
      | none => some none
  | _, _, _ => some none

/-- Walks two stacks in step, and no deeper than a number of levels. The answer is `none` when that
cuts the walk short. -/
def walk (h : Heap) : Nat → Trail → Loc → Loc → Option (Option Trail)
  | 0, _, _, _ => none
  | depth + 1, t, a, b =>
    if t.contains (a, b) then some (some t)
    else if t.any fun p => p.1 == a || p.2 == b then some none
    else walkBlocks (walk h depth) ((a, b) :: t) (h.blocks a) (h.blocks b)

/-- A pair of blocks that sends the walk into a pair of stacks. -/
theorem branch?_eq_some {x y : Block} {a b : Loc} (hbranch : branch? x y = some (a, b)) :
    x.target? = some a ∧ y.target? = some b ∧
      (∀ enter t, matchBlock enter t x y = enter t a b) ∧
      ∀ paired : Loc → Loc → Prop, paired a b → Block.Matched paired x y := by
  unfold branch? at hbranch
  split at hbranch
  case h_1 left right =>
    cases hbranch
    refine ⟨Block.target?_of_stack? left, Block.target?_of_stack? right, ?_, ?_⟩
    · intro enter t
      simp only [matchBlock, left, right]
    · exact fun paired => .stack left right
  case h_2 _ =>
    split at hbranch
    case h_1 =>
      cases hbranch
      exact ⟨rfl, rfl, fun enter t => rfl, fun paired => .bound⟩
    case h_2 => cases hbranch

/-- A pair of blocks at which the walk goes on, or ends. -/
theorem branch?_eq_none {x y : Block} (hbranch : branch? x y = none) :
    ((∀ enter t, matchBlock enter t x y = some t) ∧
        ∀ paired : Loc → Loc → Prop, Block.Matched paired x y) ∨
      ∀ enter t, matchBlock enter t x y = none := by
  unfold branch? at hbranch
  split at hbranch
  case h_1 => cases hbranch
  case h_2 hstacks =>
    split at hbranch
    case h_1 => cases hbranch
    case h_2 hbound =>
      by_cases hplain : x.plainEquals y = true
      · exact .inl ⟨fun enter t => matchBlock_of_plainEquals hplain, fun paired => .plain hplain⟩
      · by_cases hunbound : ∃ m n, x = .code m none ∧ y = .code n none
        · obtain ⟨m, n, rfl, rfl⟩ := hunbound
          by_cases hname : m = n
          · subst hname
            exact .inl ⟨fun enter t => by simp [matchBlock, Block.stack?], fun paired => .unbound m⟩
          · exact .inr fun enter t => by simp [matchBlock, Block.stack?, hname]
        · refine .inr fun enter t => ?_
          unfold matchBlock
          split
          case h_1 left right => exact absurd right (hstacks _ _ left)
          case h_2 => 
            split
            case h_1 => exact absurd rfl (hbound _ _ _ _ rfl)
            case h_2 => exact absurd ⟨_, _, rfl, rfl⟩ hunbound
            case h_3 => rw [if_neg hplain]

theorem matchBlock_of_branch?_eq_none {x y : Block} (hbranch : branch? x y = none)
    (enter enter' : Trail → Loc → Loc → Option Trail) (t : Trail) :
    matchBlock enter t x y = matchBlock enter' t x y := by
  rcases branch?_eq_none hbranch with ⟨hsame, -⟩ | hdiffer
  · rw [hsame, hsame]
  · rw [hdiffer, hdiffer]

/-- If no walk from the trails that are left is cut short, comparing blocks is not either. -/
theorem walkBlocks_eq {enter : Trail → Loc → Loc → Option Trail}
    {enter' : Trail → Loc → Loc → Option (Option Trail)} {t₀ : Trail} (hlengthens : Lengthens enter)
    (henter : ∀ t a b, t₀ ⊆ t → enter' t a b = some (enter t a b)) (xs : List Block) :
    ∀ {t : Trail} (ys : List Block), t₀ ⊆ t →
      walkBlocks enter' t xs ys = some (matchBlocks enter t xs ys) := by
  induction xs with
  | nil =>
    intro t ys _
    cases ys <;> rfl
  | cons x xs ih =>
    intro t ys hsub
    cases ys with
    | nil => rfl
    | cons y ys =>
      have hfound : (match branch? x y with
          | some (a, b) => enter' t a b
          | none => some (matchBlock (fun _ _ _ => none) t x y)) =
          some (matchBlock enter t x y) := by
        split
        case h_1 hbranch => rw [henter _ _ _ hsub, (branch?_eq_some hbranch).2.2.1]
        case h_2 hbranch => rw [matchBlock_of_branch?_eq_none hbranch _ enter]
      rw [walkBlocks, matchBlocks, hfound, Option.bind_some]
      cases hm : matchBlock enter t x y with
      | none => rfl
      | some t₁ => exact ih ys (List.Subset.trans hsub (hlengthens.matchBlock hm))

/-- With more levels than there are stacks left, a walk is not cut short. -/
theorem walk_eq (h : Heap) (depth : Nat) :
    ∀ {t : Trail} (a b : Loc), h.unmet (t.map Prod.fst) < depth →
      h.walk depth t a b = some (h.matchStacks depth t a b) := by
  induction depth with
  | zero =>
    intro t a b hlt
    exact absurd hlt (Nat.not_lt_zero _)
  | succ depth ih =>
    intro t a b hlt
    rw [walk, matchStacks]
    split
    case isTrue _ => rfl
    case isFalse _ =>
      split
      case isTrue _ => rfl
      case isFalse hnew =>
        cases hblocks : h.blocks a with
        | nil => cases h.blocks b <;> rfl
        | cons x xs =>
          have hless := unmet_lt_of_enter hblocks hnew
          refine walkBlocks_eq (matchStacks_lengthens h depth) ?_ _ _ (List.Subset.refl _)
          intro t' a' b' hsub
          have hle : h.unmet (t'.map Prod.fst) ≤ h.unmet (a :: t.map Prod.fst) :=
            h.unmet_le_of_subset (List.map_subset Prod.fst hsub)
          exact ih a' b' (by omega)

/-! ## The trail is a correspondence -/

/-- No stack of a trail has two partners. -/
def OneToOne (t : Trail) : Prop :=
  ∀ p ∈ t, ∀ q ∈ t, p.1 = q.1 ↔ p.2 = q.2

/-- The blocks of a pair of stacks match, given the pairs of a trail. -/
def Filled (h : Heap) (t : Trail) (p : Loc × Loc) : Prop :=
  List.Forall₂ (Block.Matched fun a b => (a, b) ∈ t) (h.blocks p.1) (h.blocks p.2)

/-- What a trail has gained: pairs within `scope`, with matching blocks. -/
structure Grown (h : Heap) (scope : Loc → Loc → Prop) (t t' : Trail) : Prop where
  keeps : t ⊆ t'
  oneToOne : OneToOne t → OneToOne t'
  gained : ∀ p ∈ t', p ∈ t ∨ scope p.1 p.2 ∧ h.Filled t' p

theorem Filled.mono {t t' : Trail} (hsub : t ⊆ t') {p : Loc × Loc} (hp : h.Filled t p) :
    h.Filled t' p :=
  hp.imp fun _ _ hxy => hxy.of_targets fun _ _ _ _ hab => hsub hab

variable {scope : Loc → Loc → Prop}

theorem Grown.refl (t : Trail) : Grown h scope t t :=
  ⟨List.Subset.refl t, id, fun _ hp => .inl hp⟩

theorem Grown.trans {t t₁ t₂ : Trail} (h₁ : Grown h scope t t₁) (h₂ : Grown h scope t₁ t₂) :
    Grown h scope t t₂ where
  keeps := List.Subset.trans h₁.keeps h₂.keeps
  oneToOne ht := h₂.oneToOne (h₁.oneToOne ht)
  gained p hp := by
    rcases h₂.gained p hp with hp₁ | hp₁
    · exact (h₁.gained p hp₁).imp id fun ⟨hscope, hfilled⟩ => ⟨hscope, hfilled.mono h₂.keeps⟩
    · exact .inr hp₁

/-- Entering a pair of stacks within `scope` puts it on the trail. -/
def Enters (h : Heap) (scope : Loc → Loc → Prop) (enter : Trail → Loc → Loc → Option Trail) :
    Prop :=
  ∀ {t t' : Trail} {a b : Loc}, scope a b → enter t a b = some t' →
    Grown h scope t t' ∧ (a, b) ∈ t'

section

variable {enter : Trail → Loc → Loc → Option Trail}

theorem Enters.matchBlock (he : Enters h scope enter) {t t' : Trail} {x y : Block}
    (hscope : ∀ a b, x.target? = some a → y.target? = some b → scope a b)
    (hm : matchBlock enter t x y = some t') :
    Grown h scope t t' ∧ Block.Matched (fun a b => (a, b) ∈ t') x y := by
  cases hbranch : branch? x y with
  | some p =>
    obtain ⟨a, b⟩ := p
    obtain ⟨hx, hy, henter, hmatched⟩ := branch?_eq_some hbranch
    rw [henter] at hm
    obtain ⟨hgrown, hmem⟩ := he (hscope a b hx hy) hm
    exact ⟨hgrown, hmatched _ hmem⟩
  | none =>
    rcases branch?_eq_none hbranch with ⟨hsame, hmatched⟩ | hdiffer
    · rw [hsame] at hm
      obtain rfl := Option.some.inj hm
      exact ⟨Grown.refl t, hmatched _⟩
    · rw [hdiffer] at hm
      cases hm

theorem Enters.matchBlocks (he : Enters h scope enter) (xs : List Block) :
    ∀ {t t' : Trail} {ys : List Block},
      (∀ x ∈ xs, ∀ y ∈ ys, ∀ a b, x.target? = some a → y.target? = some b → scope a b) →
      matchBlocks enter t xs ys = some t' →
      Grown h scope t t' ∧ List.Forall₂ (Block.Matched fun a b => (a, b) ∈ t') xs ys := by
  induction xs with
  | nil =>
    intro t t' ys _ hm
    cases ys with
    | nil =>
      obtain rfl := Option.some.inj hm
      exact ⟨Grown.refl t, .nil⟩
    | cons y ys => cases hm
  | cons x xs ih =>
    intro t t' ys hscope hm
    cases ys with
    | nil => cases hm
    | cons y ys =>
      obtain ⟨t₁, hhead, htail⟩ := Option.bind_eq_some_iff.1 hm
      obtain ⟨hgrown, hmatched⟩ :=
        he.matchBlock (hscope x List.mem_cons_self y List.mem_cons_self) hhead
      obtain ⟨hgrown', hrest⟩ := ih (fun x hx y hy =>
        hscope x (List.mem_cons_of_mem _ hx) y (List.mem_cons_of_mem _ hy)) htail
      exact ⟨hgrown.trans hgrown',
        .cons (hmatched.of_targets fun _ _ _ _ hab => hgrown'.keeps hab) hrest⟩

end

/-- A pair of which neither stack was met keeps a trail one-to-one. -/
theorem OneToOne.cons {t : Trail} (ht : OneToOne t) {a b : Loc}
    (hnew : ∀ p ∈ t, p.1 ≠ a ∧ p.2 ≠ b) : OneToOne ((a, b) :: t) := by
  intro p hp q hq
  rcases List.mem_cons.1 hp with rfl | hp <;> rcases List.mem_cons.1 hq with rfl | hq
  · exact ⟨fun _ => rfl, fun _ => rfl⟩
  · exact iff_of_false (hnew q hq).1.symm (hnew q hq).2.symm
  · exact iff_of_false (hnew p hp).1 (hnew p hp).2
  · exact ht p hp q hq

/-- **What a walk has gained.** The scope has to be closed under going on from a pair of stacks. -/
theorem matchStacks_grown (h : Heap) (scope : Loc → Loc → Prop)
    (hclosed : ∀ a b, scope a b → ∀ a' b', h.Refers a a' → h.Refers b b' → scope a' b')
    (fuel : Nat) : Enters h scope (matchStacks h fuel) := by
  induction fuel with
  | zero =>
    intro t t' a b _ hm
    cases hm
  | succ fuel ih =>
    intro t t' a b hab hm
    rw [matchStacks] at hm
    split at hm
    case isTrue hmet =>
      obtain rfl := Option.some.inj hm
      exact ⟨Grown.refl t, List.contains_iff_mem.1 hmet⟩
    case isFalse _ =>
      split at hm
      case isTrue _ => cases hm
      case isFalse hnew =>
        obtain ⟨hgrown, hblocks⟩ := ih.matchBlocks _ (fun x hx y hy a' b' hx' hy' =>
          hclosed a b hab a' b' ⟨x, hx, hx'⟩ ⟨y, hy, hy'⟩) hm
        have hfresh : ∀ p ∈ t, p.1 ≠ a ∧ p.2 ≠ b := by
          simpa [not_or] using hnew
        refine ⟨⟨fun p hp => hgrown.keeps (List.mem_cons_of_mem _ hp),
          fun ht => hgrown.oneToOne (ht.cons hfresh), ?_⟩, hgrown.keeps List.mem_cons_self⟩
        intro p hp
        rcases hgrown.gained p hp with hp | hp
        · rcases List.mem_cons.1 hp with rfl | hp
          · exact .inr ⟨hab, hblocks⟩
          · exact .inl hp
        · exact .inr hp

/-- A one-to-one trail all of whose pairs are filled. -/
structure Complete (h : Heap) (t : Trail) : Prop where
  oneToOne : OneToOne t
  filled : ∀ p ∈ t, h.Filled t p

theorem Complete.next_left {t : Trail} (ht : h.Complete t) {s s' u : Loc} (hmem : (s, u) ∈ t)
    (hrefers : h.Refers s s') : ∃ u', (s', u') ∈ t := by
  obtain ⟨x, hx, hx'⟩ := hrefers
  obtain ⟨n, hn, rfl⟩ := List.getElem_of_mem hx
  have hfilled := List.forall₂_iff_get.1 (ht.filled _ hmem)
  obtain ⟨u', -, hpair⟩ := (hfilled.2 n hn (hfilled.1 ▸ hn)).target_left hx'
  exact ⟨u', hpair⟩

theorem Complete.next_right {t : Trail} (ht : h.Complete t) {s u u' : Loc} (hmem : (s, u) ∈ t)
    (hrefers : h.Refers u u') : ∃ s', (s', u') ∈ t := by
  obtain ⟨y, hy, hy'⟩ := hrefers
  obtain ⟨n, hn, rfl⟩ := List.getElem_of_mem hy
  have hfilled := List.forall₂_iff_get.1 (ht.filled _ hmem)
  obtain ⟨s', -, hpair⟩ := (hfilled.2 n (hfilled.1 ▸ hn) hn).target_right hy'
  exact ⟨s', hpair⟩

/-- All that is reachable from one side of a pair is on the trail. -/
theorem Complete.covers_left {t : Trail} (ht : h.Complete t) {a b s : Loc} (hroot : (a, b) ∈ t)
    (hs : s ∈ h.reachable a) : ∃ u, (s, u) ∈ t := by
  induction hs with
  | refl => exact ⟨b, hroot⟩
  | tail _ hrefers ih =>
    obtain ⟨u, hu⟩ := ih
    exact ht.next_left hu hrefers

theorem Complete.covers_right {t : Trail} (ht : h.Complete t) {a b u : Loc} (hroot : (a, b) ∈ t)
    (hu : u ∈ h.reachable b) : ∃ s, (s, u) ∈ t := by
  induction hu with
  | refl => exact ⟨a, hroot⟩
  | tail _ hrefers ih =>
    obtain ⟨s, hs⟩ := ih
    exact ht.next_right hs hrefers

/-- The partners of the stacks of a one-to-one trail. -/
theorem OneToOne.exists_partner {t : Trail} (ht : OneToOne t) :
    ∃ f : Loc → Loc, ∀ s u, (s, u) ∈ t → f s = u := by
  have hpartner : ∀ s, ∃ u, ∀ u', (s, u') ∈ t → u = u' := by
    intro s
    by_cases hs : ∃ u, (s, u) ∈ t
    · obtain ⟨u, hu⟩ := hs
      exact ⟨u, fun u' hu' => (ht _ hu _ hu').1 rfl⟩
    · exact ⟨s, fun u' hu' => absurd ⟨u', hu'⟩ hs⟩
  choose f hf using hpartner
  exact ⟨f, hf⟩

/-- A complete trail within what is reachable is an isomorphism. -/
theorem Complete.isomorphic {t : Trail} (ht : h.Complete t) {a b : Loc} (hroot : (a, b) ∈ t)
    (hscope : ∀ p ∈ t, p.1 ∈ h.reachable a ∧ p.2 ∈ h.reachable b) : h.Isomorphic a b := by
  obtain ⟨f, hf⟩ := ht.oneToOne.exists_partner
  have hpair : ∀ s ∈ h.reachable a, (s, f s) ∈ t := by
    intro s hs
    obtain ⟨u, hu⟩ := ht.covers_left hroot hs
    rw [hf s u hu]
    exact hu
  refine ⟨f, ⟨?_, ?_, ?_⟩, hf a b hroot, ?_⟩
  · intro s hs
    exact (hscope _ (hpair s hs)).2
  · intro s hs s' hs' heq
    exact (ht.oneToOne _ (hpair s hs) _ (hpair s' hs')).2 heq
  · intro u hu
    obtain ⟨s, hs⟩ := ht.covers_right hroot hu
    exact ⟨s, (hscope _ hs).1, hf s u hs⟩
  · intro s hs
    refine (ht.filled _ (hpair s hs)).imp fun x y hxy => ?_
    exact corresponds_iff_matched.2 (hxy.of_targets fun a b _ _ hab => hf a b hab)

/-- Stacks that are equal are isomorphic. -/
theorem isomorphic_of_matchStacks {fuel : Nat} {t : Trail} {a b : Loc}
    (hm : matchStacks h fuel [] a b = some t) : h.Isomorphic a b := by
  obtain ⟨hgrown, hroot⟩ := matchStacks_grown h
    (fun s u => s ∈ h.reachable a ∧ u ∈ h.reachable b)
    (fun s u hsu s' u' hs hu => ⟨hsu.1.tail hs, hsu.2.tail hu⟩) fuel ⟨.refl, .refl⟩ hm
  have hgained : ∀ p ∈ t, (p.1 ∈ h.reachable a ∧ p.2 ∈ h.reachable b) ∧ h.Filled t p := by
    intro p hp
    exact (hgrown.gained p hp).resolve_left List.not_mem_nil
  have hcomplete : h.Complete t :=
    ⟨hgrown.oneToOne fun p hp => absurd hp List.not_mem_nil, fun p hp => (hgained p hp).2⟩
  exact hcomplete.isomorphic hroot fun p hp => (hgained p hp).1

/-! ## A correspondence carries the walk -/

/-- A trail all of whose pairs are partners. -/
def Follows (h : Heap) (a : Loc) (f : Loc → Loc) (t : Trail) : Prop :=
  ∀ p ∈ t, p.1 ∈ h.reachable a ∧ f p.1 = p.2

/-- Partners hold blocks that match, and these refer to reachable stacks. -/
theorem Isomorphism.matched {a b : Loc} {f : Loc → Loc} (hf : h.Isomorphism a b f) {s : Loc}
    (hs : s ∈ h.reachable a) :
    List.Forall₂ (Block.Matched fun s u => s ∈ h.reachable a ∧ f s = u) (h.blocks s)
      (h.blocks (f s)) := by
  refine List.forall₂_iff_zip.2 ⟨(hf.blocks s hs).length_eq, ?_⟩
  intro x y hxy
  have hmatched := corresponds_iff_matched.1 (List.forall₂_zip (hf.blocks s hs) hxy)
  refine hmatched.of_targets fun s' u' hs' _ hpair => ⟨?_, hpair⟩
  exact Relation.ReflTransGen.tail hs ⟨x, (List.of_mem_zip hxy).1, hs'⟩

/-- A walk along an isomorphism succeeds. -/
theorem matchStacks_of_isomorphism {a b : Loc} {f : Loc → Loc} (hf : h.Isomorphism a b f)
    (fuel : Nat) : ∀ {t : Trail} {s : Loc}, s ∈ h.reachable a → h.Follows a f t →
      h.unmet (t.map Prod.fst) < fuel →
      ∃ t', matchStacks h fuel t s (f s) = some t' ∧ h.Follows a f t' := by
  induction fuel with
  | zero =>
    intro t s _ _ hlt
    exact absurd hlt (Nat.not_lt_zero _)
  | succ fuel ih =>
    intro t s hs ht hlt
    rw [matchStacks]
    split
    case isTrue _ => exact ⟨t, rfl, ht⟩
    case isFalse hmem =>
      have hmem : (s, f s) ∉ t := by simpa using hmem
      split
      case isTrue hmet =>
        -- a stack that was met was met with its partner
        obtain ⟨p, hp, hmet⟩ := List.any_eq_true.1 hmet
        obtain ⟨hreach, hpartner⟩ := ht p hp
        have heq : p.1 = s := by
          rcases (by simpa using hmet : p.1 = s ∨ p.2 = f s) with heq | heq
          · exact heq
          · exact hf.bijective.injOn hreach hs (hpartner.trans heq)
        have hpair : p = (s, f s) := Prod.ext heq (by rw [← hpartner, heq])
        exact absurd (hpair ▸ hp) hmem
      case isFalse hnew =>
        have hcons : h.Follows a f ((s, f s) :: t) := by
          intro p hp
          rcases List.mem_cons.1 hp with rfl | hp
          · exact ⟨hs, rfl⟩
          · exact ht p hp
        have hmatched := hf.matched hs
        cases hblocks : h.blocks s with
        | nil =>
          rw [hblocks, List.forall₂_nil_left_iff] at hmatched
          rw [hmatched]
          exact ⟨_, rfl, hcons⟩
        | cons x xs =>
          have hless := unmet_lt_of_enter hblocks hnew
          rw [hblocks] at hmatched
          obtain ⟨t', hm, ht', -⟩ := matchBlocks_of_matched
            (fun t₁ s₁ u₁ (ht₁ : h.Follows a f t₁ ∧ h.unmet (t₁.map Prod.fst) < fuel) hpair => by
              obtain ⟨hs₁, rfl⟩ := hpair
              obtain ⟨t₂, hm₂, ht₂⟩ := ih hs₁ ht₁.1 ht₁.2
              have hle := h.unmet_le_of_subset
                (List.map_subset Prod.fst (matchStacks_lengthens h fuel hm₂))
              exact ⟨t₂, hm₂, ht₂, Nat.lt_of_le_of_lt hle ht₁.2⟩)
            ⟨hcons, by simp only [List.map_cons]; omega⟩ hmatched
          exact ⟨t', hm, ht'⟩

/-- The walk ends without being cut short, and two stacks are equal if and only if the graphs that
hang on them are isomorphic. -/
theorem stackEquals_decides_isomorphism (h : Heap) (a b : Loc) :
    h.walk (h.size + 1) [] a b = some (h.matchStacks (h.size + 1) [] a b) ∧
      (h.stackEquals a b = true ↔ h.Isomorphic a b) := by
  have hbound : h.unmet [] < h.size + 1 := Nat.lt_succ_of_le (h.unmet_le_size [])
  refine ⟨h.walk_eq _ a b hbound, ?_, ?_⟩
  · intro hequal
    obtain ⟨t, ht⟩ := Option.isSome_iff_exists.1 hequal
    exact isomorphic_of_matchStacks ht
  · rintro ⟨f, hf⟩
    obtain ⟨t, ht, -⟩ :=
      matchStacks_of_isomorphism hf _ .refl (fun p hp => absurd hp List.not_mem_nil) hbound
    rw [hf.root] at ht
    rw [stackEquals, ht]
    rfl

end Heap

end BlockMachine
