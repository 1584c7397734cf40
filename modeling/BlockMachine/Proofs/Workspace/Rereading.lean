import BlockMachine.Proofs.Workspace.Building
import BlockMachine.Proofs.Workspace.WrittenText

/-!
# A block and what is read for it

A block that survives on its own was compared with what one reading made of it, in one heap. Here
the outcome of that comparison is stated without the heap: it holds of whatever is made of the same
literal, wherever its stacks are put. Packages may nest, so the outcome is a tree.

* `SurvivesIn` — a block that is written and read in a grammar is the same afterwards;
* `Loose` — blocks that agree and are not bound, down to the last package;
* `Twin` — blocks that agree: loose ones, and blocks bound to partners;
* `SurvivesIn.twin` — a block and what is made of its text and bound are twins;
* `resolve_of_boundTo?`, `boundTo?_resolve` — what resolving does to a block.
-/

namespace BlockMachine

/-- A block that is written and read on its own in a grammar is the same afterwards, whatever is
rolled. -/
def SurvivesIn (g : Grammar) (l : Localizer) (h : Heap) (b : Block) : Prop :=
  ∀ dice, Reread h b ((g.literal (h.written b)).make l ⟨h, dice⟩)

/-- A block is within a stack if it is one of its blocks, or within the stack that one of these has
for itself. -/
inductive Heap.Within (h : Heap) : Loc → Block → Prop where
  | here {c : Loc} {w : Block} (mem : w ∈ h.blocks c) : Within h c w
  | inner {c e : Loc} {v w : Block} (mem : v ∈ h.blocks c) (own : v.ownStack? = some e)
      (deep : Within h e w) : Within h c w

/-! ## Resolving -/

namespace Workspace

variable {ws : Workspace} {h : Heap} {b : Block}

/-- A stack that is found has the name that was looked for. -/
theorem nameOf_of_find? {name : String} {loc : Loc} (hloc : ws.find? h name = some loc) :
    h.nameOf loc = name := by
  simpa using List.find?_some hloc

/-- A bound block stays as it is. -/
theorem resolve_of_boundTo? {loc : Loc} (hb : b.boundTo? = some loc) : ws.resolve h b = b := by
  cases b with
  | data found resolved =>
    cases resolved with
    | true => rfl
    | false => cases hb
  | code name target =>
    cases target with
    | some found => rfl
    | none => cases hb
  | _ => cases hb

/-- So does a block that is no reference. -/
theorem resolve_of_reference?_eq_none (hb : h.reference? b = none) : ws.resolve h b = b := by
  cases b with
  | data loc resolved => cases hb
  | code name target => cases hb
  | _ => rfl

/-- A reference that is not bound is bound to the first stack of its name. -/
theorem boundTo?_resolve {name : String} (hb : b.boundTo? = none)
    (hname : h.reference? b = some name) : (ws.resolve h b).boundTo? = ws.find? h name := by
  cases b with
  | data loc resolved =>
    cases resolved with
    | true => cases hb
    | false =>
      obtain rfl := Option.some.inj hname
      simp only [resolve]
      cases hfound : ws.find? h (h.nameOf loc) <;> rfl
  | code other target =>
    cases target with
    | some loc => cases hb
    | none =>
      obtain rfl := Option.some.inj hname
      rfl
  | _ => cases hname

/-- Resolving a block does not change the name that it refers to. -/
theorem reference?_resolve (ws : Workspace) (h : Heap) (b : Block) :
    h.reference? (ws.resolve h b) = h.reference? b := by
  cases b with
  | data loc resolved =>
    cases resolved with
    | true => rfl
    | false =>
      simp only [resolve]
      cases hfound : ws.find? h (h.nameOf loc) with
      | none => rfl
      | some found => exact congrArg some (nameOf_of_find? hfound)
  | code name target => cases target <;> rfl
  | _ => rfl

end Workspace

/-! ## Twins -/

/-- Blocks that agree and are not bound: they hold no stack, or one of their own that is empty or
holds one such block. -/
inductive Loose (h : Heap) : Block → Block → Prop where
  | plain {y x : Block} (equal : y.plainEquals x = true) : Loose h y x
  | unbound (name : String) : Loose h (.code name none) (.code name none)
  | hollow {y x : Block} {d c : Loc} (left : y.ownStack? = some d) (right : x.ownStack? = some c)
      (leftEmpty : h.blocks d = []) (rightEmpty : h.blocks c = []) : Loose h y x
  | filled {y x z w : Block} {d c : Loc} (left : y.ownStack? = some d)
      (right : x.ownStack? = some c) (leftHolds : h.blocks d = [z]) (rightHolds : h.blocks c = [w])
      (inside : Loose h z w) : Loose h y x

/-- Blocks that agree, when blocks are bound to the partners that `linked` gives. -/
inductive Twin (h : Heap) (linked : Loc → Loc → Prop) : Block → Block → Prop where
  | loose {y x : Block} (loose : Loose h y x) : Twin h linked y x
  | data {d c : Loc} (partners : linked d c) : Twin h linked (.data d true) (.data c true)
  | code {m n : String} {d c : Loc} (partners : linked d c) :
      Twin h linked (.code m (some d)) (.code n (some c))

namespace Block

theorem ownStack?_of_stack? {b : Block} {c : Loc} (hc : b.stack? = some c)
    (hb : b.boundTo? = none) : b.ownStack? = some c := by
  cases b with
  | null loc | package loc => exact hc
  | data loc resolved =>
    cases resolved with
    | false => exact hc
    | true => cases hb
  | _ => cases hc

theorem target?_of_boundTo? {b : Block} {c : Loc} (h : b.boundTo? = some c) :
    b.target? = some c := by
  simp only [boundTo?] at h
  split at h <;> first | exact h | cases h

theorem boundTo?_of_ownStack? {b : Block} {c : Loc} (h : b.ownStack? = some c) :
    b.boundTo? = none := by
  simp only [ownStack?] at h
  split at h <;> first | rfl | cases h

theorem ownStack?_of_target? {b : Block} (h : b.target? = none) : b.ownStack? = none := by
  cases hown : b.ownStack? with
  | none => rfl
  | some c => rw [target?_of_ownStack? hown] at h; cases h

theorem boundTo?_of_target? {b : Block} (h : b.target? = none) : b.boundTo? = none := by
  cases hbound : b.boundTo? with
  | none => rfl
  | some c => rw [target?_of_boundTo? hbound] at h; cases h

/-- The stack of a block is one that it is bound to or one that it has for itself. -/
theorem boundTo?_or_ownStack?_of_target? {b : Block} {loc : Loc}
    (hb : b.target? = some loc) : b.boundTo? = some loc ∨ b.ownStack? = some loc := by
  cases b with
  | data own resolved =>
    cases resolved with
    | true => exact .inl hb
    | false => exact .inr hb
  | code name target => exact .inl hb
  | null own => exact .inr hb
  | package own => exact .inr hb
  | _ => cases hb

end Block

namespace Loose

variable {h : Heap} {y x : Block}

/-- Loose blocks are not bound. -/
theorem unbound_right (hl : Loose h y x) : x.boundTo? = none := by
  cases hl with
  | plain equal => exact Block.boundTo?_of_target? (Block.target?_of_plainEquals equal).2
  | unbound name => rfl
  | hollow _ right => exact Block.boundTo?_of_ownStack? right
  | filled _ right => exact Block.boundTo?_of_ownStack? right

/-- Loose blocks have stacks for themselves, or neither has. -/
theorem ownStack?_right (hl : Loose h y x) (hy : y.ownStack? = none) : x.ownStack? = none := by
  cases hl with
  | plain equal => exact Block.ownStack?_of_target? (Block.target?_of_plainEquals equal).2
  | unbound name => rfl
  | hollow left | filled left =>
    rw [left] at hy
    cases hy

/-- So the first of them has one if the second has. -/
theorem exists_own (hl : Loose h y x) {c : Loc} (hc : x.ownStack? = some c) :
    ∃ d, y.ownStack? = some d := by
  cases hy : y.ownStack? with
  | none =>
    rw [hl.ownStack?_right hy] at hc
    cases hc
  | some d => exact ⟨d, rfl⟩

/-- What loose blocks have for themselves is empty, or holds one loose block. -/
theorem own (hl : Loose h y x) {d c : Loc} (hd : y.ownStack? = some d) (hc : x.ownStack? = some c) :
    h.blocks d = [] ∧ h.blocks c = [] ∨
      ∃ z w, h.blocks d = [z] ∧ h.blocks c = [w] ∧ Loose h z w := by
  cases hl with
  | plain equal =>
    rw [Block.ownStack?_of_target? (Block.target?_of_plainEquals equal).1] at hd
    cases hd
  | unbound name => cases hd
  | hollow left right leftEmpty rightEmpty =>
    obtain rfl := Option.some.inj (left.symm.trans hd)
    obtain rfl := Option.some.inj (right.symm.trans hc)
    exact .inl ⟨leftEmpty, rightEmpty⟩
  | filled left right leftHolds rightHolds inside =>
    obtain rfl := Option.some.inj (left.symm.trans hd)
    obtain rfl := Option.some.inj (right.symm.trans hc)
    exact .inr ⟨_, _, leftHolds, rightHolds, inside⟩

end Loose

/-! ## What a comparison has found -/

section

variable {h : Heap} {t : Heap.Trail} {y x : Block}

/-- A block without a stack was compared as it is. -/
theorem loose_of_matchBlock {enter : Heap.Trail → Loc → Loc → Option Heap.Trail}
    (hy : y.target? = none) (hsome : (Heap.matchBlock enter t y x).isSome) (final : Heap) :
    Loose final y x := by
  simp only [Heap.matchBlock] at hsome
  split at hsome
  case h_1 a b ha hb =>
    rw [Block.target?_of_stack? ha] at hy
    cases hy
  case h_2 =>
    split at hsome
    case h_1 => cases hy
    case h_2 =>
      split at hsome
      case isTrue heq =>
        obtain rfl := beq_iff_eq.1 heq
        exact .unbound _
      case isFalse => cases hsome
    case h_3 =>
      split at hsome
      case isTrue equal => exact .plain equal
      case isFalse => cases hsome

/-- A block with a stack was compared with one that has a stack, and their blocks were compared. -/
theorem exists_of_matchBlock {fuel : Nat} {d : Loc} (hd : y.stack? = some d)
    (hnew : ∀ p ∈ t, p.1 ≠ d) (hsome : (Heap.matchBlock (Heap.matchStacks h fuel) t y x).isSome) :
    ∃ c fuel', x.stack? = some c ∧ (Heap.matchBlocks (Heap.matchStacks h fuel') ((d, c) :: t)
      (h.blocks d) (h.blocks c)).isSome := by
  have htarget := Block.target?_of_stack? hd
  simp only [Heap.matchBlock] at hsome
  split at hsome
  case h_1 d' c hd' hc =>
    obtain rfl := Option.some.inj (hd'.symm.trans hd)
    obtain ⟨fuel', hblocks⟩ := Heap.matchBlocks_of_matchStacks hnew hsome
    exact ⟨c, fuel', hc, hblocks⟩
  case h_2 =>
    -- without a stack on the other side, the two are not of one kind
    split at hsome
    case h_1 => cases hd
    case h_2 => cases hd
    case h_3 =>
      split at hsome
      case isTrue equal =>
        rw [(Block.target?_of_plainEquals equal).1] at htarget
        cases htarget
      case isFalse => cases hsome

end

/-! ## What is made of the text of a block -/

section

variable {l : Localizer} {h : Heap} {x : Block} {lit : Literal}

/-- What a comparison with a literal has found, for one way to make it. -/
structure Compared (l : Localizer) (h : Heap) (lit : Literal) (x : Block) (dice : Dice) : Prop where
  found : ∃ (walked : Heap) (fuel : Nat) (t : Heap.Trail),
    (lit.make l ⟨h, dice⟩).2.heap.Grows walked ∧
    (∀ p ∈ t, (lit.make l ⟨h, dice⟩).2.heap.size ≤ p.1) ∧
    (Heap.matchBlock (Heap.matchStacks walked fuel) t (lit.make l ⟨h, dice⟩).1 x).isSome

/-- A block that survives and is not bound was compared with the literal of its text. -/
theorem SurvivesIn.compared {g : Grammar} (hs : SurvivesIn g l h x) (hbound : x.boundTo? = none)
    (dice : Dice) : Compared l h (g.literal (h.written x)) x dice :=
  ⟨_, _, [], .refl _, List.forall_mem_nil _, (hs dice).equal hbound⟩

/-- A block that was compared with one that holds an empty stack holds an empty stack. -/
theorem Compared.hollow {dice : Dice} (hc : Compared l h lit x dice)
    (hx : ∀ c, x.target? = some c → c < h.size) {name : String}
    (hstack : (lit.make l ⟨h, dice⟩).1.stack? = some h.size)
    (hheap : (lit.make l ⟨h, dice⟩).2.heap = (h.alloc (Stack.make name [])).2) :
    ∃ c, x.stack? = some c ∧ h.blocks c = [] := by
  obtain ⟨walked, fuel, t, hgrows, htrail, hsome⟩ := hc.found
  rw [hheap] at hgrows htrail
  have hlt := Heap.size_lt_alloc h (Stack.make name [])
  obtain ⟨c, fuel', hxc, hblocks⟩ := exists_of_matchBlock hstack
    (fun p hp => Nat.ne_of_gt (Nat.lt_of_lt_of_le hlt (htrail p hp))) hsome
  have hempty : walked.blocks h.size = [] := by
    rw [Heap.blocks, hgrows.get hlt, Heap.get_alloc_size]
    rfl
  rw [hempty] at hblocks
  have hold : walked.blocks c = h.blocks c := by
    have hlow := hx c (Block.target?_of_stack? hxc)
    rw [Heap.blocks, hgrows.get (Nat.lt_trans hlow hlt), Heap.get_alloc_of_lt h _ hlow]
    rfl
  exact ⟨c, hxc, hold ▸ Heap.eq_nil_of_matchBlocks hblocks⟩

/-- A block that was compared with a package holds one block, and that was compared with the literal
inside. -/
theorem compared_inside {inner : Literal} (hc : ∀ dice, Compared l h (.package inner) x dice)
    (hx : ∀ c, x.target? = some c → c < h.size) :
    ∃ c w, x.stack? = some c ∧ h.blocks c = [w] ∧ ∀ dice, Compared l h inner w dice := by
  have hfound : ∀ dice, ∃ c w, x.stack? = some c ∧ h.blocks c = [w] ∧
      Compared l h inner w dice := by
    intro dice
    obtain ⟨walked, fuel, t, hgrows, htrail, hsome⟩ := (hc dice).found
    have hinner := Literal.make_grows l inner ⟨h, dice⟩
    have hsize : ((Literal.package inner).make l ⟨h, dice⟩).2.heap.size
        = (inner.make l ⟨h, dice⟩).2.heap.size + 1 := Heap.size_alloc _ _
    rw [hsize] at htrail
    obtain ⟨c, fuel', hxc, hblocks⟩ := exists_of_matchBlock
      (d := (inner.make l ⟨h, dice⟩).2.heap.size) rfl
      (fun p hp => Nat.ne_of_gt (htrail p hp)) hsome
    have hmade : walked.blocks (inner.make l ⟨h, dice⟩).2.heap.size
        = [(inner.make l ⟨h, dice⟩).1] :=
      congrArg Stack.blocks ((hgrows.get (by omega)).trans (Heap.get_alloc_size _ _))
    have hold : walked.blocks c = h.blocks c := by
      have hlow := hx c (Block.target?_of_stack? hxc)
      have hlow' := Nat.lt_of_lt_of_le hlow hinner.size
      exact congrArg Stack.blocks ((hgrows.get (by omega)).trans
        ((Heap.get_alloc_of_lt _ _ hlow').trans (hinner.get hlow)))
    rw [hmade, hold] at hblocks
    obtain ⟨w, hw, hsome⟩ := Heap.singleton_of_matchBlocks hblocks
    refine ⟨c, w, hxc, hw, walked, fuel', _, Heap.Grows.trans (.alloc _ _) hgrows, ?_, hsome⟩
    exact List.forall_mem_cons.2 ⟨Nat.le_refl _, fun p hp => Nat.le_of_lt (htrail p hp)⟩
  obtain ⟨c, w, hxc, hw, -⟩ := hfound (Dice.ofSeed 0)
  refine ⟨c, w, hxc, hw, fun dice => ?_⟩
  obtain ⟨c', w', hxc', hw', hcompared⟩ := hfound dice
  obtain rfl := Option.some.inj (hxc.symm.trans hxc')
  rw [hw] at hw'
  cases hw'
  exact hcompared

/-- **The comparison does not depend on the heap.** A block that was compared with a literal agrees
with whatever is made of it, if nothing in it is bound. -/
theorem loose_of_compared (hclosed : ∀ {a c b}, b ∈ h.blocks a → b.target? = some c → c < h.size)
    {final : Heap} (hgrows : h.Grows final) (hc : ∀ dice, Compared l h lit x dice)
    (hx : ∀ c, x.target? = some c → c < h.size) (hbound : x.boundTo? = none)
    (hinside : ∀ inner, lit = .package inner → ∀ c, x.ownStack? = some c →
      ∀ w, h.Within c w → w.boundTo? = none)
    {y : Block} (hy : Made l final lit y) : Loose final y x := by
  have hkept : ∀ {c}, c < h.size → final.blocks c = h.blocks c := by
    intro c hc
    rw [Heap.blocks, hgrows.get hc]
    rfl
  induction lit generalizing x y with
  | package inner ih =>
    obtain ⟨d, z, rfl, hz, hmade⟩ := hy
    obtain ⟨c, w, hxc, hw, hcompared⟩ := compared_inside hc hx
    have hown := Block.ownStack?_of_stack? hxc hbound
    have hmem : w ∈ h.blocks c := hw ▸ List.mem_singleton_self w
    have hlt := hx c (Block.target?_of_stack? hxc)
    refine .filled rfl hown hz ((hkept hlt).trans hw) (ih hcompared (fun e => hclosed hmem) ?_ ?_ hmade)
    · exact hinside inner rfl c hown w (.here hmem)
    · exact fun _ _ e he v hv => hinside inner rfl c hown v (.inner hmem he hv)
  | null =>
    obtain ⟨d, rfl, hd⟩ := hy
    obtain ⟨c, hxc, hempty⟩ := (hc (Dice.ofSeed 0)).hollow hx rfl rfl
    have hlt := hx c (Block.target?_of_stack? hxc)
    exact .hollow rfl (Block.ownStack?_of_stack? hxc hbound) hd ((hkept hlt).trans hempty)
  | data name =>
    obtain ⟨d, rfl, hd, -⟩ := hy
    obtain ⟨c, hxc, hempty⟩ := (hc (Dice.ofSeed 0)).hollow hx rfl rfl
    have hlt := hx c (Block.target?_of_stack? hxc)
    exact .hollow rfl (Block.ownStack?_of_stack? hxc hbound) hd ((hkept hlt).trans hempty)
  | _ =>
    obtain ⟨dice, rfl⟩ := hy
    obtain ⟨walked, fuel, t, -, -, hsome⟩ := (hc dice).found
    exact loose_of_matchBlock rfl hsome final

/-- What is made of a literal refers to the name in the literal. -/
theorem reference?_eq_of_made {final : Heap} {y : Block} (hy : Made l final lit y) :
    final.reference? y = lit.reference? := by
  cases lit with
  | null =>
    obtain ⟨d, rfl, -⟩ := hy
    rfl
  | data name =>
    obtain ⟨d, rfl, -, hname⟩ := hy
    exact congrArg some hname
  | package inner =>
    obtain ⟨d, z, rfl, -⟩ := hy
    rfl
  | _ =>
    obtain ⟨dice, rfl⟩ := hy
    rfl

/-- So that name does not depend on where it is made. -/
theorem reference?_of_made {final : Heap} {y : Block} (hy : Made l final lit y) (st : Store) :
    final.reference? y = (lit.make l st).2.heap.reference? (lit.make l st).1 :=
  (reference?_eq_of_made hy).trans
    (reference?_eq_of_made (Literal.make_made lit st fun _ _ _ => rfl)).symm

/-- What is made of a literal is not bound. -/
theorem boundTo?_of_made {final : Heap} {y : Block} (hy : Made l final lit y) :
    y.boundTo? = none := by
  cases lit with
  | null =>
    obtain ⟨d, rfl, -⟩ := hy
    rfl
  | data name =>
    obtain ⟨d, rfl, -⟩ := hy
    rfl
  | package inner =>
    obtain ⟨d, z, rfl, -⟩ := hy
    rfl
  | _ =>
    obtain ⟨dice, rfl⟩ := hy
    rfl

/-- What is made of a literal has the kind that the literal gives, wherever it is made. -/
theorem kind_of_made {final : Heap} {y : Block} (hy : Made l final lit y) (st : Store) :
    y.kind = (lit.make l st).1.kind := by
  cases lit with
  | null =>
    obtain ⟨d, rfl, -⟩ := hy
    rfl
  | data name =>
    obtain ⟨d, rfl, -⟩ := hy
    rfl
  | package inner =>
    obtain ⟨d, z, rfl, -⟩ := hy
    rfl
  -- the rolls need not be compared
  | randomInt bounds =>
    obtain ⟨dice, rfl⟩ := hy
    exact (rfl : Block.kind _ = .randomInt).trans (rfl : Kind.randomInt = Block.kind _)
  | randomReal bounds =>
    obtain ⟨dice, rfl⟩ := hy
    exact (rfl : Block.kind _ = .randomReal).trans (rfl : Kind.randomReal = Block.kind _)
  | randomBool =>
    obtain ⟨dice, rfl⟩ := hy
    exact (rfl : Block.kind _ = .randomBool).trans (rfl : Kind.randomBool = Block.kind _)
  | _ =>
    obtain ⟨dice, rfl⟩ := hy
    rfl

/-- A block that is not bound agrees with whatever is made of its text. -/
theorem SurvivesIn.loose {g : Grammar} (hs : SurvivesIn g l h x)
    (hclosed : ∀ {a c b}, b ∈ h.blocks a → b.target? = some c → c < h.size)
    (hx : ∀ c, x.target? = some c → c < h.size) (hbound : x.boundTo? = none)
    (hinside : ∀ c, x = .package c → ∀ w, h.Within c w → w.boundTo? = none)
    {final : Heap} (hgrows : h.Grows final) {y : Block}
    (hy : Made l final (g.literal (h.written x)) y) : Loose final y x := by
  refine loose_of_compared hclosed hgrows (hs.compared hbound) hx hbound ?_ hy
  intro inner hlit c hown
  have hkind := (hs (Dice.ofSeed 0)).kind
  rw [hlit] at hkind
  cases x with
  | package c' =>
    cases hown
    exact hinside c rfl
  | _ => cases hkind

/-- A block that is not bound and refers to a name that nothing has is left alone. -/
theorem resolve_of_unbound {ws : Workspace} {final : Heap} {y : Block} (hy : y.boundTo? = none)
    (hnone : ∀ name, final.reference? y = some name → ws.find? final name = none) :
    ws.resolve final y = y := by
  cases y with
  | data loc resolved =>
    cases resolved with
    | true => cases hy
    | false => simp [Workspace.resolve, hnone _ rfl]
  | code name target =>
    cases target with
    | some loc => cases hy
    | none => simp [Workspace.resolve, hnone _ rfl]
  | _ => rfl

/-- **A block and what is read for it are twins.** Its text is read, and what is made of it is bound
in a workspace that has partners of the stacks. -/
theorem SurvivesIn.twin {g : Grammar} (hs : SurvivesIn g l h x) {ws ws' : Workspace} {final : Heap}
    {linked : Loc → Loc → Prop}
    (hlinked : ∀ name, h.reference? x = some name → ws.find? h name = x.boundTo?)
    (hfound : ∀ name c, ws.find? h name = some c → ∃ d, ws'.find? final name = some d ∧ linked d c)
    (hnone : ∀ name, ws.find? h name = none → ws'.find? final name = none)
    (hclosed : ∀ {a c b}, b ∈ h.blocks a → b.target? = some c → c < h.size)
    (hx : ∀ c, x.target? = some c → c < h.size)
    (hinside : ∀ c, x = .package c → ∀ w, h.Within c w → w.boundTo? = none)
    (hgrows : h.Grows final) {y : Block}
    (hy : Made l final (g.literal (h.written x)) y) :
    Twin final linked (ws'.resolve final y) x := by
  have hreread := hs (Dice.ofSeed 0)
  have hname : final.reference? y = h.reference? x :=
    (reference?_of_made hy _).trans hreread.name
  have hunbound := boundTo?_of_made hy
  cases hbound : x.boundTo? with
  | none =>
    have hsame : ws'.resolve final y = y := by
      refine resolve_of_unbound hunbound fun name href => hnone name ?_
      rw [hlinked name (hname ▸ href), hbound]
    rw [hsame]
    exact .loose (hs.loose hclosed hx hbound hinside hgrows hy)
  | some c =>
    have hkind := hreread.kind
    generalize g.literal (h.written x) = lit at hkind hy
    cases x with
    | data loc resolved =>
      obtain rfl : resolved = true := by
        cases resolved with
        | true => rfl
        | false => cases hbound
      obtain ⟨d, hd, hpartners⟩ := hfound _ _ (hlinked _ rfl)
      cases lit with
      | data name =>
        obtain ⟨e, rfl, -⟩ := hy
        obtain he : final.nameOf e = h.nameOf loc := Option.some.inj hname
        simp only [Workspace.resolve, he, hd]
        exact .data hpartners
      | _ => cases hkind
    | code name target =>
      obtain rfl : target = some c := hbound
      obtain ⟨d, hd, hpartners⟩ := hfound _ _ (hlinked _ rfl)
      cases lit with
      | code name' =>
        obtain ⟨dice, rfl⟩ := hy
        obtain rfl : name' = name := Option.some.inj hname
        change Twin final linked (.code name' (ws'.find? final name')) _
        rw [hd]
        exact .code hpartners
      | _ => cases hkind
    | _ => cases hbound

end

end BlockMachine
