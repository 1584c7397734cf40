import BlockMachine.Proofs.Machine.References
import BlockMachine.Workspace.Copy
import Mathlib.Data.Set.Function
import Mathlib.Logic.Relation

/-!
# Deep copies

A deep copy goes through all that hangs on a stack, depth first. The copy of a stack is entered in a
table before its blocks are made, so what refers back to it on the way gets the copy. In the end the
table is a one-to-one map from the stacks that were gone through to the stacks that were added.

* `Workspace.Follows`, `Workspace.extent` — what a deep copy goes through;
* `Copying.Underway` — the table while the copy is made, `Copying.Filled` — a copy with all its
  blocks, `Copying.Later` — what stays as it is from then on;
* `Copying.Enters` — what it means to copy a stack: each copy that is new in the table is filled;
  `Copying.blocks_spec` — so it is for the blocks of a stack, `Copying.stack_enters` — and for the
  stack itself, by induction on the levels, as each one enters a stack that was not in the table;
* `Copying.stack_bound` — the number of levels does not show;
* `Workspace.Duplicates` — a faithful copy, `Workspace.deepCopy_faithful` — a deep copy is one, and
  apart from what was there before;
* `Workspace.deepCopy_runs_alike_iff` — which copies have the parameters and the mark of their
  sources: those of stacks that have none.
-/

namespace BlockMachine

namespace Block

/-- The stack that a deep copy follows a block to. Null and package blocks are not followed. -/
def followed? : Block → Option Loc
  | .data loc _ => some loc
  | .code _ target => target
  | _ => none

/-- The block with another stack in place of the one that a deep copy follows it to. -/
def redirect (φ : Loc → Loc) : Block → Block
  | .data loc resolved => .data (φ loc) resolved
  | .code name (some loc) => .code name (some (φ loc))
  | b => b

variable {b : Block} {φ ψ : Loc → Loc}

theorem followed?_redirect (φ : Loc → Loc) (b : Block) :
    (b.redirect φ).followed? = b.followed?.map φ := by
  cases b with
  | code name target => cases target <;> rfl
  | _ => rfl

theorem redirect_of_none (hb : b.followed? = none) (φ : Loc → Loc) : b.redirect φ = b := by
  cases b with
  | data loc resolved => cases hb
  | code name target =>
    cases target with
    | none => rfl
    | some loc => cases hb
  | _ => rfl

/-- What matters is where the stack goes that is followed. -/
theorem redirect_congr (h : ∀ loc, b.followed? = some loc → φ loc = ψ loc) :
    b.redirect φ = b.redirect ψ := by
  cases b with
  | data loc resolved => exact congrArg (data · resolved) (h loc rfl)
  | code name target =>
    cases target with
    | none => rfl
    | some loc => exact congrArg (fun loc => code name (some loc)) (h loc rfl)
  | _ => rfl

theorem target?_of_followed? {loc : Loc} (hb : b.followed? = some loc) : b.target? = some loc := by
  cases b with
  | data => exact hb
  | code => exact hb
  | _ => cases hb

end Block

namespace Workspace

/-! ## What is gone through -/

/-- A stack holds a block that a deep copy, once it is resolved, follows to another stack. -/
def Follows (ws : Workspace) (h : Heap) (s t : Loc) : Prop :=
  ∃ b ∈ h.blocks s, (ws.resolve h b).followed? = some t

/-- The stacks that a deep copy of a stack goes through. -/
def extent (ws : Workspace) (h : Heap) (loc : Loc) : Set Loc :=
  { s | Relation.ReflTransGen (ws.Follows h) loc s }

section Resolve

variable {ws : Workspace} {h h' : Heap}

/-- New stacks are not found in a workspace of old ones. -/
theorem find?_of_grows (hg : h.Grows h') (hws : ∀ loc ∈ ws.locs, loc < h.size) (name : String) :
    ws.find? h' name = ws.find? h name := by
  have hname : ∀ loc ∈ ws.locs, (h'.nameOf loc == name) = (h.nameOf loc == name) := by
    intro loc hloc
    rw [Heap.nameOf, Heap.nameOf, hg.get (hws loc hloc)]
  rw [find?, find?]
  generalize ws.locs = locs at hname
  induction locs with
  | nil => rfl
  | cons loc locs ih =>
    rw [List.find?_cons, List.find?_cons, hname loc List.mem_cons_self,
      ih fun other hother => hname other (List.mem_cons_of_mem _ hother)]

theorem resolve_of_grows (hg : h.Grows h') (hws : ∀ loc ∈ ws.locs, loc < h.size) {b : Block}
    (hb : b.Inside h.size) : ws.resolve h' b = ws.resolve h b := by
  cases b with
  | data loc resolved =>
    cases resolved with
    | true => rfl
    | false =>
      have hname : h'.nameOf loc = h.nameOf loc := congrArg Stack.name (hg.get (hb loc rfl))
      simp only [resolve, hname, find?_of_grows hg hws]
  | code name target =>
    cases target with
    | none => simp only [resolve, find?_of_grows hg hws]
    | some loc => rfl
  | _ => rfl

end Resolve

end Workspace

namespace Copying

/-! ## The table -/

/-- The copy of a stack; a stack without one stands for itself. -/
def map (c : Copying) (s : Loc) : Loc :=
  (c.find? s).getD s

/-- A copy under way from a heap: no stack is copied twice, and the copies are the stacks that were
added to the heap, in order. -/
structure Underway (h : Heap) (c : Copying) : Prop where
  grows : h.Grows c.heap
  size : c.heap.size = h.size + c.copies.length
  sources : ∀ p ∈ c.copies, p.1 < h.size
  once : (c.copies.map Prod.fst).Nodup
  added : c.copies.map Prod.snd = (List.range' h.size c.copies.length).reverse

/-- The copy of a stack that leads to copies through a map: what it is made of. -/
def image (ws : Workspace) (h : Heap) (φ : Loc → Loc) (s : Loc) : Stack :=
  { Stack.make (h.nameOf s) ((h.blocks s).map fun b => (ws.resolve h b).redirect φ) with
    displayName := (h.get s).displayName }

/-- A stack and its copy, which has its blocks; all that is followed from the stack has a copy. -/
structure Filled (ws : Workspace) (h : Heap) (c : Copying) (p : Loc × Loc) : Prop where
  stack : c.heap.get p.2 = image ws h c.map p.1
  followed : ∀ t, ws.Follows h p.1 t → ∃ t', (t, t') ∈ c.copies

/-- More was copied since; the copies that were there are as they were. -/
structure Later (c c' : Copying) : Prop where
  copies : c.copies ⊆ c'.copies
  kept : ∀ p ∈ c.copies, c'.heap.get p.2 = c.heap.get p.2

theorem Later.refl (c : Copying) : Later c c :=
  ⟨fun _ hp => hp, fun _ _ => rfl⟩

theorem Later.trans {c₁ c₂ c₃ : Copying} (h : Later c₁ c₂) (h' : Later c₂ c₃) : Later c₁ c₃ :=
  ⟨fun _ hp => h'.copies (h.copies hp), fun p hp => (h'.kept p (h.copies hp)).trans (h.kept p hp)⟩

section Underway

variable {ws : Workspace} {h : Heap} {c c' : Copying} {s s' t t' : Loc}

theorem Underway.mem_added (hc : Underway h c) (hmem : (s, s') ∈ c.copies) :
    h.size ≤ s' ∧ s' < c.heap.size := by
  have hadded : s' ∈ c.copies.map Prod.snd := List.mem_map_of_mem hmem
  rw [hc.added, List.mem_reverse, List.mem_range'_1, ← hc.size] at hadded
  exact hadded

/-- Every stack that was added is a copy. -/
theorem Underway.exists_source (hc : Underway h c) (hle : h.size ≤ s') (hlt : s' < c.heap.size) :
    ∃ s, (s, s') ∈ c.copies := by
  have hadded : s' ∈ c.copies.map Prod.snd := by
    rw [hc.added, List.mem_reverse, List.mem_range'_1, ← hc.size]
    exact ⟨hle, hlt⟩
  obtain ⟨⟨s, _⟩, hmem, rfl⟩ := List.mem_map.1 hadded
  exact ⟨s, hmem⟩

/-- A stack has one copy. -/
theorem Underway.find?_of_mem (hc : Underway h c) (hmem : (s, s') ∈ c.copies) :
    c.find? s = some s' := by
  have honce := hc.once
  rw [find?]
  generalize c.copies = ps at hmem honce
  induction ps with
  | nil => cases hmem
  | cons p ps ih =>
    rw [List.map_cons, List.nodup_cons] at honce
    rcases List.mem_cons.1 hmem with rfl | hmem
    · exact List.lookup_cons_self
    · have hne : (s == p.1) = false := by
        rw [beq_eq_false_iff_ne]
        rintro rfl
        exact honce.1 (List.mem_map.2 ⟨_, hmem, rfl⟩)
      rw [List.lookup_cons, hne]
      exact ih hmem honce.2

theorem Underway.map_of_mem (hc : Underway h c) (hmem : (s, s') ∈ c.copies) : c.map s = s' := by
  rw [map, hc.find?_of_mem hmem]
  rfl

/-- A copy has one source. -/
theorem Underway.source_unique (hc : Underway h c) (hs : (s, s') ∈ c.copies)
    (ht : (t, s') ∈ c.copies) : s = t := by
  have hnodup : (c.copies.map Prod.snd).Nodup := by
    rw [hc.added]
    exact List.nodup_reverse.2 (List.nodup_range' ..)
  exact congrArg Prod.fst (List.inj_on_of_nodup_map hnodup hs ht rfl)

theorem mem_of_find? (hs : c.find? s = some s') : (s, s') ∈ c.copies := by
  rw [find?, List.lookup_eq_some_iff] at hs
  obtain ⟨l₁, l₂, heq, -⟩ := hs
  rw [heq]
  exact List.mem_append_right _ List.mem_cons_self

theorem not_mem_of_find? (hs : c.find? s = none) : s ∉ c.copies.map Prod.fst := by
  intro hmem
  obtain ⟨p, hp, rfl⟩ := List.mem_map.1 hmem
  rw [find?, List.lookup_eq_none_iff] at hs
  simpa using hs p hp

/-- Later on the blocks of a filled copy are as good. -/
theorem Filled.later {p : Loc × Loc} (hp : Filled ws h c p) (hmem : p ∈ c.copies)
    (hc : Underway h c) (hc' : Underway h c') (hl : Later c c') : Filled ws h c' p := by
  refine ⟨?_, fun t ht => (hp.followed t ht).imp fun t' ht' => hl.copies ht'⟩
  have hblocks : ((h.blocks p.1).map fun b => (ws.resolve h b).redirect c.map) =
      (h.blocks p.1).map fun b => (ws.resolve h b).redirect c'.map := by
    refine List.map_congr_left fun b hb => Block.redirect_congr fun t ht => ?_
    obtain ⟨t', ht'⟩ := hp.followed t ⟨b, hb, ht⟩
    rw [hc.map_of_mem ht', hc'.map_of_mem (hl.copies ht')]
  rw [hl.kept p hmem, hp.stack, image, image, hblocks]

end Underway

/-! ## Blocks and stacks -/

theorem block_eq (enter : Loc → Copying → Loc × Copying) (b : Block) (c : Copying) :
    block enter b c = match b.followed? with
      | some loc => (b.redirect fun _ => (enter loc c).1, (enter loc c).2)
      | none => (b, c) := by
  cases b with
  | code name target => cases target <;> rfl
  | _ => rfl

/-- The number of stacks that have no copy yet. -/
def left (h : Heap) (c : Copying) : Nat :=
  h.unmet (c.copies.map Prod.fst)

theorem Later.left_le {h : Heap} {c c' : Copying} (hl : Later c c') : left h c' ≤ left h c :=
  h.unmet_le_of_subset (List.map_subset Prod.fst hl.copies)

/-- Copies were made from `c` to `c'` of what is followed from some stacks: all that are new are
filled. -/
structure Adds (ws : Workspace) (h : Heap) (roots : Loc → Prop) (c c' : Copying) : Prop where
  underway : Underway h c'
  later : Later c c'
  filled : ∀ p ∈ c'.copies, p ∉ c.copies → Filled ws h c' p ∧ ∃ r, roots r ∧ p.1 ∈ ws.extent h r

/-- `enter` copies a stack, if no more than so many have no copy. -/
def Enters (ws : Workspace) (h : Heap) (n : Nat) (enter : Loc → Copying → Loc × Copying) : Prop :=
  ∀ loc c, Underway h c → loc < h.size → left h c < n →
    Adds ws h (· = loc) c (enter loc c).2 ∧ (loc, (enter loc c).1) ∈ (enter loc c).2.copies

theorem Adds.trans {ws : Workspace} {h : Heap} {roots roots' : Loc → Prop} {c₁ c₂ c₃ : Copying}
    (ha : Adds ws h roots c₁ c₂) (ha' : Adds ws h roots' c₂ c₃) :
    Adds ws h (fun r => roots r ∨ roots' r) c₁ c₃ := by
  refine ⟨ha'.underway, ha.later.trans ha'.later, ?_⟩
  intro p hp hnew
  by_cases hmem : p ∈ c₂.copies
  · obtain ⟨hfilled, r, hr, hext⟩ := ha.filled p hmem hnew
    exact ⟨hfilled.later hmem ha.underway ha'.underway ha'.later, r, .inl hr, hext⟩
  · obtain ⟨hfilled, r, hr, hext⟩ := ha'.filled p hp hmem
    exact ⟨hfilled, r, .inr hr, hext⟩

theorem Adds.refl {ws : Workspace} {h : Heap} {c : Copying} (hc : Underway h c)
    (roots : Loc → Prop) : Adds ws h roots c c :=
  ⟨hc, .refl c, fun _ hp hnew => absurd hp hnew⟩

section Spec

variable {ws : Workspace} {h : Heap} {n : Nat} {enter enter' : Loc → Copying → Loc × Copying}

/-- **The blocks of a stack.** Each one is resolved, what it is followed to is copied, and it leads
to the copy. -/
theorem blocks_spec (hws : ∀ loc ∈ ws.locs, loc < h.size) (he : Enters ws h n enter)
    (bs : List Block) :
    ∀ c, Underway h c → left h c < n → (∀ b ∈ bs, b.Inside h.size) →
      Adds ws h (fun r => ∃ b ∈ bs, (ws.resolve h b).followed? = some r) c
        (blocks (fun h b => ws.resolve h b) enter bs c).2 ∧
      (blocks (fun h b => ws.resolve h b) enter bs c).1 = bs.map (fun b => (ws.resolve h b).redirect
        (blocks (fun h b => ws.resolve h b) enter bs c).2.map) ∧
      ∀ b ∈ bs, ∀ t, (ws.resolve h b).followed? = some t →
        ∃ t', (t, t') ∈ (blocks (fun h b => ws.resolve h b) enter bs c).2.copies := by
  induction bs with
  | nil =>
    intro c hc _ _
    exact ⟨.refl hc _, rfl, fun b hb => absurd hb List.not_mem_nil⟩
  | cons b bs ih =>
    intro c hc hleft hbs
    have hb := hbs b List.mem_cons_self
    have hresolve := Workspace.resolve_of_grows hc.grows hws hb
    simp only [blocks, hresolve, block_eq]
    cases hfollowed : (ws.resolve h b).followed? with
    | none =>
      obtain ⟨hadds, hcopied, hall⟩ :=
        ih c hc hleft fun b hb => hbs b (List.mem_cons_of_mem _ hb)
      refine ⟨⟨hadds.underway, hadds.later, ?_⟩, ?_, ?_⟩
      · intro p hp hnew
        obtain ⟨hfilled, r, ⟨b', hb', hr⟩, hext⟩ := hadds.filled p hp hnew
        exact ⟨hfilled, r, ⟨b', List.mem_cons_of_mem _ hb', hr⟩, hext⟩
      · rw [List.map_cons, ← hcopied, Block.redirect_of_none hfollowed]
      · intro b' hb' t ht
        rcases List.mem_cons.1 hb' with rfl | hb'
        · rw [hfollowed] at ht
          cases ht
        · exact hall b' hb' t ht
    | some loc =>
      have hlt := Workspace.inside_resolve hws hb loc (Block.target?_of_followed? hfollowed)
      obtain ⟨henter, hmem⟩ := he loc c hc hlt hleft
      obtain ⟨hadds, hcopied, hall⟩ := ih (enter loc c).2 henter.underway
        (Nat.lt_of_le_of_lt henter.later.left_le hleft)
        fun b hb => hbs b (List.mem_cons_of_mem _ hb)
      have hmem' := hadds.later.copies hmem
      have hboth := henter.trans hadds
      refine ⟨⟨hboth.underway, hboth.later, ?_⟩, ?_, ?_⟩
      · intro p hp hnew
        obtain ⟨hfilled, r, hr, hext⟩ := hboth.filled p hp hnew
        refine ⟨hfilled, r, ?_, hext⟩
        rcases hr with rfl | ⟨b', hb', hr⟩
        · exact ⟨b, List.mem_cons_self, hfollowed⟩
        · exact ⟨b', List.mem_cons_of_mem _ hb', hr⟩
      · rw [List.map_cons, ← hcopied]
        congr 1
        refine Block.redirect_congr fun t ht => ?_
        rw [hfollowed] at ht
        obtain rfl := Option.some.inj ht
        exact (hadds.underway.map_of_mem hmem').symm
      · intro b' hb' t ht
        rcases List.mem_cons.1 hb' with rfl | hb'
        · rw [hfollowed] at ht
          obtain rfl := Option.some.inj ht
          exact ⟨_, hmem'⟩
        · exact hall b' hb' t ht

/-- The blocks come out the same if stacks do. -/
theorem blocks_congr (hws : ∀ loc ∈ ws.locs, loc < h.size) (he : Enters ws h n enter)
    (heq : ∀ loc c, Underway h c → loc < h.size → left h c < n → enter loc c = enter' loc c)
    (bs : List Block) :
    ∀ c, Underway h c → left h c < n → (∀ b ∈ bs, b.Inside h.size) →
      blocks (fun h b => ws.resolve h b) enter bs c =
        blocks (fun h b => ws.resolve h b) enter' bs c := by
  induction bs with
  | nil =>
    intro c _ _ _
    rfl
  | cons b bs ih =>
    intro c hc hleft hbs
    have hb := hbs b List.mem_cons_self
    have hrest : ∀ b ∈ bs, b.Inside h.size := fun b hb => hbs b (List.mem_cons_of_mem _ hb)
    have hresolve := Workspace.resolve_of_grows hc.grows hws hb
    simp only [blocks, hresolve, block_eq]
    cases hfollowed : (ws.resolve h b).followed? with
    | none => simp only [ih c hc hleft hrest]
    | some loc =>
      have hlt := Workspace.inside_resolve hws hb loc (Block.target?_of_followed? hfollowed)
      obtain ⟨henter, -⟩ := he loc c hc hlt hleft
      simp only [← heq loc c hc hlt hleft, ih (enter loc c).2 henter.underway
        (Nat.lt_of_le_of_lt henter.later.left_le hleft) hrest]

/-- The table with a stack entered whose copy has no blocks yet. -/
def entered (loc : Loc) (blank : Stack) (c : Copying) : Copying :=
  ⟨(c.heap.alloc blank).2, (loc, c.heap.size) :: c.copies⟩

/-- The table with the blocks of a copy put in place. -/
def filling (copy : Loc) (bs : List Block) (c : Copying) : Copying :=
  { c with heap := c.heap.modify copy fun s => { s with blocks := bs } }

/-- A copy without blocks. -/
def blank (s : Stack) : Stack :=
  { Stack.make s.name [] with displayName := s.displayName }

theorem stack_of_find?_eq_none {resolve : Heap → Block → Block} {fuel : Nat} {loc : Loc}
    {c : Copying} (hnew : c.find? loc = none) :
    stack resolve (fuel + 1) loc c =
      (c.heap.size, filling c.heap.size
        (blocks resolve (stack resolve fuel) (c.heap.blocks loc)
          (c.entered loc (blank (c.heap.get loc)))).1
        (blocks resolve (stack resolve fuel) (c.heap.blocks loc)
          (c.entered loc (blank (c.heap.get loc)))).2) := by
  rw [stack, hnew]
  rfl

variable {c : Copying} {loc : Loc}

theorem Underway.entered (hc : Underway h c) (hlt : loc < h.size) (hnew : c.find? loc = none)
    (s : Stack) : Underway h (c.entered loc s) ∧ Later c (c.entered loc s) ∧
      left h (c.entered loc s) < left h c := by
  have hnotin := not_mem_of_find? hnew
  refine ⟨⟨hc.grows.trans (.alloc _ _), ?_, ?_, ?_, ?_⟩, ⟨?_, ?_⟩, ?_⟩
  · rw [Copying.entered, Heap.size_alloc, hc.size, List.length_cons]
    omega
  · intro p hp
    rcases List.mem_cons.1 hp with rfl | hp
    · exact hlt
    · exact hc.sources p hp
  · exact List.nodup_cons.2 ⟨hnotin, hc.once⟩
  · simp only [Copying.entered, List.map_cons, List.length_cons, hc.added, hc.size,
      List.range'_concat, List.reverse_append, List.reverse_singleton, List.singleton_append,
      Nat.one_mul]
  · exact List.subset_cons_self _ _
  · intro p hp
    exact Heap.get_alloc_of_lt _ _ (hc.mem_added (s := p.1) hp).2
  · exact h.unmet_cons_lt hlt hnotin

theorem Underway.filling (hc : Underway h c) {copy : Loc} (hcopy : h.size ≤ copy)
    (bs : List Block) : Underway h (c.filling copy bs) where
  grows := by
    refine ⟨by rw [Copying.filling, Heap.size_modify]; exact hc.grows.size, ?_⟩
    intro loc hlt
    rw [Copying.filling,
      Heap.get_modify_of_ne _ _ (Nat.ne_of_lt (Nat.lt_of_lt_of_le hlt hcopy))]
    exact hc.grows.get hlt
  size := by rw [Copying.filling, Heap.size_modify, hc.size]
  sources := hc.sources
  once := hc.once
  added := hc.added

/-- What is in the extent of a stack that is followed from another one is in the extent of that. -/
theorem extent_of_follows {s r t : Loc} (hr : ws.Follows h s r) (ht : t ∈ ws.extent h r) :
    t ∈ ws.extent h s :=
  Relation.ReflTransGen.head hr ht

/-- **Copying a stack**, with as many levels as there are stacks without a copy. -/
theorem stack_enters (hclosed : h.Closed) (hws : ∀ loc ∈ ws.locs, loc < h.size) (fuel : Nat) :
    Enters ws h fuel (stack (fun h b => ws.resolve h b) fuel) := by
  induction fuel with
  | zero =>
    intro loc c _ _ hleft
    exact absurd hleft (Nat.not_lt_zero _)
  | succ fuel ih =>
    intro loc c hc hlt hleft
    cases hfound : c.find? loc with
    | some copy =>
      rw [stack, hfound]
      exact ⟨.refl hc _, mem_of_find? hfound⟩
    | none =>
      have hsource : c.heap.get loc = h.get loc := hc.grows.get hlt
      have hbs : c.heap.blocks loc = h.blocks loc := congrArg Stack.blocks hsource
      obtain ⟨hc₁, hlater₁, hleft₁⟩ := hc.entered hlt hfound (blank (h.get loc))
      have hcopy : h.size ≤ c.heap.size := hc.grows.size
      have hmem₁ : (loc, c.heap.size) ∈ (c.entered loc (blank (h.get loc))).copies :=
        List.mem_cons_self
      have hget₁ : (c.entered loc (blank (h.get loc))).heap.get c.heap.size = blank (h.get loc) :=
        Heap.get_alloc_size _ _
      rw [stack_of_find?_eq_none hfound, hsource, hbs]
      obtain ⟨hadds, hcopied, hall⟩ := blocks_spec hws ih (h.blocks loc) _ hc₁ (by omega)
        (hclosed loc)
      generalize blocks (fun h b => ws.resolve h b) (stack (fun h b => ws.resolve h b) fuel)
        (h.blocks loc) (c.entered loc (blank (h.get loc))) = r at hadds hcopied hall ⊢
      obtain ⟨bs, c₂⟩ := r
      dsimp only at hadds hcopied hall ⊢
      have hmem₂ := hadds.later.copies hmem₁
      have hget₂ : c₂.heap.get c.heap.size = blank (h.get loc) :=
        (hadds.later.kept _ hmem₁).trans hget₁
      -- the blocks of the copy are put in place, all other copies stay as they are
      have hself : (c₂.filling c.heap.size bs).heap.get c.heap.size = image ws h c₂.map loc := by
        rw [filling, Heap.get_modify_self _ _ (hadds.underway.mem_added hmem₂).2, hget₂, hcopied]
        rfl
      have hother : ∀ p ∈ c₂.copies, p.1 ≠ loc →
          (c₂.filling c.heap.size bs).heap.get p.2 = c₂.heap.get p.2 := by
        intro p hp hne
        refine Heap.get_modify_of_ne _ _ fun heq => hne ?_
        exact hadds.underway.source_unique hp (heq ▸ hmem₂)
      refine ⟨⟨hadds.underway.filling hcopy bs, ⟨?_, ?_⟩, ?_⟩, hmem₂⟩
      · exact fun p hp => hadds.later.copies (hlater₁.copies hp)
      · intro p hp
        have hne : p.1 ≠ loc := by
          rintro rfl
          exact not_mem_of_find? hfound (List.mem_map_of_mem hp)
        rw [hother p (hadds.later.copies (hlater₁.copies hp)) hne]
        exact (hlater₁.trans hadds.later).kept p hp
      · intro p hp hnew
        by_cases heq : p.1 = loc
        · have hp₂ : p = (loc, c.heap.size) :=
            List.inj_on_of_nodup_map hadds.underway.once hp hmem₂ heq
          subst hp₂
          refine ⟨⟨hself, ?_⟩, loc, rfl, .refl⟩
          rintro t ⟨b, hb, ht⟩
          exact hall b hb t ht
        · have hnew₁ : p ∉ (c.entered loc (blank (h.get loc))).copies := by
            intro hmem
            rcases List.mem_cons.1 hmem with rfl | hmem
            · exact heq rfl
            · exact hnew hmem
          obtain ⟨hfilled, r, ⟨b, hb, hr⟩, hext⟩ := hadds.filled p hp hnew₁
          exact ⟨⟨(hother p hp heq).trans hfilled.stack, hfilled.followed⟩, loc, rfl,
            extent_of_follows ⟨b, hb, hr⟩ hext⟩

/-- **The number of levels does not show**, as long as it exceeds that of the stacks without a copy.
-/
theorem stack_bound (hclosed : h.Closed) (hws : ∀ loc ∈ ws.locs, loc < h.size) (fuel : Nat) :
    ∀ (fuel' : Nat) (loc : Loc) (c : Copying), Underway h c → loc < h.size → left h c < fuel →
      left h c < fuel' → stack (fun h b => ws.resolve h b) fuel loc c =
        stack (fun h b => ws.resolve h b) fuel' loc c := by
  induction fuel with
  | zero =>
    intro fuel' loc c _ _ hleft
    exact absurd hleft (Nat.not_lt_zero _)
  | succ fuel ih =>
    intro fuel' loc c hc hlt hleft hleft'
    obtain ⟨fuel', rfl⟩ := Nat.exists_eq_succ_of_ne_zero (Nat.ne_of_gt (Nat.zero_lt_of_lt hleft'))
    cases hfound : c.find? loc with
    | some copy => rw [stack, stack, hfound]
    | none =>
      have hsource : c.heap.get loc = h.get loc := hc.grows.get hlt
      have hbs : c.heap.blocks loc = h.blocks loc := congrArg Stack.blocks hsource
      obtain ⟨hc₁, -, hleft₁⟩ := hc.entered hlt hfound (blank (h.get loc))
      have hsame : ∀ loc c, Underway h c → loc < h.size → left h c < min fuel fuel' →
          stack (fun h b => ws.resolve h b) fuel loc c =
            stack (fun h b => ws.resolve h b) fuel' loc c :=
        fun loc c hc hlt hleft => ih fuel' loc c hc hlt (by omega) (by omega)
      have hblocks := blocks_congr hws
        (fun loc c hc hlt hleft => stack_enters hclosed hws fuel loc c hc hlt (by omega))
        hsame (h.blocks loc) _ hc₁ (by omega) (hclosed loc)
      rw [stack_of_find?_eq_none hfound, stack_of_find?_eq_none hfound, hsource, hbs, hblocks]

end Spec

end Copying

namespace Heap

/-- A stack holds a data block or a bound code block of another one. -/
def Points (h : Heap) (s t : Loc) : Prop :=
  ∃ b ∈ h.blocks s, b.followed? = some t

end Heap

namespace Workspace

/-! ## Faithful copies -/

/-- The map `φ` copies all that hangs on a stack of one heap to the stacks that are new in the
other: one to one, with the same names for readers and the same blocks, which lead to copies. -/
structure Duplicates (ws : Workspace) (h h' : Heap) (loc copy : Loc) (φ : Loc → Loc) : Prop where
  root : φ loc = copy
  oneToOne : Set.BijOn φ (ws.extent h loc) { s | h.size ≤ s ∧ s < h'.size }
  displayName : ∀ s ∈ ws.extent h loc, (h'.get (φ s)).displayName = (h.get s).displayName
  blocks : ∀ s ∈ ws.extent h loc,
    h'.blocks (φ s) = (h.blocks s).map fun b => (ws.resolve h b).redirect φ

section Faithful

variable {ws : Workspace} {h h' : Heap} {loc copy : Loc} {φ : Loc → Loc}

theorem underway_start (h : Heap) : Copying.Underway h ⟨h, []⟩ :=
  ⟨.refl h, rfl, fun _ hp => absurd hp List.not_mem_nil, List.nodup_nil, rfl⟩

/-- What the table holds in the end. -/
theorem deepCopy_table (hclosed : h.Closed) (hws : ∀ l ∈ ws.locs, l < h.size)
    (hloc : loc < h.size) :
    ∃ c : Copying, (ws.deepCopy loc h).2 = c.heap ∧ Copying.Underway h c ∧
      (loc, (ws.deepCopy loc h).1) ∈ c.copies ∧
      (∀ p ∈ c.copies, Copying.Filled ws h c p) ∧
      ∀ s, s ∈ ws.extent h loc ↔ ∃ s', (s, s') ∈ c.copies := by
  obtain ⟨hadds, hroot⟩ := Copying.stack_enters hclosed hws (h.size + 1) loc _ (underway_start h)
    hloc (Nat.lt_succ_of_le (h.unmet_le_size _))
  have hfilled := fun p hp => hadds.filled p hp List.not_mem_nil
  refine ⟨_, rfl, hadds.underway, hroot, fun p hp => (hfilled p hp).1, ?_⟩
  intro s
  constructor
  · intro hs
    induction hs with
    | refl => exact ⟨_, hroot⟩
    | tail _ hst ih =>
      obtain ⟨s', hs'⟩ := ih
      exact (hfilled _ hs').1.followed _ hst
  · rintro ⟨s', hs'⟩
    obtain ⟨-, r, rfl, hext⟩ := hfilled _ hs'
    exact hext

/-- A deep copy leaves the stacks of the heap as they are and copies what hangs on its stack; a copy
is what the map makes of its source. -/
theorem exists_copies (hclosed : h.Closed) (hws : ∀ l ∈ ws.locs, l < h.size)
    (hloc : loc < h.size) :
    h.Grows (ws.deepCopy loc h).2 ∧
      ∃ φ, ws.Duplicates h (ws.deepCopy loc h).2 loc (ws.deepCopy loc h).1 φ ∧
        ∀ s ∈ ws.extent h loc, (ws.deepCopy loc h).2.get (φ s) = Copying.image ws h φ s := by
  obtain ⟨c, hheap, hc, hroot, hfilled, hmem⟩ := deepCopy_table hclosed hws hloc
  have himage : ∀ s ∈ ws.extent h loc, c.heap.get (c.map s) = Copying.image ws h c.map s := by
    intro s hs
    obtain ⟨s', hs'⟩ := (hmem s).1 hs
    rw [hc.map_of_mem hs']
    exact (hfilled _ hs').stack
  rw [hheap]
  refine ⟨hc.grows, c.map, ⟨hc.map_of_mem hroot, ⟨?_, ?_, ?_⟩, ?_, ?_⟩, himage⟩
  · intro s hs
    obtain ⟨s', hs'⟩ := (hmem s).1 hs
    rw [hc.map_of_mem hs']
    exact hc.mem_added hs'
  · intro s hs t ht heq
    obtain ⟨s', hs'⟩ := (hmem s).1 hs
    obtain ⟨t', ht'⟩ := (hmem t).1 ht
    rw [hc.map_of_mem hs', hc.map_of_mem ht'] at heq
    exact hc.source_unique hs' (heq ▸ ht')
  · rintro s' ⟨hle, hlt⟩
    obtain ⟨s, hs⟩ := hc.exists_source hle hlt
    exact ⟨s, (hmem s).2 ⟨s', hs⟩, hc.map_of_mem hs⟩
  · intro s hs
    rw [himage s hs]
    rfl
  · intro s hs
    rw [Heap.blocks, himage s hs]
    rfl

/-- A copy leads to copies only. -/
theorem Duplicates.points_new (hφ : ws.Duplicates h h' loc copy φ) {s t : Loc}
    (hs : h.size ≤ s ∧ s < h'.size) (hst : h'.Points s t) : h.size ≤ t ∧ t < h'.size := by
  obtain ⟨source, hsource, rfl⟩ := hφ.oneToOne.surjOn hs
  obtain ⟨b', hb', ht⟩ := hst
  rw [hφ.blocks source hsource] at hb'
  obtain ⟨b, hb, rfl⟩ := List.mem_map.1 hb'
  rw [Block.followed?_redirect] at ht
  obtain ⟨target, htarget, rfl⟩ := Option.map_eq_some_iff.1 ht
  exact hφ.oneToOne.mapsTo (Relation.ReflTransGen.tail hsource ⟨b, hb, htarget⟩)

/-- No way leads from a copy to what was there before. -/
theorem Duplicates.apart (hφ : ws.Duplicates h h' loc copy φ) {t : Loc}
    (ht : Relation.ReflTransGen h'.Points copy t) : h.size ≤ t ∧ t < h'.size := by
  induction ht with
  | refl => exact hφ.root ▸ hφ.oneToOne.mapsTo Relation.ReflTransGen.refl
  | tail _ hst ih => exact hφ.points_new ih hst

end Faithful

/-- **A deep copy is faithful and separate.** It ends (more levels give nothing else), it leaves the
stacks of the heap as they are, and it maps all that hangs on its stack one to one to new stacks,
with the names, the names for readers and the blocks of their sources, which lead to copies. From
the copy no way leads to a stack that was there before. -/
theorem deepCopy_faithful (ws : Workspace) (h : Heap) (loc : Loc) (hclosed : h.Closed)
    (hws : ∀ l ∈ ws.locs, l < h.size) (hloc : loc < h.size)
    (hnames : ∀ s ∈ ws.extent h loc, h.nameOf s ≠ "") :
    (∀ levels, h.size < levels →
      ((Copying.stack (fun h b => ws.resolve h b) levels loc ⟨h, []⟩).1,
        (Copying.stack (fun h b => ws.resolve h b) levels loc ⟨h, []⟩).2.heap) =
          ws.deepCopy loc h) ∧
      h.Grows (ws.deepCopy loc h).2 ∧
      (∃ φ, ws.Duplicates h (ws.deepCopy loc h).2 loc (ws.deepCopy loc h).1 φ ∧
        ∀ s ∈ ws.extent h loc, (ws.deepCopy loc h).2.nameOf (φ s) = h.nameOf s) ∧
      ∀ t, Relation.ReflTransGen (ws.deepCopy loc h).2.Points (ws.deepCopy loc h).1 t →
        h.size ≤ t := by
  obtain ⟨hgrows, φ, hφ, himage⟩ := exists_copies hclosed hws hloc
  refine ⟨?_, hgrows, ⟨φ, hφ, ?_⟩, fun t ht => (hφ.apart ht).1⟩
  · intro levels hlevels
    have hleft : Copying.left h ⟨h, []⟩ ≤ h.size := h.unmet_le_size _
    rw [Copying.stack_bound hclosed hws levels (h.size + 1) loc _ (underway_start h) hloc (by omega)
      (by omega)]
    rfl
  · intro s hs
    rw [Heap.nameOf, himage s hs]
    simp [Copying.image, Stack.make, hnames s hs]

/-- Two stacks that lead to each other, the second one marked and with a parameter. The first one
also calls the second by its name, and holds a reference to it that is not bound and a null block.
-/
def knot : Heap :=
  ⟨#[Stack.make "a" [.data 1 true, .code "b" none, .data 2 false, .null 3],
    { Stack.make "b" [.data 0 true, .data 1 true, .fetch "x"] with
      inputs := ["x"], obfuscated := true },
    Stack.make "b" [], Stack.make "null" []]⟩

theorem closed_knot : knot.Closed := by
  have hall : ∀ loc < 4, ∀ b ∈ knot.blocks loc, b.target?.all (· < 4) = true := by decide
  intro loc b hb t ht
  rcases Nat.lt_or_ge loc 4 with hlt | hge
  · have hb' := hall loc hlt b hb
    rw [ht] at hb'
    exact of_decide_eq_true hb'
  · rw [Heap.blocks, Heap.get_of_size_le _ hge] at hb
    cases hb

theorem extent_knot {s : Loc} (hs : s ∈ extent ⟨[0, 1], 0⟩ knot 0) : s < 2 := by
  have hall : ∀ s < 2, ∀ b ∈ knot.blocks s,
      (resolve ⟨[0, 1], 0⟩ knot b).followed?.all (· < 2) = true := by decide
  induction hs with
  | refl => decide
  | tail _ hst ih =>
    obtain ⟨b, hb, ht⟩ := hst
    have hb' := hall _ ih b hb
    rw [ht] at hb'
    exact of_decide_eq_true hb'

/-- The two stacks are copied, the reference and the call lead to the copy. -/
theorem deepCopy_faithful_knot :
    (deepCopy ⟨[0, 1], 0⟩ 0 knot).1 = 4 ∧
      (deepCopy ⟨[0, 1], 0⟩ 0 knot).2.blocks 4 =
        [.data 5 true, .code "b" (some 5), .data 5 true, .null 3] ∧
      (deepCopy ⟨[0, 1], 0⟩ 0 knot).2.blocks 5 = [.data 4 true, .data 5 true, .fetch "x"] ∧
      ∀ t, Relation.ReflTransGen (deepCopy ⟨[0, 1], 0⟩ 0 knot).2.Points 4 t → 4 ≤ t := by
  have hfaithful := deepCopy_faithful ⟨[0, 1], 0⟩ knot 0 closed_knot (by decide) (by decide) (by
    intro s hs
    have hall : ∀ s < 2, knot.nameOf s ≠ "" := by decide
    exact hall s (extent_knot hs))
  exact ⟨rfl, rfl, rfl, hfaithful.2.2.2⟩

/-! ## Parameters and marks -/

/-- Two stacks bind the same parameters when they are run, and are called in the same way. -/
def RunsAlike (s t : Stack) : Prop :=
  s.inputs = t.inputs ∧ s.obfuscated = t.obfuscated

/-- **What a deep copy drops.** A copy runs like its source if and only if that has no parameters
and no mark: the copies have none, so a call of one is inline and binds nothing. -/
theorem deepCopy_runs_alike_iff (ws : Workspace) (h : Heap) (loc : Loc) (hclosed : h.Closed)
    (hws : ∀ l ∈ ws.locs, l < h.size) (hloc : loc < h.size) :
    ∃ φ, ws.Duplicates h (ws.deepCopy loc h).2 loc (ws.deepCopy loc h).1 φ ∧
      ∀ s ∈ ws.extent h loc,
        (RunsAlike ((ws.deepCopy loc h).2.get (φ s)) (h.get s) ↔
          (h.get s).inputs = [] ∧ (h.get s).obfuscated = false) ∧
        ((ws.deepCopy loc h).2.get (φ s)).inputs = [] ∧
        ∀ (m : Machine) (d : Discipline) (env : Environment) (name : String),
          m.heap = (ws.deepCopy loc h).2 →
            m.call d env name (some (φ s)) = d.insert (m.heap.get (φ s)) m := by
  obtain ⟨-, φ, hφ, himage⟩ := exists_copies hclosed hws hloc
  refine ⟨φ, hφ, ?_⟩
  intro s hs
  have hinputs : ((ws.deepCopy loc h).2.get (φ s)).inputs = [] := by
    rw [himage s hs]
    rfl
  have hmark : ((ws.deepCopy loc h).2.get (φ s)).obfuscated = false := by
    rw [himage s hs]
    rfl
  refine ⟨?_, hinputs, ?_⟩
  · rw [RunsAlike, hinputs, hmark, eq_comm, eq_comm (a := false)]
  · intro m d env name hm
    have htarget : m.resolve (.code name (some (φ s))) = .code name (some (φ s)) := rfl
    simp only [Machine.call, htarget, hm, hmark, Bool.false_eq_true, if_false]

/-- The first stack has a copy that runs like it, the second one has not. -/
theorem deepCopy_runs_alike_iff_knot :
    ∃ φ, Duplicates ⟨[0, 1], 0⟩ knot (deepCopy ⟨[0, 1], 0⟩ 0 knot).2 0 4 φ ∧
      RunsAlike ((deepCopy ⟨[0, 1], 0⟩ 0 knot).2.get (φ 0)) (knot.get 0) ∧
      ¬ RunsAlike ((deepCopy ⟨[0, 1], 0⟩ 0 knot).2.get (φ 1)) (knot.get 1) := by
  obtain ⟨φ, hφ, halike⟩ :=
    deepCopy_runs_alike_iff ⟨[0, 1], 0⟩ knot 0 closed_knot (by decide) (by decide)
  have hone : 1 ∈ extent ⟨[0, 1], 0⟩ knot 0 :=
    Relation.ReflTransGen.single ⟨.data 1 true, by decide, rfl⟩
  refine ⟨φ, hφ, (halike 0 .refl).1.2 (by decide), fun hsame => ?_⟩
  exact absurd ((halike 1 hone).1.1 hsame) (by decide)

end Workspace

end BlockMachine
