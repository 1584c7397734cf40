import BlockMachine.Workspace.Stored
import BlockMachine.Proofs.Heap.Isomorphism
import BlockMachine.Proofs.Workspace.Rereading

/-!
# A workspace and its copy

A workspace is stored or written and then built again, in a heap that holds the workspace and goes on
to hold its copy. The stacks of both may be shared and cyclic, so they are compared as graphs. Walking
from a stack and its copy in step, one meets two sorts of pairs: stacks of the workspace with their
copies, along bound blocks, and stacks that blocks have for themselves. The former are told apart by
their place in the workspace, the latter by the one block that they belong to.

A stack that is listed twice has two copies, and blocks are bound to the first one. So the walk from
the second copy takes it for the first as soon as it comes back to where it started.

* `Workspace.Contains` — the stacks of a workspace, and those that blocks in them have for themselves;
* `Workspace.Storable` — workspaces that can be stored and built again;
* `Partners` — the pairs that are met from a stack and its copy, `Partners.pairing`;
* `Partners.exists_copy` — the walk that comes back to a stack, comes back to its first copy;
* `Workspace.Recurs` — stacks that are listed again and lead back to themselves;
* `Workspace.Storable.stackEquals_iff`, `Workspace.Storable.kinds` — all others equal their copies,
  and the blocks are of the same kinds.
-/

namespace BlockMachine

namespace Workspace

/-- The stacks of a workspace, and those that blocks in them have for themselves. -/
inductive Contains (ws : Workspace) (h : Heap) : Loc → Prop where
  | own {a : Loc} (mem : a ∈ ws.locs) : Contains ws h a
  | inner {a c : Loc} {b : Block} (outer : Contains ws h a) (mem : b ∈ h.blocks a)
      (own : b.ownStack? = some c) : Contains ws h c

/-- A workspace that can be stored and built again in a grammar. -/
structure Storable (g : Grammar) (l : Localizer) (h : Heap) (ws : Workspace) : Prop where
  /-- The stacks of the workspace are in the heap. -/
  allocated : ∀ a ∈ ws.locs, a < h.size
  /-- So are the stacks that blocks refer to. -/
  closed : ∀ {a c b}, b ∈ h.blocks a → b.target? = some c → c < h.size
  /-- Names of stacks are not empty. -/
  named : ∀ a ∈ ws.locs, h.nameOf a ≠ ""
  /-- A data or code block is bound to the first stack of its name, if there is one. -/
  linked : ∀ a ∈ ws.locs, ∀ b ∈ h.blocks a, ∀ name, h.reference? b = some name →
    ws.find? h name = b.boundTo?
  /-- No other block refers to the stack that a block has for itself. -/
  unshared : ∀ {a a' k k' c : Nat} {x x' : Block}, ws.Contains h a → ws.Contains h a' →
    (h.blocks a)[k]? = some x → (h.blocks a')[k']? = some x' →
    x.ownStack? = some c → x'.target? = some c → a = a' ∧ k = k'
  /-- A package holds no block that is bound. -/
  packages : ∀ {a c b}, ws.Contains h a → .package c ∈ h.blocks a → h.Within c b →
    b.boundTo? = none
  /-- Each block of a stack survives being written and read on its own. -/
  survives : ∀ a ∈ ws.locs, ∀ b ∈ h.blocks a, SurvivesIn g l h b

/-- The records that the stored form of a workspace is read as. -/
def storedRecords (g : Grammar) (ws : Workspace) (h : Heap) : List Record :=
  (ws.stored h).map (StoredStack.toRecord g)

/-- The record of a stack in it. -/
def storedRecord (g : Grammar) (h : Heap) (c : Loc) : Record :=
  StoredStack.toRecord g (StoredStack.ofStack h (h.get c))

theorem storedRecords_eq (g : Grammar) (ws : Workspace) (h : Heap) :
    ws.storedRecords g h = ws.locs.map (storedRecord g h) :=
  List.map_map

end Workspace

/-! ## Copies -/

/-- The elements at one place of two lists that are related. -/
theorem forall₂_getElem? {α β : Type} {R : α → β → Prop} {as : List α} {bs : List β}
    (h : List.Forall₂ R as bs) {i : Nat} {a : α} {b : β} (ha : as[i]? = some a)
    (hb : bs[i]? = some b) : R a b := by
  induction h generalizing i with
  | nil => cases ha
  | cons hab _ ih =>
    cases i with
    | zero =>
      cases ha
      cases hb
      exact hab
    | succ i => exact ih ha hb

theorem exists_left_of_forall₂ {α β : Type} {R : α → β → Prop} {as : List α} {bs : List β}
    (h : List.Forall₂ R as bs) {i : Nat} {b : β} (hb : bs[i]? = some b) :
    ∃ a, as[i]? = some a ∧ R a b := by
  obtain ⟨hi, -⟩ := List.getElem?_eq_some_iff.1 hb
  have ha := List.getElem?_eq_getElem (h.length_eq ▸ hi : i < as.length)
  exact ⟨_, ha, forall₂_getElem? h ha hb⟩

theorem map_eq_of_forall₂ {α β γ : Type} {f : α → γ} {g : β → γ} {as : List α} {bs : List β}
    (h : List.Forall₂ (fun a b => g b = f a) as bs) : bs.map g = as.map f := by
  induction h with
  | nil => rfl
  | cons hab _ ih => rw [List.map_cons, List.map_cons, hab, ih]

/-- A search finds elements at one place of two lists, if the tests agree there. -/
theorem find?_forall₂ {α β : Type} {p : α → Bool} {q : β → Bool} {as : List α} {bs : List β}
    (h : List.Forall₂ (fun a b => p a = q b) as bs) :
    (as.find? p = none → bs.find? q = none) ∧
      ∀ a, as.find? p = some a →
        ∃ i b, as[i]? = some a ∧ bs[i]? = some b ∧ bs.find? q = some b ∧ a ∉ as.take i := by
  induction h with
  | nil => exact ⟨fun _ => rfl, fun a ha => by cases ha⟩
  | @cons a b as bs hab _ ih =>
    cases hp : p a with
    | true =>
      have hq : q b = true := hab ▸ hp
      refine ⟨fun hnone => by simp [hp] at hnone, fun a' ha' => ?_⟩
      refine ⟨0, b, ?_, rfl, by simp [hq], by simp⟩
      simpa [hp] using ha'
    | false =>
      have hq : q b = false := hab ▸ hp
      simp only [List.find?_cons, hp, hq]
      refine ⟨ih.1, fun a' ha' => ?_⟩
      obtain ⟨i, b', hai, hbi, hfind, hout⟩ := ih.2 a' ha'
      refine ⟨i + 1, b', hai, hbi, hfind, fun hmem => ?_⟩
      rcases List.mem_cons.1 hmem with rfl | hmem
      · rw [List.find?_some ha'] at hp
        cases hp
      · exact hout hmem

/-- A stack of a workspace and the stack at the same place of another. -/
def Beside (ws ws' : Workspace) (d c : Loc) : Prop :=
  ∃ i : Nat, ws'.locs[i]? = some d ∧ ws.locs[i]? = some c

namespace Beside

variable {ws ws' : Workspace} {d c c' : Loc}

theorem mem_left (h : Beside ws ws' d c) : d ∈ ws'.locs := by
  obtain ⟨i, hd, -⟩ := h
  exact List.mem_of_getElem? hd

theorem mem_right (h : Beside ws ws' d c) : c ∈ ws.locs := by
  obtain ⟨i, -, hc⟩ := h
  exact List.mem_of_getElem? hc

/-- Stacks of which no two are the same stand beside one stack each. -/
theorem right_unique (hnodup : ws'.locs.Nodup) (h : Beside ws ws' d c)
    (h' : Beside ws ws' d c') : c = c' := by
  obtain ⟨i, hd, hc⟩ := h
  obtain ⟨j, hd', hc'⟩ := h'
  obtain ⟨hi, -⟩ := List.getElem?_eq_some_iff.1 hd
  obtain rfl := (List.getElem?_inj hi hnodup).1 (hd.trans hd'.symm)
  exact Option.some.inj (hc.symm.trans hc')

end Beside

/-- A stack of a workspace and the stack at the same place of another. If a stack is listed twice,
its first place counts. -/
def Copies (ws ws' : Workspace) (d c : Loc) : Prop :=
  ∃ i, ws'.locs[i]? = some d ∧ ws.locs[i]? = some c ∧ c ∉ ws.locs.take i

namespace Copies

variable {ws ws' : Workspace} {d d' c : Loc}

theorem beside (h : Copies ws ws' d c) : Beside ws ws' d c := by
  obtain ⟨i, hd, hc, -⟩ := h
  exact ⟨i, hd, hc⟩

/-- A stack has one copy. -/
theorem left_unique (h : Copies ws ws' d c) (h' : Copies ws ws' d' c) : d = d' := by
  obtain ⟨i, hd, hc, hout⟩ := h
  obtain ⟨j, hd', hc', hout'⟩ := h'
  have hij : i = j := by
    rcases Nat.lt_trichotomy i j with hlt | heq | hlt
    · exact absurd (List.mem_of_getElem? ((List.getElem?_take_of_lt hlt).trans hc)) hout'
    · exact heq
    · exact absurd (List.mem_of_getElem? ((List.getElem?_take_of_lt hlt).trans hc')) hout
  subst hij
  exact Option.some.inj (hd.symm.trans hd')

end Copies

section

variable {g : Grammar} {l : Localizer} {h final : Heap} {ws ws' : Workspace}

/-- The stacks that are read for the stacks of a workspace. -/
theorem forall₂_record (hb : Workspace.Built l h (ws.storedRecords g h) ws' final) :
    List.Forall₂ (fun c d => c ∈ ws.locs ∧
      Workspace.StackOf l ws' final (Workspace.storedRecord g h c) d) ws.locs ws'.locs := by
  have hmade := hb.made
  rw [Workspace.storedRecords_eq] at hmade
  exact (List.forall₂_and_left _ _).2 ⟨fun _ hc => hc, List.forall₂_map_left_iff.1 hmade⟩

/-- A stack is read with its name. -/
theorem nameOf_record (hp : ws.Storable g l h) {c d : Loc} (hc : c ∈ ws.locs)
    (hs : Workspace.StackOf l ws' final (Workspace.storedRecord g h c) d) :
    final.nameOf d = h.nameOf c := by
  have hne : ¬ (h.nameOf c).isEmpty = true := by
    simpa using hp.named c hc
  exact hs.name.trans (if_neg hne)

/-- Names are found at the same places. -/
theorem find?_record (hp : ws.Storable g l h)
    (hb : Workspace.Built l h (ws.storedRecords g h) ws' final) (name : String) :
    (ws.find? h name = none → ws'.find? final name = none) ∧
      ∀ c, ws.find? h name = some c → ∃ d, ws'.find? final name = some d ∧ Copies ws ws' d c := by
  have htests : List.Forall₂ (fun c d => (h.nameOf c == name) = (final.nameOf d == name))
      ws.locs ws'.locs :=
    (forall₂_record hb).imp fun c d ⟨hc, hs⟩ => by rw [nameOf_record hp hc hs]
  obtain ⟨hnone, hsome⟩ := find?_forall₂ htests
  refine ⟨hnone, fun c hc => ?_⟩
  obtain ⟨i, d, hci, hdi, hfind, hout⟩ := hsome c hc
  exact ⟨d, hfind, i, hdi, hci, hout⟩

/-- The blocks that are read for a stack, before they are bound. -/
theorem forall₂_made {c d : Loc}
    (hs : Workspace.StackOf l ws' final (Workspace.storedRecord g h c) d) :
    ∃ ys, List.Forall₂ (fun x y => x ∈ h.blocks c ∧ Made l final (g.literal (h.written x)) y)
        (h.blocks c) ys ∧
      final.blocks d = ys.map (ws'.resolve final) := by
  obtain ⟨ys, hmade, hblocks⟩ := hs.blocks
  refine ⟨ys, (List.forall₂_and_left _ _).2 ⟨fun _ hx => hx, ?_⟩, hblocks⟩
  have hbody : (Workspace.storedRecord g h c).body
      = (h.blocks c).map fun x => g.literal (h.written x) := List.map_map
  rw [hbody] at hmade
  exact List.forall₂_map_left_iff.1 hmade

theorem blocks_of_lt (hb : Workspace.Built l h (ws.storedRecords g h) ws' final) {c : Loc}
    (hc : c < h.size) : final.blocks c = h.blocks c :=
  congrArg Stack.blocks (hb.grows.get hc)

/-- **A stack and the one beside it hold twins.** -/
theorem Beside.twins (hp : ws.Storable g l h)
    (hb : Workspace.Built l h (ws.storedRecords g h) ws' final) {d c : Loc}
    (hdc : Beside ws ws' d c) :
    List.Forall₂ (Twin final (Copies ws ws')) (final.blocks d) (final.blocks c) := by
  obtain ⟨i, hd, hc⟩ := hdc
  obtain ⟨hmem, hs⟩ := forall₂_getElem? (forall₂_record hb) hc hd
  obtain ⟨ys, hread, hblocks⟩ := forall₂_made hs
  rw [hblocks, blocks_of_lt hb (hp.allocated c hmem), List.forall₂_map_left_iff]
  refine List.Forall₂.flip (hread.imp fun x y ⟨hx, hy⟩ => ?_)
  exact (hp.survives c hmem x hx).twin (hp.linked c hmem x hx)
    (fun name => (find?_record hp hb name).2) (fun name => (find?_record hp hb name).1)
    hp.closed (fun e he => hp.closed hx he)
    (fun e he w hw => hp.packages (.own hmem) (he ▸ hx) hw) hb.grows hy

end

/-! ## Partners -/

/-- The pairs that are met from the stack `s` and the stack `r` beside it: along blocks that are bound, and into
the stacks that blocks have for themselves. -/
inductive Partners (h : Heap) (r s : Loc) : Loc → Loc → Prop where
  | root : Partners h r s r s
  | bound {b a k d c : Nat} {y x : Block} (outer : Partners h r s b a)
      (left : (h.blocks b)[k]? = some y) (right : (h.blocks a)[k]? = some x)
      (leftTo : y.boundTo? = some d) (rightTo : x.boundTo? = some c) : Partners h r s d c
  | own {b a k d c : Nat} {y x : Block} (outer : Partners h r s b a)
      (left : (h.blocks b)[k]? = some y) (right : (h.blocks a)[k]? = some x)
      (leftOwn : y.ownStack? = some d) (rightOwn : x.ownStack? = some c) : Partners h r s d c

namespace Partners

section

variable {h : Heap} {linked : Loc → Loc → Prop} {y x : Block} {d c : Loc}

/-- Twins that are bound are bound to linked stacks. -/
theorem linked_of_twin (ht : Twin h linked y x) (hd : y.boundTo? = some d)
    (hc : x.boundTo? = some c) : linked d c := by
  cases ht with
  | loose loose =>
    rw [loose.unbound_right] at hc
    cases hc
  | data partners =>
    cases hd
    cases hc
    exact partners
  | code partners =>
    cases hd
    cases hc
    exact partners

/-- The twin of a block that is bound is bound. -/
theorem exists_linked_of_twin (ht : Twin h linked y x) (hc : x.boundTo? = some c) :
    ∃ d, y.boundTo? = some d ∧ linked d c := by
  cases ht with
  | loose loose =>
    rw [loose.unbound_right] at hc
    cases hc
  | data partners | code partners =>
    cases hc
    exact ⟨_, rfl, partners⟩

/-- Twins of which one has a stack for itself are loose. -/
theorem loose_of_twin (ht : Twin h linked y x) (hc : x.ownStack? = some c) : Loose h y x := by
  cases ht with
  | loose loose => exact loose
  | data | code => cases hc

end

section

variable {g : Grammar} {l : Localizer} {h final : Heap} {ws ws' : Workspace} {r s d c : Loc}

/-- **Partners hold twins.** -/
theorem twins (hp : ws.Storable g l h) (hb : Workspace.Built l h (ws.storedRecords g h) ws' final)
    (hroot : Beside ws ws' r s) (hdc : Partners final r s d c) :
    List.Forall₂ (Twin final (Copies ws ws')) (final.blocks d) (final.blocks c) := by
  induction hdc with
  | root => exact hroot.twins hp hb
  | bound _ left right leftTo rightTo ih =>
    exact (linked_of_twin (forall₂_getElem? ih left right) leftTo rightTo).beside.twins hp hb
  | own _ left right leftOwn rightOwn ih =>
    have hloose := loose_of_twin (forall₂_getElem? ih left right) rightOwn
    rcases hloose.own leftOwn rightOwn with ⟨hd, hc⟩ | ⟨z, w, hd, hc, hinside⟩
    · rw [hd, hc]
      exact .nil
    · rw [hd, hc]
      exact .cons (.loose hinside) .nil

/-- Partners on the left are new stacks. -/
theorem bounds_left (hp : ws.Storable g l h) (hb : Workspace.Built l h (ws.storedRecords g h) ws' final)
    (hroot : Beside ws ws' r s) (hdc : Partners final r s d c) :
    h.size ≤ d ∧ d < final.size := by
  induction hdc with
  | root => exact hb.bounds r hroot.mem_left
  | bound outer left right leftTo rightTo _ =>
    have htwin := forall₂_getElem? (outer.twins hp hb hroot) left right
    have hcopies := linked_of_twin htwin leftTo rightTo
    exact hb.bounds _ hcopies.beside.mem_left
  | own _ left _ leftOwn _ ih =>
    have hapart := hb.apart ih.1 left leftOwn
    exact ⟨hapart.1, hapart.2.1⟩

/-- Partners on the right are old stacks. -/
theorem lt_right (hp : ws.Storable g l h) (hb : Workspace.Built l h (ws.storedRecords g h) ws' final)
    (hroot : Beside ws ws' r s) (hdc : Partners final r s d c) : c < h.size := by
  induction hdc with
  | root => exact hp.allocated s hroot.mem_right
  | bound _ _ right _ rightTo ih =>
    rw [blocks_of_lt hb ih] at right
    exact hp.closed (List.mem_of_getElem? right) (Block.target?_of_boundTo? rightTo)
  | own _ _ right _ rightOwn ih =>
    rw [blocks_of_lt hb ih] at right
    exact hp.closed (List.mem_of_getElem? right) (Block.target?_of_ownStack? rightOwn)

/-- Partners on the right belong to the workspace. -/
theorem contains (hp : ws.Storable g l h)
    (hb : Workspace.Built l h (ws.storedRecords g h) ws' final) (hroot : Beside ws ws' r s)
    (hdc : Partners final r s d c) : ws.Contains h c := by
  induction hdc with
  | root => exact .own hroot.mem_right
  | bound outer left right leftTo rightTo _ =>
    have htwin := forall₂_getElem? (outer.twins hp hb hroot) left right
    exact .own (linked_of_twin htwin leftTo rightTo).beside.mem_right
  | own outer _ right _ rightOwn ih =>
    rw [blocks_of_lt hb (outer.lt_right hp hb hroot)] at right
    exact .inner ih (List.mem_of_getElem? right) rightOwn

/-! ### Stacks that end -/

/-- A block of the one stack has the other for itself. -/
def Owns (h : Heap) (a c : Loc) : Prop :=
  ∃ x ∈ h.blocks a, x.ownStack? = some c

/-- No block of a stack is bound, nor one of the stacks that these have for themselves, and so on to
an end. -/
inductive Founded (h : Heap) : Loc → Prop where
  | intro {a : Loc} (unbound : ∀ x ∈ h.blocks a, x.boundTo? = none)
      (inside : ∀ c, Owns h a c → Founded h c) : Founded h a

theorem founded_of_loose {h : Heap} {y x : Block} (hl : Loose h y x) {c : Loc}
    (hc : x.ownStack? = some c) : Founded h c := by
  induction hl generalizing c with
  | plain equal =>
    rw [Block.ownStack?_of_target? (Block.target?_of_plainEquals equal).2] at hc
    cases hc
  | unbound name => cases hc
  | hollow _ right _ rightEmpty =>
    obtain rfl := Option.some.inj (right.symm.trans hc)
    refine .intro ?_ ?_
    · simp [rightEmpty]
    · simp [Owns, rightEmpty]
  | filled _ right _ rightHolds inside ih =>
    obtain rfl := Option.some.inj (right.symm.trans hc)
    refine .intro ?_ ?_
    · simpa [rightHolds] using inside.unbound_right
    · simpa [Owns, rightHolds] using fun e he => ih he

theorem Founded.not_cyclic {h : Heap} {a : Loc} (ha : Founded h a) :
    ¬ Relation.TransGen (Owns h) a a := by
  induction ha with
  | intro _ _ ih =>
    intro hcycle
    obtain ⟨e, hfirst, hback⟩ := Relation.TransGen.head'_iff.1 hcycle
    exact ih e hfirst (.tail' hback hfirst)

/-- From a stack that ends, the walk meets only what it owns. -/
theorem owned {h : Heap} (hs : Founded h s) (hdc : Partners h r s d c) :
    Founded h c ∧ Relation.ReflTransGen (Owns h) s c := by
  induction hdc with
  | root => exact ⟨hs, .refl⟩
  | bound _ _ right _ rightTo ih =>
    cases ih.1 with
    | intro unbound _ =>
      rw [unbound _ (List.mem_of_getElem? right)] at rightTo
      cases rightTo
  | own _ _ right _ rightOwn ih =>
    have howns : Owns h _ _ := ⟨_, List.mem_of_getElem? right, rightOwn⟩
    cases ih.1 with
    | intro _ inside => exact ⟨inside _ howns, ih.2.tail howns⟩

/-- The stack that the walk starts from is met in no block as its own: such a stack ends, so the walk
does not come back to it. -/
theorem not_own_root (hp : ws.Storable g l h)
    (hb : Workspace.Built l h (ws.storedRecords g h) ws' final) (hroot : Beside ws ws' r s)
    (hdc : Partners final r s d c) {k : Nat} {x : Block} (hx : (final.blocks c)[k]? = some x) :
    x.ownStack? ≠ some s := by
  intro hown
  obtain ⟨y, -, htwin⟩ := exists_left_of_forall₂ (hdc.twins hp hb hroot) hx
  have hs := founded_of_loose (loose_of_twin htwin hown) hown
  exact hs.not_cyclic (.tail' (owned hs hdc).2 ⟨x, List.mem_of_getElem? hx, hown⟩)

/-- A stack that a block is bound to is met in no block as its own. -/
theorem not_own_of_bound (hp : ws.Storable g l h)
    (hb : Workspace.Built l h (ws.storedRecords g h) ws' final) (hroot : Beside ws ws' r s)
    {d' c' e k k' : Nat} {x x' : Block} (hdc : Partners final r s d c)
    (hx : (final.blocks c)[k]? = some x) (hbound : x.boundTo? = some e)
    (hdc' : Partners final r s d' c') (hx' : (final.blocks c')[k']? = some x') :
    x'.ownStack? ≠ some e := by
  intro hown
  rw [blocks_of_lt hb (hdc.lt_right hp hb hroot)] at hx
  rw [blocks_of_lt hb (hdc'.lt_right hp hb hroot)] at hx'
  obtain ⟨rfl, rfl⟩ := hp.unshared (hdc'.contains hp hb hroot) (hdc.contains hp hb hroot) hx' hx hown
    (Block.target?_of_boundTo? hbound)
  obtain rfl := Option.some.inj (hx.symm.trans hx')
  rw [Block.boundTo?_of_ownStack? hown] at hbound
  cases hbound

/-- **Two sorts of partners.** A pair is that of the roots, or a stack of the workspace with its copy,
which no block has for itself, or it is met in one pair of blocks. -/
theorem copies_or_own (hp : ws.Storable g l h) (hb : Workspace.Built l h (ws.storedRecords g h) ws' final)
    (hroot : Beside ws ws' r s) (hdc : Partners final r s d c) :
    ((d = r ∧ c = s ∨ Copies ws ws' d c) ∧ ∀ {b a k : Nat} {x : Block}, Partners final r s b a →
      (final.blocks a)[k]? = some x → x.ownStack? ≠ some c) ∨
    ∃ (b a k : Nat) (y x : Block), Partners final r s b a ∧ (final.blocks b)[k]? = some y ∧
      (final.blocks a)[k]? = some x ∧ y.ownStack? = some d ∧ x.ownStack? = some c := by
  cases hdc with
  | root => exact .inl ⟨.inl ⟨rfl, rfl⟩, fun hba hx => hba.not_own_root hp hb hroot hx⟩
  | bound outer left right leftTo rightTo =>
    have htwin := forall₂_getElem? (outer.twins hp hb hroot) left right
    exact .inl ⟨.inr (linked_of_twin htwin leftTo rightTo), fun hba hx =>
      outer.not_own_of_bound hp hb hroot right rightTo hba hx⟩
  | own outer left right leftOwn rightOwn =>
    exact .inr ⟨_, _, _, _, _, outer, left, right, leftOwn, rightOwn⟩

/-- No new stack has two partners. -/
theorem right_unique (hp : ws.Storable g l h) (hb : Workspace.Built l h (ws.storedRecords g h) ws' final)
    (hroot : Beside ws ws' r s) {c' : Loc} (hdc : Partners final r s d c)
    (hdc' : Partners final r s d c') : c = c' := by
  -- a new stack of the workspace is not the own one of a block
  have hbeside : ∀ {d c c' : Loc}, Beside ws ws' d c → Partners final r s d c' → c = c' := by
    intro d c c' hbeside hdc'
    rcases hdc'.copies_or_own hp hb hroot with
      ⟨⟨rfl, rfl⟩ | hcopies, -⟩ | ⟨b, a, k, y, x, hba, hy, -, hown, -⟩
    · exact hbeside.right_unique hb.distinct hroot
    · exact hbeside.right_unique hb.distinct hcopies.beside
    · exact absurd hbeside.mem_left (hb.apart (hba.bounds_left hp hb hroot).1 hy hown).2.2
  induction hdc generalizing c' with
  | root => exact hbeside hroot hdc'
  | bound outer left right leftTo rightTo _ =>
    have htwin := forall₂_getElem? (outer.twins hp hb hroot) left right
    exact hbeside (linked_of_twin htwin leftTo rightTo).beside hdc'
  | @own b a k d c y x outer left right leftOwn rightOwn ih =>
    have hlow := (outer.bounds_left hp hb hroot).1
    have hnew : d ∉ ws'.locs := (hb.apart hlow left leftOwn).2.2
    rcases hdc'.copies_or_own hp hb hroot with
      ⟨⟨rfl, rfl⟩ | hcopies, -⟩ | ⟨b', a', k', y', x', outer', left', right', leftOwn', rightOwn'⟩
    · exact absurd hroot.mem_left hnew
    · exact absurd hcopies.beside.mem_left hnew
    · obtain ⟨rfl, rfl⟩ := hb.once hlow (outer'.bounds_left hp hb hroot).1 left left' leftOwn leftOwn'
      obtain rfl := ih outer'
      obtain rfl := Option.some.inj (right.symm.trans right')
      exact Option.some.inj (rightOwn.symm.trans rightOwn')

/-- No old stack has two partners, if the walk comes back to where it started only in step. -/
theorem left_unique (hp : ws.Storable g l h) (hb : Workspace.Built l h (ws.storedRecords g h) ws' final)
    (hroot : Beside ws ws' r s) (hback : ∀ {d}, Partners final r s d s → d = r) {d' : Loc}
    (hdc : Partners final r s d c) (hdc' : Partners final r s d' c) : d = d' := by
  induction hdc generalizing d' with
  | root => exact (hback hdc').symm
  | bound outer left right leftTo rightTo _ =>
    have htwin := forall₂_getElem? (outer.twins hp hb hroot) left right
    rcases hdc'.copies_or_own hp hb hroot with
      ⟨⟨rfl, rfl⟩ | hcopies, -⟩ | ⟨b, a, k, y, x, hba, -, hx, -, hown⟩
    · exact hback (.bound outer left right leftTo rightTo)
    · exact (linked_of_twin htwin leftTo rightTo).left_unique hcopies
    · exact absurd hown (outer.not_own_of_bound hp hb hroot right rightTo hba hx)
  | @own b a k d c y x outer left right leftOwn rightOwn ih =>
    rcases hdc'.copies_or_own hp hb hroot with
      ⟨-, hnot⟩ | ⟨b', a', k', y', x', outer', left', right', leftOwn', rightOwn'⟩
    · exact absurd rightOwn (hnot outer right)
    · rw [blocks_of_lt hb (outer.lt_right hp hb hroot)] at right
      rw [blocks_of_lt hb (outer'.lt_right hp hb hroot)] at right'
      obtain ⟨rfl, rfl⟩ := hp.unshared (outer.contains hp hb hroot) (outer'.contains hp hb hroot)
        right right' rightOwn (Block.target?_of_ownStack? rightOwn')
      obtain rfl := ih outer'
      obtain rfl := Option.some.inj (left.symm.trans left')
      exact Option.some.inj (leftOwn.symm.trans leftOwn')

/-- Twins that partners hold at one place match. -/
theorem matched_of_twin {b a k : Nat} {y x : Block} (hba : Partners final r s b a)
    (hy : (final.blocks b)[k]? = some y) (hx : (final.blocks a)[k]? = some x)
    (htwin : Twin final (Copies ws ws') y x) : Block.Matched (Partners final r s) y x := by
  cases htwin with
  | loose loose =>
    cases loose with
    | plain equal => exact .plain equal
    | unbound name => exact .unbound name
    | hollow left right | filled left right =>
      exact .stack (Block.stack?_of_ownStack? left) (Block.stack?_of_ownStack? right)
        (.own hba hy hx left right)
  | data => exact .stack rfl rfl (.bound hba hy hx rfl rfl)
  | code => exact .bound (.bound hba hy hx rfl rfl)

/-- **Partners pair the stacks**, if the walk comes back to where it started only in step. -/
theorem pairing (hp : ws.Storable g l h) (hb : Workspace.Built l h (ws.storedRecords g h) ws' final)
    (hroot : Beside ws ws' r s) (hback : ∀ {d}, Partners final r s d s → d = r) :
    final.Pairing (Partners final r s) where
  bounded hdc := (hdc.bounds_left hp hb hroot).2
  left hdc hdc' := hdc.right_unique hp hb hroot hdc'
  right hdc hdc' := hdc.left_unique hp hb hroot hback hdc'
  blocks hdc := by
    have htwins := hdc.twins hp hb hroot
    refine List.forall₂_iff_get.2 ⟨htwins.length_eq, fun i hi hi' => ?_⟩
    have hy := List.getElem?_eq_getElem hi
    have hx := List.getElem?_eq_getElem hi'
    exact matched_of_twin hdc hy hx (forall₂_getElem? htwins hy hx)

/-! ### Coming back -/

/-- What is met on the right can be reached from the root. -/
theorem reaches (hp : ws.Storable g l h) (hb : Workspace.Built l h (ws.storedRecords g h) ws' final)
    (hroot : Beside ws ws' r s) (hdc : Partners final r s d c) :
    Relation.ReflTransGen h.Refers s c := by
  induction hdc with
  | root => exact .refl
  | bound outer _ right _ rightTo ih =>
    rw [blocks_of_lt hb (outer.lt_right hp hb hroot)] at right
    exact ih.tail ⟨_, List.mem_of_getElem? right, Block.target?_of_boundTo? rightTo⟩
  | own outer _ right _ rightOwn ih =>
    rw [blocks_of_lt hb (outer.lt_right hp hb hroot)] at right
    exact ih.tail ⟨_, List.mem_of_getElem? right, Block.target?_of_ownStack? rightOwn⟩

/-- One more step: what a stack on the right refers to is met with its copy, or is the own stack of a
block that is met. -/
theorem step (hp : ws.Storable g l h) (hb : Workspace.Built l h (ws.storedRecords g h) ws' final)
    (hroot : Beside ws ws' r s) {a : Loc} (hda : Partners final r s d a) (hrefers : h.Refers a c) :
    ∃ e, Partners final r s e c ∧ (Copies ws ws' e c ∨ Owns final a c) := by
  obtain ⟨x, hx, htarget⟩ := hrefers
  rw [← blocks_of_lt hb (hda.lt_right hp hb hroot)] at hx
  obtain ⟨k, hk⟩ := List.mem_iff_getElem?.1 hx
  obtain ⟨y, hy, htwin⟩ := exists_left_of_forall₂ (hda.twins hp hb hroot) hk
  rcases Block.boundTo?_or_ownStack?_of_target? htarget with hbound | hown
  · obtain ⟨e, he, hcopies⟩ := exists_linked_of_twin htwin hbound
    exact ⟨e, .bound hda hy hk he hbound, .inl hcopies⟩
  · obtain ⟨e, he⟩ := (loose_of_twin htwin hown).exists_own hown
    exact ⟨e, .own hda hy hk he hown, .inr ⟨x, hx, hown⟩⟩

/-- **Coming back** to the stack that it started from, the walk meets the first copy of it. -/
theorem exists_copy (hp : ws.Storable g l h) (hb : Workspace.Built l h (ws.storedRecords g h) ws' final)
    (hroot : Beside ws ws' r s) (hcycle : Relation.TransGen h.Refers s s) :
    ∃ e, Partners final r s e s ∧ Copies ws ws' e s := by
  obtain ⟨a, hreaches, hlast⟩ := Relation.TransGen.tail'_iff.1 hcycle
  have hmet : ∃ d, Partners final r s d a := by
    clear hlast
    induction hreaches with
    | refl => exact ⟨r, .root⟩
    | tail _ hrefers ih =>
      obtain ⟨d, hd⟩ := ih
      obtain ⟨e, he, -⟩ := hd.step hp hb hroot hrefers
      exact ⟨e, he⟩
  obtain ⟨d, hd⟩ := hmet
  obtain ⟨e, he, hcopies | ⟨x, hx, hown⟩⟩ := hd.step hp hb hroot hlast
  · exact ⟨e, he, hcopies⟩
  · obtain ⟨k, hk⟩ := List.mem_iff_getElem?.1 hx
    exact absurd hown (hd.not_own_root hp hb hroot hk)

/-- The walk comes back only in step, if it starts from the first copy, or does not come back. -/
theorem eq_root (hp : ws.Storable g l h) (hb : Workspace.Built l h (ws.storedRecords g h) ws' final)
    (hroot : Beside ws ws' r s)
    (honce : Copies ws ws' r s ∨ ¬ Relation.TransGen h.Refers s s)
    (hds : Partners final r s d s) : d = r := by
  cases hds with
  | root => rfl
  | bound outer left right leftTo rightTo =>
    have htwin := forall₂_getElem? (outer.twins hp hb hroot) left right
    rcases honce with hcopies | hacyclic
    · exact (linked_of_twin htwin leftTo rightTo).left_unique hcopies
    · rw [blocks_of_lt hb (outer.lt_right hp hb hroot)] at right
      exact absurd (.tail' (outer.reaches hp hb hroot)
        ⟨_, List.mem_of_getElem? right, Block.target?_of_boundTo? rightTo⟩) hacyclic
  | own outer _ right _ rightOwn => exact absurd rightOwn (outer.not_own_root hp hb hroot right)

end

/-- An isomorphism takes partners to each other. -/
theorem of_isomorphism {h : Heap} {r s d c : Loc} {f : Loc → Loc} (hf : h.Isomorphism r s f)
    (hdc : Partners h r s d c) : d ∈ h.reachable r ∧ f d = c := by
  -- from blocks at one place to what they refer to
  have hfollow : ∀ {b a k d c : Nat} {y x : Block}, b ∈ h.reachable r ∧ f b = a →
      (h.blocks b)[k]? = some y → (h.blocks a)[k]? = some x → y.target? = some d →
      x.target? = some c → d ∈ h.reachable r ∧ f d = c := by
    rintro b a k d c y x ⟨hb, rfl⟩ hy hx hd hc
    obtain ⟨c', hc', hpartner⟩ := (forall₂_getElem? (hf.matched hb) hy hx).target_left hd
    obtain rfl := Option.some.inj (hc'.symm.trans hc)
    exact hpartner
  induction hdc with
  | root => exact ⟨.refl, hf.root⟩
  | bound _ left right leftTo rightTo ih =>
    exact hfollow ih left right (Block.target?_of_boundTo? leftTo) (Block.target?_of_boundTo? rightTo)
  | own _ left right leftOwn rightOwn ih =>
    exact hfollow ih left right (Block.target?_of_ownStack? leftOwn)
      (Block.target?_of_ownStack? rightOwn)

end Partners

/-! ## Stacks and their copies -/

namespace Workspace

/-- The stack `c` is listed before the place `i`, and the references in it lead back to it. -/
def Recurs (ws : Workspace) (h : Heap) (i : Nat) (c : Loc) : Prop :=
  c ∈ ws.locs.take i ∧ Relation.TransGen h.Refers c c

/-- In a workspace that is read or made, no stack recurs. -/
theorem Listed.not_recurs {ws : Workspace} {h h' : Heap} (hws : ws.Listed h') {i : Nat} {c : Loc}
    (hc : ws.locs[i]? = some c) : ¬ ws.Recurs h i c := by
  rintro ⟨hlisted, -⟩
  obtain ⟨j, hj⟩ := List.mem_iff_getElem?.1 hlisted
  rw [List.getElem?_take] at hj
  split at hj
  case isTrue hji =>
    obtain ⟨hlt, -⟩ := List.getElem?_eq_some_iff.1 hj
    exact absurd ((List.getElem?_inj hlt hws.distinct).1 (hj.trans hc.symm)) (Nat.ne_of_lt hji)
  case isFalse => cases hj

end Workspace

namespace Workspace.Storable

variable {g : Grammar} {l : Localizer} {h final : Heap} {ws ws' : Workspace}

/-- **When a stack equals its copy**, as a graph: always, but for the later copies of a stack that is
listed several times and leads back to itself. -/
theorem stackEquals_iff (hp : ws.Storable g l h) (hb : Built l h (ws.storedRecords g h) ws' final)
    {i : Nat} {d c : Loc} (hd : ws'.locs[i]? = some d) (hc : ws.locs[i]? = some c) :
    final.stackEquals d c = true ↔ ¬ ws.Recurs h i c := by
  have hroot : Beside ws ws' d c := ⟨i, hd, hc⟩
  constructor
  · rintro hequal ⟨hlisted, hcycle⟩
    obtain ⟨t, ht⟩ := Option.isSome_iff_exists.1 hequal
    obtain ⟨f, hf⟩ := Heap.isomorphic_of_matchStacks ht
    -- the walk comes back to the first copy, which an isomorphism cannot tell from this one
    obtain ⟨e, hback, j, he, hc', hfirst⟩ := Partners.exists_copy hp hb hroot hcycle
    obtain ⟨hreached, hfe⟩ := hback.of_isomorphism hf
    obtain rfl : e = d := hf.bijective.injOn hreached .refl (hfe.trans hf.root.symm)
    obtain ⟨hj, -⟩ := List.getElem?_eq_some_iff.1 he
    obtain rfl := (List.getElem?_inj hj hb.distinct).1 (he.trans hd.symm)
    exact hfirst hlisted
  · intro hrecurs
    have honce : Copies ws ws' d c ∨ ¬ Relation.TransGen h.Refers c c := by
      by_cases hlisted : c ∈ ws.locs.take i
      · exact .inr fun hcycle => hrecurs ⟨hlisted, hcycle⟩
      · exact .inl ⟨i, hd, hc, hlisted⟩
    exact (Partners.pairing hp hb hroot fun hds =>
      hds.eq_root hp hb hroot honce).stackEquals .root

/-- A stack that recurs has a copy, but a different one. -/
theorem exists_of_recurs (hp : ws.Storable g l h) (hb : Built l h (ws.storedRecords g h) ws' final)
    {i : Nat} {c : Loc} (hc : ws.locs[i]? = some c) (hrecurs : ws.Recurs h i c) :
    ∃ d, ws'.locs[i]? = some d ∧ final.stackEquals d c = false := by
  obtain ⟨hi, -⟩ := List.getElem?_eq_some_iff.1 hc
  have hd := List.getElem?_eq_getElem ((forall₂_record hb).length_eq ▸ hi : i < ws'.locs.length)
  refine ⟨_, hd, Bool.eq_false_iff.2 fun hequal => ?_⟩
  exact (hp.stackEquals_iff hb hd hc).1 hequal hrecurs

theorem names (hp : ws.Storable g l h) (hb : Built l h (ws.storedRecords g h) ws' final) :
    ws'.locs.map final.nameOf = ws.locs.map h.nameOf :=
  map_eq_of_forall₂ ((forall₂_record hb).imp fun _ _ ⟨hc, hs⟩ => nameOf_record hp hc hs)

theorem inputs (hb : Built l h (ws.storedRecords g h) ws' final) :
    (ws'.locs.map fun d => (final.get d).inputs) = (ws.locs.map fun c => (h.get c).inputs) :=
  map_eq_of_forall₂ ((forall₂_record hb).imp fun _ _ ⟨_, hs⟩ => hs.inputs)

theorem kind_resolve (ws : Workspace) (h : Heap) (b : Block) : (ws.resolve h b).kind = b.kind := by
  simp only [resolve]
  split
  case h_1 => split <;> rfl
  case h_2 => rfl
  case h_3 => rfl

/-- The blocks of a stack and of its copy are of the same kinds. -/
theorem kinds (hp : ws.Storable g l h) (hb : Built l h (ws.storedRecords g h) ws' final) :
    (ws'.locs.map fun d => (final.blocks d).map Block.kind)
      = (ws.locs.map fun c => (h.blocks c).map Block.kind) := by
  refine map_eq_of_forall₂ ((forall₂_record hb).imp fun c d ⟨hc, hs⟩ => ?_)
  obtain ⟨ys, hread, hblocks⟩ := forall₂_made hs
  rw [hblocks, List.map_map]
  refine map_eq_of_forall₂ (hread.imp fun x y ⟨hx, hy⟩ => ?_)
  have hreread := hp.survives c hc x hx (Dice.ofSeed 0)
  exact (kind_resolve ws' final y).trans ((kind_of_made hy _).trans hreread.kind)

end Workspace.Storable

end BlockMachine
