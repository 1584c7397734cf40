import BlockMachine.Proofs.Workspace.Partners

/-!
# The round trip of a workspace

A workspace is written and read, in a heap that holds the workspace and goes on to hold what is
read. What the text is read as are the records of its stored form, so the workspace that is read is a
copy. Written packages do not nest, so of a package only the one block inside can be in the way.

* `Workspace.Holds` — the stacks whose blocks belong to a workspace;
* `Workspace.Portable` — workspaces that can be written and read, `Workspace.Portable.storable`;
* `Workspace.parse_written_equals` — the round trip.
-/

namespace BlockMachine

namespace Workspace

/-- The stacks whose blocks belong to a workspace: its own, and those of packages in them. -/
inductive Holds (ws : Workspace) (h : Heap) : Loc → Prop where
  | own {a : Loc} (mem : a ∈ ws.locs) : Holds ws h a
  | packed {a c : Loc} (outer : Holds ws h a) (mem : .package c ∈ h.blocks a) : Holds ws h c

/-- A workspace that can be written and read. -/
structure Portable (l : Localizer) (h : Heap) (ws : Workspace) : Prop where
  /-- The stacks of the workspace are in the heap. -/
  allocated : ∀ a ∈ ws.locs, a < h.size
  /-- So are the stacks that blocks refer to. -/
  closed : ∀ {a c b}, b ∈ h.blocks a → b.target? = some c → c < h.size
  /-- Names of stacks are not empty and have no braces. -/
  names : ∀ a ∈ ws.locs,
    h.nameOf a ≠ "" ∧ ∀ c ∈ (h.nameOf a).toList, c ≠ '\x7b' ∧ c ≠ '\x7d'
  /-- Names of inputs are not empty and have neither blanks nor braces. -/
  inputs : ∀ a ∈ ws.locs, ∀ name ∈ (h.get a).inputs, IsName name.toList
  /-- A data or code block is bound to the first stack of its name, if there is one. -/
  linked : ∀ a ∈ ws.locs, ∀ b ∈ h.blocks a, ∀ name, h.reference? b = some name →
    ws.find? h name = b.boundTo?
  /-- No other block refers to the stack that a block has for itself. -/
  unshared : ∀ {a a' k k' c : Nat} {x x' : Block}, ws.Holds h a → ws.Holds h a' →
    (h.blocks a)[k]? = some x → (h.blocks a')[k']? = some x' →
    x.ownStack? = some c → x'.target? = some c → a = a' ∧ k = k'
  /-- A package holds no block that is bound. -/
  packages : ∀ {a c b}, ws.Holds h a → .package c ∈ h.blocks a → b ∈ h.blocks c →
    b.boundTo? = none
  /-- Each block of a stack survives being written and read on its own. -/
  survives : ∀ a ∈ ws.locs, ∀ b ∈ h.blocks a, Survives l h b

/-! ## What is inside packages -/

section

variable {l : Localizer} {h : Heap} {ws : Workspace} {a c : Loc}

/-- The blocks of a stack have only empty stacks for themselves. -/
def IsShallow (h : Heap) (c : Loc) : Prop :=
  ∀ w ∈ h.blocks c, ∀ e, w.ownStack? = some e → h.blocks e = []

/-- A block that was compared with a literal that is no package has only an empty stack for itself. -/
theorem blocks_eq_nil_of_compared {lit : Literal} {x : Block} {dice : Dice}
    (hlit : ∀ inner, lit ≠ .package inner) (hc : Compared l h lit x dice)
    (hx : ∀ c, x.target? = some c → c < h.size) (hown : x.ownStack? = some c) :
    h.blocks c = [] := by
  cases lit with
  | package inner => exact absurd rfl (hlit inner)
  | null | data name =>
    obtain ⟨c', hxc, hempty⟩ := hc.hollow hx rfl rfl
    obtain rfl := Option.some.inj (hxc.symm.trans (Block.stack?_of_ownStack? hown))
    exact hempty
  | _ =>
    obtain ⟨walked, fuel, t, -, -, hsome⟩ := hc.found
    rw [(loose_of_matchBlock rfl hsome h).ownStack?_right rfl] at hown
    cases hown

/-- A block of a stack of the workspace has an empty stack for itself, or it is a package, and then
what is inside has one. -/
theorem Portable.shallow (hp : ws.Portable l h) (ha : a ∈ ws.locs) {b : Block}
    (hb : b ∈ h.blocks a) (hown : b.ownStack? = some c) :
    IsShallow h c ∧ (h.blocks c = [] ∨ b = .package c) := by
  have hx : ∀ e, b.target? = some e → e < h.size := fun e => hp.closed hb
  have hs : SurvivesIn Grammar.core l h b := hp.survives a ha b hb
  have hcompared := hs.compared (Block.boundTo?_of_ownStack? hown)
  by_cases hlit : ∃ inner, Grammar.core.literal (h.written b) = .package inner
  · obtain ⟨inner, hlit⟩ := hlit
    rw [hlit] at hcompared
    obtain ⟨c', w, hbc, hw, hinside⟩ := compared_inside hcompared hx
    obtain rfl := Option.some.inj (hbc.symm.trans (Block.stack?_of_ownStack? hown))
    refine ⟨fun w' hw' e he => ?_, .inr ?_⟩
    · rw [hw] at hw'
      obtain rfl := List.mem_singleton.1 hw'
      exact blocks_eq_nil_of_compared (Grammar.literal_package hlit) (hinside (Dice.ofSeed 0))
        (fun e => hp.closed (hw ▸ List.mem_singleton_self w')) he
    · have hkind := (hs (Dice.ofSeed 0)).kind
      rw [hlit] at hkind
      cases b with
      | package c' =>
        cases hown
        rfl
      | _ => cases hkind
  · have hempty := blocks_eq_nil_of_compared (fun inner hinner => hlit ⟨inner, hinner⟩)
      (hcompared (Dice.ofSeed 0)) hx hown
    refine ⟨?_, .inl hempty⟩
    simp [IsShallow, hempty]

/-- What a portable workspace contains are its stacks, those of packages, and empty ones. -/
theorem Portable.cases_contains (hp : ws.Portable l h) (ha : ws.Contains h a) :
    a ∈ ws.locs ∨ (ws.Holds h a ∧ IsShallow h a) ∨ h.blocks a = [] := by
  induction ha with
  | own mem => exact .inl mem
  | @inner a c b _ mem own ih =>
    rcases ih with hlocs | ⟨-, hshallow⟩ | hnil
    · obtain ⟨hshallow, hempty | rfl⟩ := hp.shallow hlocs mem own
      · exact .inr (.inr hempty)
      · exact .inr (.inl ⟨.packed (.own hlocs) mem, hshallow⟩)
    · exact .inr (.inr (hshallow b mem c own))
    · rw [hnil] at mem
      cases mem

/-- A stack that holds blocks holds them. -/
theorem Portable.holds (hp : ws.Portable l h) (ha : ws.Contains h a) {k : Nat} {x : Block}
    (hx : (h.blocks a)[k]? = some x) : ws.Holds h a := by
  rcases hp.cases_contains ha with hlocs | ⟨hholds, -⟩ | hnil
  · exact .own hlocs
  · exact hholds
  · rw [hnil] at hx
    cases hx

/-- What is within a shallow stack is one of its blocks. -/
theorem IsShallow.mem_of_within {b : Block} (hc : IsShallow h c) (hb : h.Within c b) :
    b ∈ h.blocks c := by
  cases hb with
  | here mem => exact mem
  | inner mem own deep =>
    have hnil := hc _ mem _ own
    cases deep with
    | here mem' | inner mem' =>
      rw [hnil] at mem'
      cases mem'

/-- **A portable workspace can be stored.** -/
theorem Portable.storable (hp : ws.Portable l h) : ws.Storable Grammar.core l h where
  allocated := hp.allocated
  closed := hp.closed
  named a ha := (hp.names a ha).1
  linked := hp.linked
  unshared ha ha' hx hx' := hp.unshared (hp.holds ha hx) (hp.holds ha' hx') hx hx'
  packages {a c b} ha hmem hb := by
    have hshallow : IsShallow h c := by
      rcases hp.cases_contains ha with hlocs | ⟨-, hshallow⟩ | hnil
      · exact (hp.shallow hlocs hmem rfl).1
      · simp [IsShallow, hshallow _ hmem c rfl]
      · rw [hnil] at hmem
        cases hmem
    obtain ⟨k, hk⟩ := List.mem_iff_getElem?.1 hmem
    exact hp.packages (hp.holds ha hk) hmem (hshallow.mem_of_within hb)
  survives := hp.survives

/-! ## The round trip -/

/-- What the text of a workspace is read as are the records of its stored form. -/
theorem records_eq_storedRecords (ws : Workspace) (h : Heap) :
    ws.records h = ws.storedRecords Grammar.core h := by
  rw [records, storedRecords_eq]
  refine List.map_congr_left fun c _ => ?_
  simp [record, storedRecord, StoredStack.toRecord, StoredStack.ofStack, StoredBlock.ofBlock,
    Heap.nameOf, Heap.blocks]

/-- The text of a portable workspace is read, as a copy of the workspace. -/
theorem Portable.exists_built (hp : ws.Portable l h) (dice : Dice) :
    ∃ ws' st, parse Grammar.core l (ws.written h) ⟨h, dice⟩ = .ok (ws', st) ∧
      Built l h (ws.storedRecords Grammar.core h) ws' st.heap := by
  have hb := ofRecords_built l (ws.records h) ⟨h, dice⟩
  have hread := parse_written hp.names hp.inputs hp.survives ⟨h, dice⟩
  rw [records_eq_storedRecords] at hb hread
  exact ⟨_, _, hread, hb⟩

/-- **The round trip of a workspace.** The text of a portable workspace is read; the workspace that
is read has as many stacks, with the same names and inputs in the same order, and each of them
equals the stack at its place as a graph, unless that one is listed before and leads back to itself:
it is read as several stacks, and those that are read for the later places lead to the first. The old
stacks are still what they were. -/
theorem parse_written_equals (hp : ws.Portable l h) (dice : Dice) :
    ∃ ws' st, parse Grammar.core l (ws.written h) ⟨h, dice⟩ = .ok (ws', st) ∧
      h.Grows st.heap ∧
      ws'.locs.length = ws.locs.length ∧
      ws'.locs.map st.heap.nameOf = ws.locs.map h.nameOf ∧
      (ws'.locs.map fun d => (st.heap.get d).inputs) = (ws.locs.map fun c => (h.get c).inputs) ∧
      ∀ (i : Nat) d c, ws'.locs[i]? = some d → ws.locs[i]? = some c →
        (st.heap.stackEquals d c = true ↔ ¬ ws.Recurs h i c) := by
  obtain ⟨ws', st, hread, hb⟩ := hp.exists_built dice
  refine ⟨ws', st, hread, hb.grows, ?_, hp.storable.names hb, Storable.inputs hb, ?_⟩
  · exact (forall₂_record hb).length_eq.symm
  · intro i d c hd hc
    exact hp.storable.stackEquals_iff hb hd hc

end

/-! ### An instance -/

/-- A heap with a cycle, a forward reference, two stacks of one name, a name with a blank, one with a
parenthesis, and an input that is a parenthesis. -/
def loopHeap : Heap :=
  ⟨#[⟨"f(", [.data 1 true, .string "\x7d", .error "no \x7b \""], ["a", ")"], false, none⟩,
    ⟨"g h", [.null 2, .package 3, .code "g h" (some 1), .data 5 false], [], false, none⟩,
    ⟨"null", [], [], false, none⟩,
    ⟨"T", [.boolean true], [], false, none⟩,
    ⟨"g h", [.code "g h" (some 1)], [], false, none⟩,
    ⟨"lost", [], [], false, none⟩]⟩

def loop : Workspace :=
  ⟨[0, 1, 4], 0⟩

theorem holds_loop {a : Loc} (h : loop.Holds loopHeap a) : a ∈ [0, 1, 3, 4] := by
  induction h with
  | own mem =>
    have hlocs : ∀ a ∈ loop.locs, a ∈ [0, 1, 3, 4] := by decide
    exact hlocs _ mem
  | packed _ mem ih =>
    have hclosed : ∀ a ∈ [0, 1, 3, 4], ∀ b ∈ loopHeap.blocks a, b.kind = .package →
        ∀ c ∈ b.stack?.toList, c ∈ [0, 1, 3, 4] := by decide
    exact hclosed _ ih _ mem rfl _ (by simp [Block.stack?])

theorem survives_of_literal {l : Localizer} {h : Heap} {b : Block} {x : Literal}
    (hx : Grammar.core.literal (h.written b) = x)
    (hmade : ∀ dice, Reread h b (x.make l ⟨h, dice⟩)) : Survives l h b := by
  intro dice
  rw [hx]
  exact hmade dice

theorem survives_loop (l : Localizer) :
    ∀ a ∈ loop.locs, ∀ b ∈ loopHeap.blocks a, Survives l loopHeap b := by
  have hcode : Survives l loopHeap (.code "g h" (some 1)) :=
    survives_of_literal (x := .code "g h") (by decide +kernel)
      fun _ => ⟨rfl, rfl, fun h => by cases h⟩
  intro a ha b hb
  simp only [loop, List.mem_cons, List.not_mem_nil, or_false] at ha
  rcases ha with rfl | rfl | rfl
  · replace hb : b ∈ [.data 1 true, .string "\x7d", .error "no \x7b \""] := hb
    simp only [List.mem_cons, List.not_mem_nil, or_false] at hb
    rcases hb with rfl | rfl | rfl
    · exact survives_of_literal (x := .data "g h") (by decide +kernel)
        fun _ => ⟨rfl, rfl, fun h => by cases h⟩
    · exact survives_of_literal (x := .string "\x7d") (by decide +kernel)
        fun _ => ⟨rfl, rfl, fun _ => rfl⟩
    · exact survives_of_literal (x := .error "no \x7b '") (by decide +kernel)
        fun _ => ⟨rfl, rfl, fun _ => rfl⟩
  · replace hb : b ∈ [.null 2, .package 3, .code "g h" (some 1), .data 5 false] := hb
    simp only [List.mem_cons, List.not_mem_nil, or_false] at hb
    rcases hb with rfl | rfl | rfl | rfl
    · exact survives_of_literal (x := .null) (by decide +kernel)
        fun _ => ⟨rfl, rfl, fun _ => rfl⟩
    · exact survives_of_literal (x := .package (.boolean true)) (by decide +kernel)
        fun _ => ⟨rfl, rfl, fun _ => rfl⟩
    · exact hcode
    · exact survives_of_literal (x := .data "lost") (by decide +kernel)
        fun _ => ⟨rfl, rfl, fun _ => rfl⟩
  · replace hb : b ∈ [.code "g h" (some 1)] := hb
    obtain rfl := List.mem_singleton.1 hb
    exact hcode

theorem portable_loop (l : Localizer) : loop.Portable l loopHeap where
  allocated := by decide
  closed {a c b} hb hc := by
    obtain ⟨k, hk⟩ := List.mem_iff_getElem?.1 hb
    have hclosed : ∀ a < 6, ∀ b ∈ loopHeap.blocks a, ∀ c ∈ b.target?.toList, c < 6 := by decide
    exact hclosed a (Heap.lt_size_of_getElem? hk) b hb c (by simp [hc])
  names a ha := by
    have hnames : (loop.locs.all fun a => loopHeap.nameOf a != "" &&
        (loopHeap.nameOf a).toList.all fun c => c != '\x7b' && c != '\x7d') = true := by decide
    simpa using List.all_eq_true.1 hnames a ha
  inputs a ha name hname := by
    have hinputs : (loop.locs.all fun a => (loopHeap.get a).inputs.all fun name =>
        !name.toList.isEmpty && name.toList.all fun c =>
          !Text.isBlank c && c != '\x7b' && c != '\x7d') = true := by decide
    simpa [IsName, and_assoc] using List.all_eq_true.1 (List.all_eq_true.1 hinputs a ha) name hname
  linked a ha b hb name hname := by
    have hlinked : ∀ a ∈ loop.locs, ∀ b ∈ loopHeap.blocks a,
        ∀ name ∈ (loopHeap.reference? b).toList, loop.find? loopHeap name = b.boundTo? := by decide
    exact hlinked a ha b hb name (by simp [hname])
  unshared {a a' k k' c x x'} ha ha' hx hx' hc hc' := by
    -- Every reference to a stack that some block owns stands at the place of that block.
    have howned : ∀ a ∈ [0, 1, 3, 4], ∀ x ∈ loopHeap.blocks a, ∀ c ∈ x.ownStack?.toList,
        c ∈ [2, 3, 5] := by decide
    have hplace : ∀ a ∈ [0, 1, 3, 4], ∀ p ∈ (loopHeap.blocks a).zipIdx, ∀ c ∈ p.1.target?.toList,
        c ∈ [2, 3, 5] → a = 1 ∧ (p.2, c) ∈ [(0, 2), (1, 3), (3, 5)] := by decide
    have hfunctional : ∀ p ∈ [(0, 2), (1, 3), (3, 5)], ∀ q ∈ [(0, 2), (1, 3), (3, 5)],
        p.2 = q.2 → p.1 = q.1 := by decide
    have ha := holds_loop ha
    have ha' := holds_loop ha'
    have hown := howned a ha x (List.mem_of_getElem? hx) c (by simp [hc])
    obtain ⟨rfl, hkc⟩ := hplace a ha (x, k) (List.mk_mem_zipIdx_iff_getElem?.2 hx) c
      (by simp [Block.target?_of_ownStack? hc]) hown
    obtain ⟨rfl, hkc'⟩ := hplace a' ha' (x', k') (List.mk_mem_zipIdx_iff_getElem?.2 hx') c
      (by simp [hc']) hown
    exact ⟨rfl, hfunctional _ hkc _ hkc' rfl⟩
  packages {a c b} ha hc hb := by
    have hpackages : ∀ a ∈ [0, 1, 3, 4], ∀ p ∈ loopHeap.blocks a, p.kind = .package →
        ∀ c ∈ p.stack?.toList, ∀ b ∈ loopHeap.blocks c, b.boundTo? = none := by decide
    exact hpackages a (holds_loop ha) _ hc rfl c (by simp [Block.stack?]) b hb
  survives := survives_loop l

theorem listed_loop : loop.Listed loopHeap :=
  ⟨by decide, by decide⟩

/-- Each stack of the instance is listed once, so each of them equals what is read for it. -/
theorem parse_written_equals_loop :
    loop.Portable .plain loopHeap ∧
      ∃ ws' st, parse Grammar.core .plain (loop.written loopHeap) ⟨loopHeap, Dice.ofSeed 0⟩
          = .ok (ws', st) ∧
        ws'.locs.length = 3 ∧
        ∀ (i : Nat) d c, ws'.locs[i]? = some d → loop.locs[i]? = some c →
          st.heap.stackEquals d c = true := by
  have hp := portable_loop .plain
  obtain ⟨ws', st, hparse, -, hlength, -, -, hequal⟩ := parse_written_equals hp (Dice.ofSeed 0)
  exact ⟨hp, ws', st, hparse, hlength, fun i d c hd hc =>
    (hequal i d c hd hc).2 (listed_loop.not_recurs hc)⟩

/-! ### A stack that is listed twice -/

/-- A heap with one stack, which refers to itself. -/
def knotHeap : Heap :=
  ⟨#[⟨"s", [.data 0 true], [], false, none⟩]⟩

/-- The stack, listed twice. -/
def twice : Workspace :=
  ⟨[0, 0], 0⟩

theorem blocks_knotHeap {a : Loc} {b : Block} (hb : b ∈ knotHeap.blocks a) :
    a = 0 ∧ b = .data 0 true := by
  obtain ⟨k, hk⟩ := List.mem_iff_getElem?.1 hb
  obtain rfl : a = 0 := Nat.lt_one_iff.1 (Heap.lt_size_of_getElem? hk)
  exact ⟨rfl, List.mem_singleton.1 hb⟩

theorem portable_twice (l : Localizer) : twice.Portable l knotHeap where
  allocated := by decide
  closed {a c b} hb hc := by
    obtain ⟨-, rfl⟩ := blocks_knotHeap hb
    cases hc
    decide
  names a ha := by
    have hnames : (twice.locs.all fun a => knotHeap.nameOf a != "" &&
        (knotHeap.nameOf a).toList.all fun c => c != '\x7b' && c != '\x7d') = true := by decide
    simpa using List.all_eq_true.1 hnames a ha
  inputs := by decide
  linked a ha b hb name hname := by
    obtain ⟨rfl, rfl⟩ := blocks_knotHeap hb
    cases hname
    decide
  unshared {a a' k k' c x x'} _ _ hx _ hown _ := by
    obtain ⟨-, rfl⟩ := blocks_knotHeap (List.mem_of_getElem? hx)
    cases hown
  packages {a c b} _ hc _ := by
    obtain ⟨-, hdata⟩ := blocks_knotHeap hc
    cases hdata
  survives a ha b hb := by
    obtain ⟨-, rfl⟩ := blocks_knotHeap hb
    exact survives_of_literal (x := .data "s") (by decide +kernel)
      fun _ => ⟨rfl, rfl, fun h => by cases h⟩

/-- At its second place, the stack of the instance recurs. -/
theorem recurs_twice : twice.Recurs knotHeap 1 0 :=
  ⟨by decide, .single ⟨.data 0 true, by decide, rfl⟩⟩

/-- What is read for the second place of a stack in itself leads to what is read for the first. -/
theorem not_parse_written_equals_twice :
    ¬ ∀ {l : Localizer} {h : Heap} {ws : Workspace}, ws.Portable l h → ∀ dice,
      ∃ ws' st, parse Grammar.core l (ws.written h) ⟨h, dice⟩ = .ok (ws', st) ∧
        ∀ (i : Nat) d c, ws'.locs[i]? = some d → ws.locs[i]? = some c →
          st.heap.stackEquals d c = true := by
  intro hall
  have hp := portable_twice .plain
  obtain ⟨ws', st, hparse, hequal⟩ := hall hp (Dice.ofSeed 0)
  obtain ⟨ws₁, st₁, hread, hb⟩ := hp.exists_built (Dice.ofSeed 0)
  obtain ⟨rfl, rfl⟩ := Prod.mk.inj (Except.ok.inj (hparse.symm.trans hread))
  obtain ⟨d, hd, hdiffers⟩ := hp.storable.exists_of_recurs hb rfl recurs_twice
  rw [hequal 1 d 0 hd rfl] at hdiffers
  cases hdiffers

end Workspace

end BlockMachine
