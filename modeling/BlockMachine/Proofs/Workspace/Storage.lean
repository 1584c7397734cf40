import BlockMachine.Proofs.Json.Layouts
import BlockMachine.Proofs.Workspace.RoundTrip

/-!
# Stored workspaces are restored

Storing a workspace flattens its graph into records of texts and numbers, writes these as JSON, and
forgets which blocks were bound. Restoring reads the JSON, makes a block of each text and binds it
again by name. Names, inputs and texts may hold any characters; the JSON text escapes them.

* `StoredBlock.tree`, `StoredStack.tree` — what the records are read as;
* `Workspace.ofJson_pretty` — the JSON text of a workspace is read as its records;
* `Workspace.ofJson_pretty_equals` — a workspace is restored, with its names, inputs, graphs and
  numbers of kinds.
-/

namespace BlockMachine

open Json (points numeralOf objectOf)

/-- A number that a record can hold. -/
def IsStored (n : Int) : Prop :=
  -0x80000000 ≤ n ∧ n < 0x80000000

/-! ## Records -/

/-- A list is read item by item. -/
theorem list?_map {α : Type} {item : Json.Syntax → Option α} {tree : α → Json.Syntax} {xs : List α}
    (h : ∀ x ∈ xs, item (tree x) = some x) :
    Json.Syntax.list? item (.array (xs.map tree)) = some xs := by
  rw [Json.Syntax.list?]
  induction xs with
  | nil => rfl
  | cons x xs ih =>
    obtain ⟨hx, hxs⟩ := List.forall_mem_cons.1 h
    simp [hx, ih hxs]

theorem forall₂_map {α β γ : Type} {R : β → γ → Prop} {f : α → β} {f' : α → γ} {xs : List α}
    (h : ∀ x ∈ xs, R (f x) (f' x)) : List.Forall₂ R (xs.map f) (xs.map f') := by
  rw [List.forall₂_map_left_iff, List.forall₂_map_right_iff, List.forall₂_same]
  exact h

namespace StoredBlock

/-- What the record of a block is read as. -/
def tree (b : StoredBlock) : Json.Syntax :=
  objectOf [("type", .number (numeralOf b.typeId)), ("data", .string (points b.data))]

theorem layout_reads (b : StoredBlock) : b.layout.Reads b.tree :=
  Json.reads_record (.cons ⟨rfl, Json.reads_intText _⟩ (.cons ⟨rfl, Json.reads_quoted _⟩ .nil))

theorem ofSyntax?_tree {b : StoredBlock} (hb : IsStored b.typeId) : ofSyntax? b.tree = some b := by
  have hfields : b.tree.fields? ["type", "data"]
      = some [("type", .number (numeralOf b.typeId)), ("data", .string (points b.data))] := by
    simp [tree, objectOf, Json.Syntax.fields?, Json.string?_points]
    decide
  simp [ofSyntax?, hfields, List.lookup_cons, Json.int32?_numeralOf hb, Json.Syntax.string?,
    Json.string?_points]

end StoredBlock

namespace StoredStack

/-- What the record of a stack is read as. -/
def tree (s : StoredStack) : Json.Syntax :=
  objectOf
    [("name", .string (points s.name)), ("blocks", .array (s.blocks.map StoredBlock.tree)),
      ("inputs", .array (s.inputs.map fun name => .string (points name)))]

theorem layout_reads (s : StoredStack) : s.layout.Reads s.tree := by
  have hblocks : List.Forall₂ Json.Layout.Reads (s.blocks.map StoredBlock.layout)
      (s.blocks.map StoredBlock.tree) :=
    forall₂_map fun b _ => b.layout_reads
  have hinputs : List.Forall₂ Json.Layout.Reads
      (s.inputs.map fun name => .text (Json.quoted name))
      (s.inputs.map fun name => .string (points name)) :=
    forall₂_map fun name _ => Json.reads_quoted name
  exact Json.reads_record (.cons ⟨rfl, Json.reads_quoted _⟩
    (.cons ⟨rfl, Json.reads_list hblocks⟩ (.cons ⟨rfl, Json.reads_list hinputs⟩ .nil)))

theorem ofSyntax?_tree {s : StoredStack} (hs : ∀ b ∈ s.blocks, IsStored b.typeId) :
    ofSyntax? s.tree = some s := by
  have hfields : s.tree.fields? ["name", "blocks", "inputs"]
      = some [("name", .string (points s.name)), ("blocks", .array (s.blocks.map StoredBlock.tree)),
        ("inputs", .array (s.inputs.map fun name => .string (points name)))] := by
    simp [tree, objectOf, Json.Syntax.fields?, Json.string?_points]
    decide
  have hblocks : Json.Syntax.list? StoredBlock.ofSyntax? (.array (s.blocks.map StoredBlock.tree))
      = some s.blocks :=
    list?_map fun b hb => StoredBlock.ofSyntax?_tree (hs b hb)
  have hinputs : Json.Syntax.list? Json.Syntax.string?
      (.array (s.inputs.map fun name => .string (points name))) = some s.inputs :=
    list?_map fun name _ => Json.string?_points name
  simp [ofSyntax?, optional, hfields, List.lookup_cons, hblocks, hinputs, Json.Syntax.string?,
    Json.string?_points]

end StoredStack

/-! ## Kinds -/

/-- The number of a kind can be stored, if a module gives numbers that can. -/
theorem Kind.isStored_storedId {k : Kind} (hk : ∀ n, k = .extension n → IsStored n) :
    IsStored k.storedId := by
  cases k with
  | extension n => exact hk n rfl
  | operator op =>
    rw [IsStored]
    cases op <;> decide
  | _ =>
    rw [IsStored]
    decide

namespace Workspace

variable {g : Grammar} {l : Localizer} {h : Heap} {ws : Workspace}

/-- **The JSON text of a workspace is read** as its records. -/
theorem ofJson_pretty
    (hids : ∀ a ∈ ws.locs, ∀ ext, .extension ext ∈ h.blocks a → IsStored ext.typeId) (st : Store) :
    ofJson g l (ws.pretty h) st = .ok (ofRecords l (ws.storedRecords g h) st) := by
  have hreads : Json.Layout.Reads (.list ((ws.stored h).map StoredStack.layout))
      (.array ((ws.stored h).map StoredStack.tree)) :=
    Json.reads_list (forall₂_map fun s _ => s.layout_reads)
  have hstored : ∀ s ∈ ws.stored h, StoredStack.ofSyntax? s.tree = some s := by
    intro s hs
    obtain ⟨a, ha, rfl⟩ := List.mem_map.1 hs
    refine StoredStack.ofSyntax?_tree fun r hr => ?_
    obtain ⟨b, hb, rfl⟩ := List.mem_map.1 hr
    refine Kind.isStored_storedId fun n hn => ?_
    cases b with
    | extension ext =>
      cases hn
      exact hids a ha ext hb
    | _ => cases hn
  simp only [ofJson, pretty, hreads.read?, Option.bind_some, list?_map hstored]
  rfl

theorem typeIds_stored (ws : Workspace) (h : Heap) :
    ((ws.stored h).map fun s => s.blocks.map StoredBlock.typeId)
      = (ws.locs.map fun c => (h.blocks c).map Block.kind).map (List.map Kind.storedId) := by
  simp [stored, StoredStack.ofStack, StoredBlock.ofBlock, Heap.blocks, Function.comp_def]

/-- **A stored workspace is restored.** The JSON text of a workspace that can be stored is read; the
workspace that is restored has as many stacks, with the same names and inputs in the same order, each
of them equals the stack at its place as a graph, unless that one is listed before and leads back to
itself, and storing it again gives the same numbers of kinds. The old stacks are still what they
were. -/
theorem ofJson_pretty_equals (hp : ws.Storable g l h)
    (hids : ∀ a ∈ ws.locs, ∀ ext, .extension ext ∈ h.blocks a → IsStored ext.typeId)
    (dice : Dice) :
    ∃ ws' st, ofJson g l (ws.pretty h) ⟨h, dice⟩ = .ok (ws', st) ∧
      h.Grows st.heap ∧
      ws'.locs.length = ws.locs.length ∧
      ws'.locs.map st.heap.nameOf = ws.locs.map h.nameOf ∧
      (ws'.locs.map fun d => (st.heap.get d).inputs) = (ws.locs.map fun c => (h.get c).inputs) ∧
      (∀ (i : Nat) d c, ws'.locs[i]? = some d → ws.locs[i]? = some c →
        (st.heap.stackEquals d c = true ↔ ¬ ws.Recurs h i c)) ∧
      ((ws'.stored st.heap).map fun s => s.blocks.map StoredBlock.typeId)
        = ((ws.stored h).map fun s => s.blocks.map StoredBlock.typeId) := by
  have hread := ofJson_pretty (g := g) (l := l) hids ⟨h, dice⟩
  have hb := ofRecords_built l (ws.storedRecords g h) ⟨h, dice⟩
  generalize ofRecords l (ws.storedRecords g h) ⟨h, dice⟩ = restored at hread hb
  obtain ⟨ws', st⟩ := restored
  refine ⟨ws', st, hread, hb.grows, ?_, hp.names hb, Storable.inputs hb, ?_, ?_⟩
  · exact (forall₂_record hb).length_eq.symm
  · intro i d c hd hc
    exact hp.stackEquals_iff hb hd hc
  · rw [typeIds_stored, typeIds_stored, hp.kinds hb]

theorem ofJson_pretty_equals_loop :
    loop.Storable Grammar.core .plain loopHeap ∧
      ∃ ws' st, ofJson Grammar.core .plain (loop.pretty loopHeap) ⟨loopHeap, Dice.ofSeed 0⟩
          = .ok (ws', st) ∧
        ws'.locs.length = 3 ∧
        (∀ (i : Nat) d c, ws'.locs[i]? = some d → loop.locs[i]? = some c →
          st.heap.stackEquals d c = true) ∧
        ((ws'.stored st.heap).map fun s => s.blocks.map StoredBlock.typeId)
          = [[5000, 1003, 1000], [5001, 5010, 6000, 5000], [6000]] := by
  have hp := (portable_loop .plain).storable
  have hids : ∀ a ∈ loop.locs, ∀ ext, .extension ext ∈ loopHeap.blocks a →
      IsStored ext.typeId := by
    intro a ha ext hext
    have hkinds : ∀ a ∈ loop.locs, ∀ b ∈ loopHeap.blocks a,
        b.kind ∈ [.data, .string, .error, .null, .package, .code] := by decide
    have hkind := hkinds a ha _ hext
    simp [Block.kind] at hkind
  obtain ⟨ws', st, hread, -, hlength, -, -, hequal, htypes⟩ :=
    ofJson_pretty_equals hp hids (Dice.ofSeed 0)
  refine ⟨hp, ws', st, hread, hlength, fun i d c hd hc => ?_, htypes.trans ?_⟩
  · exact (hequal i d c hd hc).2 (listed_loop.not_recurs hc)
  · decide +kernel

/-- What is restored for the second place of a stack in itself leads to what is restored for the
first. -/
theorem not_ofJson_pretty_equals_twice :
    ¬ ∀ {g : Grammar} {l : Localizer} {h : Heap} {ws : Workspace}, ws.Storable g l h →
      (∀ a ∈ ws.locs, ∀ ext, .extension ext ∈ h.blocks a → IsStored ext.typeId) → ∀ dice,
        ∃ ws' st, ofJson g l (ws.pretty h) ⟨h, dice⟩ = .ok (ws', st) ∧
          ∀ (i : Nat) d c, ws'.locs[i]? = some d → ws.locs[i]? = some c →
            st.heap.stackEquals d c = true := by
  intro hall
  have hp := (portable_twice .plain).storable
  have hids : ∀ a ∈ twice.locs, ∀ ext, .extension ext ∈ knotHeap.blocks a →
      IsStored ext.typeId := by
    intro a _ ext hext
    obtain ⟨-, hdata⟩ := blocks_knotHeap hext
    cases hdata
  obtain ⟨ws', st, hjson, hequal⟩ := hall hp hids (Dice.ofSeed 0)
  have hread := ofJson_pretty (g := Grammar.core) (l := .plain) hids ⟨knotHeap, Dice.ofSeed 0⟩
  have hb := ofRecords_built .plain (twice.storedRecords Grammar.core knotHeap)
    ⟨knotHeap, Dice.ofSeed 0⟩
  rw [← Except.ok.inj (hjson.symm.trans hread)] at hb
  obtain ⟨d, hd, hdiffers⟩ := hp.exists_of_recurs hb rfl recurs_twice
  rw [hequal 1 d 0 hd rfl] at hdiffers
  cases hdiffers

end Workspace

end BlockMachine
