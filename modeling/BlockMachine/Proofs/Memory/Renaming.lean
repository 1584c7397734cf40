import BlockMachine.Proofs.Grammar.WrittenLiterals
import BlockMachine.Proofs.Heap.Across
import BlockMachine.Proofs.Memory.Saving

/-!
# Renaming an object

An object that gets a new id takes all references along: those in variables, which are blocks, and
those in defaults, which are texts. Reloading makes blocks of the texts again, and it makes no
difference whether an object is renamed before or after it.

* `Keyed.Agree` — maps with the same keys and related values;
* `Grammar.ReadsObjects` — references to objects are read as such: `core_readsObjects`, and
  `readsObjects_loadEach` for what is loaded on top;
* `Memory.SameAcross` — memories, each with a heap, with the same objects, defaults and variables;
* `Memory.Renamed` — all that renaming does to a memory: `renamed_rename`;
* `Created.sameAcross_renamed` — a default and its variable stay in step;
* `rename_reload` — renaming and reloading;
* `rename_unknown_keeps_iff` — renaming an object that there is not.
-/

namespace BlockMachine

/-! ## Maps with the same keys -/

namespace Keyed

/-- Maps with the same keys, in the same order, and related values. -/
def Agree {α β : Type} (R : α → β → Prop) (m : Keyed α) (n : Keyed β) : Prop :=
  List.Forall₂ (fun p q => q.1 = p.1 ∧ R p.2 q.2) m n

namespace Agree

variable {α β γ : Type} {R : α → β → Prop} {m : Keyed α} {n : Keyed β}

theorem of_names (hnames : n.map Prod.fst = m.map Prod.fst)
    (h : List.Forall₂ (fun p q => R p.2 q.2) m n) : Agree R m n := by
  induction h with
  | nil => exact .nil
  | cons hhead _ ih =>
    obtain ⟨hname, hrest⟩ := List.cons.inj hnames
    exact .cons ⟨hname, hhead⟩ (ih hrest)

/-- A map and its values, changed one by one. -/
theorem mapValues {f : α → β} (h : ∀ p ∈ m, R p.2 (f p.2)) : Agree R m (Keyed.mapValues f m) :=
  List.forall₂_map_right_iff.2 (List.forall₂_same.2 fun p hp => ⟨rfl, h p hp⟩)

theorem mapValues_left_iff {f : γ → α} {k : Keyed γ} :
    Agree R (Keyed.mapValues f k) n ↔ Agree (fun a b => R (f a) b) k n :=
  List.forall₂_map_left_iff

theorem find? (h : Agree R m n) (key : String) :
    Option.Rel R (Keyed.find? m key) (Keyed.find? n key) := by
  induction h with
  | nil => exact .none
  | @cons p q m n hhead _ ih =>
    obtain ⟨k, a⟩ := p
    obtain ⟨k', b⟩ := q
    obtain ⟨rfl, hab⟩ : k' = k ∧ R a b := hhead
    simp only [Keyed.find?, List.lookup_cons] at ih ⊢
    cases key == k' with
    | true => exact .some hab
    | false => exact ih

theorem insert (h : Agree R m n) (key : String) {a : α} {b : β} (hab : R a b) :
    Agree R (Keyed.insert key a m) (Keyed.insert key b n) := by
  induction h with
  | nil => exact .cons ⟨rfl, hab⟩ .nil
  | @cons p q m n hhead hrest ih =>
    rw [Keyed.insert, Keyed.insert, hhead.1]
    split
    · exact .cons ⟨rfl, hab⟩ hrest
    · split
      · exact .cons ⟨rfl, hab⟩ (.cons ⟨rfl, hhead.2⟩ hrest)
      · exact .cons ⟨rfl, hhead.2⟩ ih

theorem erase (h : Agree R m n) (key : String) :
    Agree R (Keyed.erase key m) (Keyed.erase key n) := by
  induction h with
  | nil => exact .nil
  | @cons p q m n hhead _ ih =>
    rw [Keyed.erase, Keyed.erase, List.filter_cons, List.filter_cons, hhead.1]
    split
    · exact .cons hhead ih
    · exact ih

theorem exists_left (h : Agree R m n) {q : String × β} (hq : q ∈ n) : ∃ p ∈ m, R p.2 q.2 := by
  induction h with
  | nil => cases hq
  | @cons p _ m n hhead _ ih =>
    rcases List.mem_cons.1 hq with rfl | hq
    · exact ⟨p, List.mem_cons_self, hhead.2⟩
    · obtain ⟨p, hp, hR⟩ := ih hq
      exact ⟨p, List.mem_cons_of_mem _ hp, hR⟩

/-- Two maps that agree with a third one. -/
theorem join {S : α → γ → Prop} {T : β → γ → Prop} {k : Keyed γ} (h : Agree R m n)
    (h' : Agree S m k) (hT : ∀ p ∈ m, ∀ b c, R p.2 b → S p.2 c → T b c) : Agree T n k := by
  induction h generalizing k with
  | nil =>
    cases h'
    exact .nil
  | cons hhead _ ih =>
    cases h' with
    | cons hhead' hrest' =>
      obtain ⟨hhere, hlater⟩ := List.forall_mem_cons.1 hT
      exact .cons ⟨hhead'.1.trans hhead.1.symm, hhere _ _ hhead.2 hhead'.2⟩ (ih hrest' hlater)

end Agree

end Keyed

/-! ## References to objects -/

namespace Grammar

/-- A reference to an object is read as such. This is up to the modules as well: their kinds are
tried first. -/
def ReadsObjects (g : Grammar) : Prop :=
  ∀ id : String, (∀ c ∈ id.toList, Kind.identChar c = true) →
    g.literal ("Object[" ++ id ++ "]") = .memory id

/-- It is enough that these tokens are of the built-in kind. -/
theorem readsObjects_of_entryOf? {g : Grammar}
    (h : ∀ id : String, (∀ c ∈ id.toList, Kind.identChar c = true) →
      g.entryOf? ("Object[" ++ id ++ "]").toList = some (coreEntry .memory)) :
    g.ReadsObjects := by
  intro id hid
  have htext : ("Object[" ++ id ++ "]").toList = "Object[".toList ++ id.toList ++ [']'] := by
    simp
  simp only [literal, literalAt, h id hid, contentWith, coreEntry, Literal.ofToken]
  rw [htext, Literal.readMemory_id hid, String.ofList_toList]

theorem entryOf?_object {id : String} (hid : ∀ c ∈ id.toList, Kind.identChar c = true) :
    core.entryOf? ("Object[" ++ id ++ "]").toList = some (coreEntry .memory) := by
  have hmatch : Kind.memory.pattern.Matches ("Object[" ++ id ++ "]").toList :=
    Kind.matches_memory.2 ⟨id.toList, hid, .inl (by simp)⟩
  -- no other kind has tokens that begin with this letter and have a bracket
  have honly : ∀ k ∈ Kind.all, k.pattern.starts 'O' = true → k.pattern.avoids '[' = false →
      k = .memory := by
    decide
  exact entryOf?_of_unique (by simp [Kind.all]) honly hmatch (by simp) (by simp)

theorem core_readsObjects : core.ReadsObjects :=
  readsObjects_of_entryOf? fun _ hid => entryOf?_object hid

/-- A module none of whose kinds has the text as a token. -/
def Spares (m : Module) (s : List Char) : Prop :=
  ∀ es, moduleEntries m 0 m.kinds = .ok es → ∀ e ∈ es, ¬ e.pattern.Matches s

/-- Loading such a module does not change what the text is a token of. -/
theorem Spares.entryOf?_load {m : Module} {s : List Char} (hm : Spares m s) {g g' : Grammar}
    (hload : g.load m = .ok g') : g'.entryOf? s = g.entryOf? s := by
  rw [load] at hload
  split at hload
  · rw [Except.ok.inj hload]
  · cases hentries : moduleEntries m 0 m.kinds with
    | error e =>
      rw [hentries] at hload
      cases hload
    | ok es =>
      rw [hentries, List.span_eq_takeWhile_dropWhile] at hload
      obtain rfl := Except.ok.inj hload
      have hnone : es.find? (fun e => e.pattern.matchesAll s) = none := by
        rw [List.find?_eq_none]
        exact fun e he hmatch => hm es hentries e he (Pattern.matchesAll_iff.1 hmatch)
      simp only [entryOf?, List.find?_append, hnone, Option.or_none]
      rw [← List.find?_append, List.takeWhile_append_dropWhile]

theorem entryOf?_loadEach {s : List Char} (ms : List Module) (hms : ∀ m ∈ ms, Spares m s) :
    ∀ {g g' : Grammar}, ms.foldlM load g = .ok g' → g'.entryOf? s = g.entryOf? s := by
  induction ms with
  | nil =>
    intro g g' hload
    rw [Except.ok.inj hload]
  | cons m ms ih =>
    intro g g' hload
    obtain ⟨hm, hrest⟩ := List.forall_mem_cons.1 hms
    rw [List.foldlM_cons] at hload
    cases hfirst : g.load m with
    | error e =>
      rw [hfirst] at hload
      cases hload
    | ok g₁ =>
      rw [hfirst] at hload
      exact (ih hrest hload).trans (hm.entryOf?_load hfirst)

/-- **References to objects are read as such**, whatever modules are loaded, as long as none of them
takes these tokens for a kind of its own. -/
theorem readsObjects_loadEach {ms : List Module} {g : Grammar} (hload : ms.foldlM load core = .ok g)
    (hms : ∀ m ∈ ms, ∀ id : String, (∀ c ∈ id.toList, Kind.identChar c = true) →
      Spares m ("Object[" ++ id ++ "]").toList) : g.ReadsObjects :=
  readsObjects_of_entryOf? fun id hid =>
    (entryOf?_loadEach ms (fun m hm => hms m hm id hid) hload).trans (entryOf?_object hid)

end Grammar

/-- Only a reference to an object makes one. -/
theorem Literal.make_eq_memory_iff {l : Localizer} {x : Literal} {st : Store} {id : String} :
    (x.make l st).1 = .memory id ↔ x = .memory id := by
  cases x <;>
    simp [make, Block.ofFraction, Store.null, Store.placeholder, Store.package, Store.alloc]

namespace Memory

variable {env : Environment} {old new : String} {h h' : Heap}

theorem renameBlock_of_ne {b : Block} (hb : b ≠ .memory old) : renameBlock old new b = b := by
  cases b with
  | memory id =>
    have hid : id ≠ old := fun heq => hb (congrArg Block.memory heq)
    rw [renameBlock, if_neg hid]
  | _ => rfl

theorem renameBlock_self : renameBlock old new (.memory old) = .memory new := by
  rw [renameBlock, if_pos rfl]

theorem renameText_of_ne {text : String} (htext : env.grammar.literal text ≠ .memory old) :
    renameText env old new text = text := by
  rw [renameText]
  split
  case h_1 id hid =>
    exact if_neg fun heq => htext (by rw [hid, heq])
  case h_2 => rfl

theorem renameText_of_eq {text : String} (htext : env.grammar.literal text = .memory old) :
    renameText env old new text = "Object[" ++ new ++ "]" := by
  simp [renameText, htext]

/-! ## What renaming does -/

/-- No variable is a reference to `old`, and no default is read as one. -/
structure Forgets (env : Environment) (old : String) (mem : Memory) : Prop where
  values : ∀ p ∈ mem, ∀ v ∈ p.2.values, v.2 ≠ .memory old
  defaults : ∀ p ∈ mem, ∀ d ∈ p.2.defaults, env.grammar.literal d.2 ≠ .memory old

/-- An object whose references to `old` have become references to `new`; all the rest of it is
unchanged. -/
structure Redirected (env : Environment) (old new : String) (o o' : ObjectState) : Prop where
  values : Keyed.Agree
    (fun b b' => b = .memory old ∧ b' = .memory new ∨ b ≠ .memory old ∧ b' = b) o.values o'.values
  defaults : Keyed.Agree
    (fun text text' =>
      env.grammar.literal text = .memory old ∧ text' = "Object[" ++ new ++ "]" ∨
        env.grammar.literal text ≠ .memory old ∧ text' = text) o.defaults o'.defaults

/-- The object `old` stands at `new`, in place of any object that stood there, and all references
have followed. -/
structure Renamed (env : Environment) (old new : String) (mem mem' : Memory) : Prop where
  forgets : Forgets env old mem'
  gone : mem'.find? old = none
  moved : ∃ o', mem'.find? new = some o' ∧ Redirected env old new (mem.object old) o'
  others : ∀ id, id ≠ old → id ≠ new →
    Option.Rel (Redirected env old new) (mem.find? id) (mem'.find? id)

/-- The memory with an object at its new place, before the references follow. -/
def moved (old new : String) (mem : Memory) : Memory :=
  Keyed.insert new (mem.object old) (Keyed.erase old mem)

/-- An object when the references follow. -/
def redirect (env : Environment) (old new : String) (o : ObjectState) : ObjectState :=
  ⟨Keyed.mapValues (renameBlock old new) o.values,
    Keyed.mapValues (renameText env old new) o.defaults⟩

theorem rename_eq (env : Environment) (old new : String) (mem : Memory) :
    rename env old new mem = Keyed.mapValues (redirect env old new) (moved old new mem) := rfl

theorem redirected_redirect (o : ObjectState) :
    Redirected env old new o (redirect env old new o) where
  values := Keyed.Agree.mapValues fun v _ => by
    by_cases hv : v.2 = .memory old
    · exact .inl ⟨hv, by rw [hv, renameBlock_self]⟩
    · exact .inr ⟨hv, renameBlock_of_ne hv⟩
  defaults := Keyed.Agree.mapValues fun d _ => by
    by_cases hd : env.grammar.literal d.2 = .memory old
    · exact .inl ⟨hd, renameText_of_eq hd⟩
    · exact .inr ⟨hd, renameText_of_ne hd⟩

/-- What stands at the new id afterwards. -/
theorem find?_rename_self (env : Environment) (old new : String) (mem : Memory) :
    (rename env old new mem).find? new = some (redirect env old new (mem.object old)) := by
  rw [rename_eq, Keyed.find?_mapValues, moved, Keyed.find?_insert_self]
  rfl

/-- What stands at any other id. -/
theorem find?_rename_of_ne (env : Environment) (old : String) {new id : String} (mem : Memory)
    (hid : id ≠ new) :
    (rename env old new mem).find? id =
      (Keyed.find? (Keyed.erase old mem) id).map (redirect env old new) := by
  rw [rename_eq, Keyed.find?_mapValues, moved, Keyed.find?_insert_of_ne _ _ hid]

theorem redirected_find? (env : Environment) (old new : String) (found : Option ObjectState) :
    Option.Rel (Redirected env old new) found (found.map (redirect env old new)) := by
  cases found with
  | none => exact .none
  | some o => exact .some (redirected_redirect o)

theorem renameBlock_ne (hne : old ≠ new) (b : Block) : renameBlock old new b ≠ .memory old := by
  by_cases hb : b = .memory old
  · rw [hb, renameBlock_self]
    exact fun heq => hne (Block.memory.inj heq).symm
  · rwa [renameBlock_of_ne hb]

section Renaming

variable (henv : env.grammar.ReadsObjects) (hnew : ∀ c ∈ new.toList, Kind.identChar c = true)

include henv hnew

theorem literal_renameText_ne (hne : old ≠ new) (text : String) :
    env.grammar.literal (renameText env old new text) ≠ .memory old := by
  by_cases htext : env.grammar.literal text = .memory old
  · rw [renameText_of_eq htext, henv new hnew]
    exact fun heq => hne (Literal.memory.inj heq).symm
  · rwa [renameText_of_ne htext]

/-- **What renaming does to a memory.** -/
theorem renamed_rename (hne : old ≠ new) (mem : Memory) :
    Renamed env old new mem (rename env old new mem) := by
  refine ⟨⟨?_, ?_⟩, ?_, ⟨_, find?_rename_self env old new mem, redirected_redirect _⟩, ?_⟩
  · intro p hp v hv
    obtain ⟨q, -, rfl⟩ := List.mem_map.1 hp
    obtain ⟨w, -, rfl⟩ := List.mem_map.1 hv
    exact renameBlock_ne hne w.2
  · intro p hp d hd
    obtain ⟨q, -, rfl⟩ := List.mem_map.1 hp
    obtain ⟨e, -, rfl⟩ := List.mem_map.1 hd
    exact literal_renameText_ne henv hnew hne e.2
  · rw [find?_rename_of_ne env old mem hne, Keyed.find?_erase_self]
    rfl
  · intro id hold hid
    rw [find?_rename_of_ne env old mem hid, Keyed.find?_erase_of_ne _ hold]
    exact redirected_find? env old new _

end Renaming

/-! ## Reloading before and after -/

/-- Objects with the same defaults, and the same variables but for the places of stacks. -/
structure ObjectSameAcross (h h' : Heap) (o o' : ObjectState) : Prop where
  defaults : o'.defaults = o.defaults
  values : Keyed.Agree (Block.SameAcross h h') o.values o'.values

/-- Memories with the same objects, defaults and variables but for the places of stacks. -/
def SameAcross (h h' : Heap) (mem mem' : Memory) : Prop :=
  Keyed.Agree (ObjectSameAcross h h') mem mem'

/-- No dice are rolled for the defaults of a memory. -/
def WithoutDice (env : Environment) (mem : Memory) : Prop :=
  ∀ p ∈ mem, ∀ d ∈ p.2.defaults, (env.grammar.literal d.2).rolls = false

theorem Created.eq_memory_iff {text : String} {b : Block} (hb : Created env h text b)
    {id : String} : b = .memory id ↔ env.grammar.literal text = .memory id := by
  obtain ⟨st, rfl, -⟩ := hb
  exact Literal.make_eq_memory_iff

/-- **A default and its variable stay in step.** The variable that a renamed default gives is the
one that the default gave, renamed. -/
theorem Created.sameAcross_renamed (henv : env.grammar.ReadsObjects)
    (hnew : ∀ c ∈ new.toList, Kind.identChar c = true) {text : String} {b b' : Block}
    (hdice : (env.grammar.literal text).rolls = false) (hb : Created env h text b)
    (hb' : Created env h' (renameText env old new text) b') :
    (renameBlock old new b).SameAcross h h' b' := by
  by_cases htext : env.grammar.literal text = .memory old
  · rw [renameText_of_eq htext] at hb'
    rw [hb.eq_memory_iff.2 htext, renameBlock_self, hb'.eq_memory_iff.2 (henv new hnew)]
    exact .of_none rfl h h'
  · rw [renameText_of_ne htext] at hb'
    rw [renameBlock_of_ne fun heq => htext (hb.eq_memory_iff.1 heq)]
    obtain ⟨st, rfl, hgrows⟩ := hb
    obtain ⟨st', rfl, hgrows'⟩ := hb'
    exact Literal.make_sameAcross _ hdice st st' hgrows hgrows'

theorem Restored.agree {o o' : ObjectState} (ho : Restored env h o o') :
    Keyed.Agree (Created env h) o.defaults o'.values :=
  .of_names ho.names ho.values

/-- An object that was reloaded and redirected, and the same object that was redirected and
reloaded. -/
theorem Restored.sameAcross_redirected (henv : env.grammar.ReadsObjects)
    (hnew : ∀ c ∈ new.toList, Kind.identChar c = true) {o o₁ o₂ : ObjectState}
    (hdice : ∀ d ∈ o.defaults, (env.grammar.literal d.2).rolls = false)
    (h₁ : Restored env h o o₁) (h₂ : Restored env h' (redirect env old new o) o₂) :
    ObjectSameAcross h h' (redirect env old new o₁) o₂ where
  defaults := by
    rw [h₂.defaults, redirect, redirect, h₁.defaults]
  values := by
    have hvalues := h₁.agree
    have hredirected := Keyed.Agree.mapValues_left_iff.1 h₂.agree
    refine Keyed.Agree.mapValues_left_iff.2 (hvalues.join hredirected fun d hd b b' hb hb' => ?_)
    exact hb.sameAcross_renamed henv hnew (hdice d hd) hb'

theorem restored_object {mem mem' : Memory} (hmem : Keyed.Agree (Restored env h) mem mem')
    (id : String) : Restored env h (mem.object id) (mem'.object id) := by
  have hfound := hmem.find? id
  rw [object, object]
  generalize Keyed.find? mem id = found, Keyed.find? mem' id = found' at hfound
  cases hfound with
  | none => exact ⟨rfl, rfl, .nil⟩
  | some ho => exact ho

theorem withoutDice_moved {mem : Memory} (hdice : WithoutDice env mem) :
    WithoutDice env (moved old new mem) := by
  intro p hp
  rcases Keyed.mem_insert hp with rfl | hp
  · intro d hd
    rw [object] at hd
    cases hfound : Keyed.find? mem old with
    | none =>
      rw [hfound] at hd
      cases hd
    | some o =>
      rw [hfound] at hd
      exact hdice _ (Keyed.mem_of_find? hfound) d hd
  · exact hdice p (List.mem_filter.1 hp).1

theorem agree_reload (env : Environment) (mem : Memory) (st : Store) :
    Keyed.Agree (Restored env (reload env mem st).2.heap) mem (reload env mem st).1 :=
  reload_restored env mem st (.refl _)

/-- What was forgotten by all defaults is not in the variables that they give. -/
theorem forgets_reload {mem : Memory} (hmem : Forgets env old mem) (st : Store) :
    Forgets env old (reload env mem st).1 := by
  have hreloaded := agree_reload env mem st
  refine ⟨fun q hq v hv => ?_, fun q hq d hd => ?_⟩
  · obtain ⟨p, hp, ho⟩ := hreloaded.exists_left hq
    obtain ⟨d, hd, hcreated⟩ := ho.agree.exists_left hv
    exact fun heq => hmem.defaults p hp d hd (hcreated.eq_memory_iff.1 heq)
  · obtain ⟨p, hp, ho⟩ := hreloaded.exists_left hq
    rw [ho.defaults] at hd
    exact hmem.defaults p hp d hd

/-- **Renaming and reloading commute.** -/
theorem rename_reload (henv : env.grammar.ReadsObjects)
    (hnew : ∀ c ∈ new.toList, Kind.identChar c = true) (old : String) {mem : Memory}
    (hdice : WithoutDice env mem) (st : Store) :
    SameAcross (reload env mem st).2.heap (reload env (rename env old new mem) st).2.heap
        (rename env old new (reload env mem st).1) (reload env (rename env old new mem) st).1 ∧
      (old ≠ new →
        Renamed env old new mem (rename env old new mem) ∧
        Renamed env old new (reload env mem st).1 (rename env old new (reload env mem st).1) ∧
        Forgets env old (reload env (rename env old new mem) st).1) := by
  refine ⟨?_, fun hne => ?_⟩
  · -- both memories come, object by object, from the one that has the object at its new place
    have hreloaded := agree_reload env mem st
    have hmoved := (hreloaded.erase old).insert new (restored_object hreloaded old)
    have hrenamed := Keyed.Agree.mapValues_left_iff (f := redirect env old new)
      (k := moved old new mem) |>.1 (agree_reload env (rename env old new mem) st)
    rw [rename_eq env old new (reload env mem st).1]
    refine Keyed.Agree.mapValues_left_iff.2 (hmoved.join hrenamed fun p hp o₁ o₂ h₁ h₂ => ?_)
    exact h₁.sameAcross_redirected henv hnew (withoutDice_moved hdice p hp) h₂
  · have hrenamed := renamed_rename henv hnew hne mem
    exact ⟨hrenamed, renamed_rename henv hnew hne _, forgets_reload hrenamed.forgets st⟩

/-- A door that knows itself, a gate in its way, and a switch that refers to both and holds a
package and an empty stack. -/
def doors : Memory :=
  [("door", ⟨[("self", .memory "door")], [("self", "Object[door]")]⟩),
   ("gate", ⟨[("open", .boolean true)], [("open", "T")]⟩),
   ("switch", ⟨[("target", .memory "door")],
    [("boxed", "[@null]"), ("other", "Object[gate]"), ("spare", "@null"),
      ("target", "Object[door, \x7b\x22x\x22\x7d]")]⟩)]

/-- The door takes the place of the gate. -/
theorem rename_reload_doors :
    ((∀ c ∈ "gate".toList, Kind.identChar c = true) ∧ WithoutDice Environment.standard doors ∧
        "door" ≠ "gate") ∧
      SameAcross (reload Environment.standard doors (Store.ofSeed 1)).2.heap
          (reload Environment.standard (rename Environment.standard "door" "gate" doors)
            (Store.ofSeed 1)).2.heap
          (rename Environment.standard "door" "gate"
            (reload Environment.standard doors (Store.ofSeed 1)).1)
          (reload Environment.standard (rename Environment.standard "door" "gate" doors)
            (Store.ofSeed 1)).1 ∧
        Renamed Environment.standard "door" "gate" doors
          (rename Environment.standard "door" "gate" doors) := by
  have henv : Environment.standard.grammar.ReadsObjects := Grammar.core_readsObjects
  have hnew : ∀ c ∈ "gate".toList, Kind.identChar c = true := List.all_eq_true.1 (by decide)
  have hdice : WithoutDice Environment.standard doors := by
    unfold WithoutDice
    decide
  have hne : "door" ≠ "gate" := by decide
  have hrenamed := rename_reload henv hnew "door" hdice (Store.ofSeed 1)
  exact ⟨⟨hnew, hdice, hne⟩, hrenamed.1, (hrenamed.2 hne).1⟩

/-! ## An id that no object has -/

/-- Every object is still there, with all of its variables and defaults. -/
def KeepsObjects (env : Environment) (old new : String) (mem mem' : Memory) : Prop :=
  ∀ id o, mem.find? id = some o → ∃ o', mem'.find? id = some o' ∧ Redirected env old new o o'

/-- Only an empty object becomes an empty one. -/
theorem redirected_empty_iff {o : ObjectState} :
    Redirected env old new o ObjectState.empty ↔ o = ObjectState.empty := by
  constructor
  · rintro ⟨hvalues, hdefaults⟩
    obtain ⟨values, defaults⟩ := o
    obtain rfl := List.forall₂_nil_right_iff.1 hvalues
    obtain rfl := List.forall₂_nil_right_iff.1 hdefaults
    rfl
  · rintro rfl
    exact ⟨.nil, .nil⟩

/-- **Renaming what is not there.** If no object has the id `old`, an empty object is put at `new`,
in place of one that stands there; references follow in all others, which are as they were apart
from that. So no object loses anything if and only if there was none at `new`, or an empty one. -/
theorem rename_unknown_keeps_iff (env : Environment) (new : String) {mem : Memory}
    (hold : mem.find? old = none) :
    (rename env old new mem).find? new = some ObjectState.empty ∧
      (∀ id, id ≠ new →
        Option.Rel (Redirected env old new) (mem.find? id) ((rename env old new mem).find? id)) ∧
      (KeepsObjects env old new mem (rename env old new mem) ↔
        mem.object new = ObjectState.empty) := by
  have hself : (rename env old new mem).find? new = some ObjectState.empty := by
    rw [find?_rename_self, object, hold]
    rfl
  have hothers : ∀ id, id ≠ new →
      Option.Rel (Redirected env old new) (mem.find? id) ((rename env old new mem).find? id) := by
    intro id hid
    have herased : Keyed.find? (Keyed.erase old mem) id = mem.find? id := by
      by_cases hid' : id = old
      · rw [hid', Keyed.find?_erase_self, hold]
      · exact Keyed.find?_erase_of_ne _ hid'
    rw [find?_rename_of_ne env old mem hid, herased]
    exact redirected_find? env old new _
  refine ⟨hself, hothers, fun hkeeps => ?_, fun hempty id o ho => ?_⟩
  · rw [object]
    cases hfound : mem.find? new with
    | none => rfl
    | some o =>
      obtain ⟨o', ho', hredirected⟩ := hkeeps new o hfound
      obtain rfl := Option.some.inj (ho'.symm.trans hself)
      exact redirected_empty_iff.1 hredirected
  · by_cases hid : id = new
    · obtain rfl : o = ObjectState.empty := by
        rw [object, ← hid, ho] at hempty
        exact hempty
      exact ⟨_, hid ▸ hself, redirected_empty_iff.2 rfl⟩
    · have hrel := hothers id hid
      cases hfound : (rename env old new mem).find? id with
      | none =>
        rw [ho, hfound] at hrel
        cases hrel
      | some o' =>
        rw [ho, hfound] at hrel
        cases hrel with
        | some hredirected => exact ⟨o', rfl, hredirected⟩

/-- There is no lift: called a gate, it leaves the gate without its variables. Called a hatch, it
does no harm. -/
theorem rename_unknown_keeps_iff_doors :
    doors.find? "lift" = none ∧
      ¬ KeepsObjects Environment.standard "lift" "gate" doors
          (rename Environment.standard "lift" "gate" doors) ∧
      KeepsObjects Environment.standard "lift" "hatch" doors
        (rename Environment.standard "lift" "hatch" doors) := by
  have hlift : doors.find? "lift" = none := by decide
  refine ⟨hlift, fun hkeeps => ?_, ?_⟩
  · have hgate := (rename_unknown_keeps_iff .standard "gate" hlift).2.2.1 hkeeps
    have hopen : (doors.object "gate").values ≠ [] := by decide
    exact hopen (congrArg ObjectState.values hgate)
  · have hhatch : doors.object "hatch" = ObjectState.empty := rfl
    exact (rename_unknown_keeps_iff .standard "hatch" hlift).2.2.2 hhatch

end Memory

end BlockMachine
