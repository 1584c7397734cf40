import BlockMachine.Proofs.Json.Compact
import BlockMachine.Proofs.Machine.WriteBack
import BlockMachine.Proofs.Workspace.Building

/-!
# Saved memory is loaded again

The saved form of a memory is an object of strings, and each of these is again the text of an object,
with strings for the defaults. Whatever characters ids, names and defaults hold, loading it gives the
objects with their defaults, and sets their variables as reloading does.

* `stringMap?_ordered` — an object of strings gives back the map it was written from;
* `readObjects?_written` — the objects in a saved form;
* `reload_congr` — reloading takes no notice of variables;
* `Memory.Restored` — an object as it is loaded: `reload_restored`;
* `read_written_eq_reload` — saving and loading.
-/

namespace BlockMachine

/-! ## Maps -/

/-- A key beyond all others comes last. -/
theorem Keyed.insert_last {α : Type} {m : Keyed α} {key : String} (value : α)
    (h : ∀ p ∈ m, p.1 < key) : Keyed.insert key value m = m ++ [(key, value)] := by
  induction m with
  | nil => rfl
  | cons p rest ih =>
    obtain ⟨k, v⟩ := p
    have hlt : k < key := h _ List.mem_cons_self
    rw [Keyed.insert, if_neg hlt.ne', if_neg (lt_asymm hlt),
      ih fun q hq => h q (List.mem_cons_of_mem _ hq)]
    rfl

namespace Json

/-- The tree of an object of strings. -/
def stringsOf (m : Keyed String) : Syntax :=
  objectOf (m.map fun p => (p.1, .string (points p.2)))

/-- An object of strings is read. -/
theorem delimited_strings (m : Keyed String) :
    Delimited (compactObject (m.map fun p => (p.1, quoted p.2))) (stringsOf m) := by
  apply Delimited.object
  rw [List.forall₂_map_left_iff, List.forall₂_map_right_iff, List.forall₂_same]
  exact fun p _ => ⟨rfl, delimited_quoted p.2⟩

/-- The strings of an object in order of their keys give back the map. -/
theorem stringMap?_ordered {m : Keyed String} (h : m.Ordered) :
    (stringsOf m).stringMap? = some m := by
  -- the members that were read come before those that are left
  have hfold : ∀ rest found : Keyed String, (found ++ rest).Ordered →
      (rest.map fun p => (points p.1, Syntax.string (points p.2))).foldlM
        (fun found (p : List Nat × Syntax) => do
          let k ← Json.string? p.1
          let v ← p.2.string?
          return Keyed.insert k v found) found = some (found ++ rest) := by
    intro rest
    induction rest with
    | nil =>
      intro found _
      rw [List.append_nil]
      rfl
    | cons p rest ih =>
      intro found hordered
      have hlast : ∀ q ∈ found, q.1 < p.1 := fun q hq =>
        (List.pairwise_append.1 hordered).2.2 q hq p List.mem_cons_self
      have hrest := ih (found ++ [p]) (by simpa using hordered)
      rw [List.map_cons, List.foldlM_cons]
      simp only [Syntax.string?, string?_points, Option.bind_eq_bind, Option.bind_some,
        Option.pure_def, Keyed.insert_last p.2 hlast]
      rw [List.append_assoc] at hrest
      exact hrest
  simpa [stringsOf, objectOf, Syntax.stringMap?, Function.comp_def] using hfold m [] h

end Json

namespace Memory

/-! ## The saved form -/

/-- The defaults in the saved form of an object. -/
theorem readDefaults?_writtenObject {o : ObjectState} (h : o.defaults.Ordered) :
    readDefaults? (writtenObject o) = some o.defaults := by
  have htree : Json.Delimited (writtenObject o)
      (Json.objectOf [("defaults", Json.stringsOf o.defaults)]) :=
    Json.Delimited.object (.cons ⟨rfl, Json.delimited_strings o.defaults⟩ .nil)
  have hfields : (Json.objectOf [("defaults", Json.stringsOf o.defaults)]).fields? ["defaults"]
      = some [("defaults", Json.stringsOf o.defaults)] := by
    simp [Json.objectOf, Json.Syntax.fields?, Json.string?_points, List.eraseDups_cons]
  simp [readDefaults?, htree.read?, hfields, Json.stringMap?_ordered h]

theorem mapM_readDefaults? {mem : Memory} (hdefaults : ∀ p ∈ mem, p.2.defaults.Ordered) :
    (mem.map fun p => (p.1, writtenObject p.2)).mapM (fun p : String × String =>
        (readDefaults? p.2).map fun defaults => (p.1, (⟨[], defaults⟩ : ObjectState)))
      = some (mem.map fun p => (p.1, ⟨[], p.2.defaults⟩)) := by
  induction mem with
  | nil => rfl
  | cons p mem ih =>
    obtain ⟨hp, hmem⟩ := List.forall_mem_cons.1 hdefaults
    simp [readDefaults?_writtenObject hp, ih hmem]

/-- The objects in a saved form. -/
theorem readObjects?_written {mem : Memory} (hids : Keyed.Ordered mem)
    (hdefaults : ∀ p ∈ mem, p.2.defaults.Ordered) :
    readObjects? (written mem) = some (mem.map fun p => (p.1, ⟨[], p.2.defaults⟩)) := by
  have htexts : Keyed.Ordered (mem.map fun p => (p.1, writtenObject p.2)) :=
    List.pairwise_map.2 hids
  have htree : Json.Delimited (written mem)
      (Json.stringsOf (mem.map fun p => (p.1, writtenObject p.2))) := by
    have hstrings := Json.delimited_strings (mem.map fun p => (p.1, writtenObject p.2))
    rw [List.map_map] at hstrings
    exact hstrings
  rw [readObjects?, htree.read?]
  simp only [Option.bind_eq_bind, Option.bind_some, Json.stringMap?_ordered htexts]
  exact mapM_readDefaults? hdefaults

/-! ## Reloading -/

/-- Reloading takes no notice of the variables that are there. -/
theorem reload_congr (env : Environment) (mem : Memory) :
    ∀ st : Store, reload env (mem.map fun p => (p.1, ⟨[], p.2.defaults⟩)) st = reload env mem st := by
  induction mem with
  | nil =>
    intro st
    rfl
  | cons p mem ih =>
    intro st
    simp only [List.map_cons, reload, ih]

/-- A block is what a text writes, and the stacks that were added for it are in a heap. What a random
block rolled is left open. -/
def Created (env : Environment) (h : Heap) (text : String) (b : Block) : Prop :=
  ∃ st : Store, (env.block text st).1 = b ∧ (env.block text st).2.heap.Grows h

/-- An object as it is loaded: with the defaults of the saved one, and one variable for each of them,
which is what the default writes. -/
structure Restored (env : Environment) (h : Heap) (o o' : ObjectState) : Prop where
  defaults : o'.defaults = o.defaults
  names : o'.values.map Prod.fst = o.defaults.map Prod.fst
  values : List.Forall₂ (fun d v => Created env h d.2 v.2) o.defaults o'.values

theorem defaultBlocks_names (env : Environment) (defaults : Keyed String) :
    ∀ st : Store, (defaultBlocks env defaults st).1.map Prod.fst = defaults.map Prod.fst := by
  induction defaults with
  | nil =>
    intro st
    rfl
  | cons d defaults ih =>
    intro st
    rw [defaultBlocks, List.map_cons, List.map_cons, ih]

theorem defaultBlocks_grows (env : Environment) (defaults : Keyed String) :
    ∀ st : Store, st.heap.Grows (defaultBlocks env defaults st).2.heap := by
  induction defaults with
  | nil =>
    intro st
    exact .refl _
  | cons d defaults ih =>
    intro st
    exact (Literal.make_grows _ _ st).trans (ih _)

theorem defaultBlocks_created (env : Environment) {h : Heap} (defaults : Keyed String) :
    ∀ st : Store, (defaultBlocks env defaults st).2.heap.Grows h →
      List.Forall₂ (fun d v => Created env h d.2 v.2) defaults
        (defaultBlocks env defaults st).1 := by
  induction defaults with
  | nil =>
    intro st _
    exact .nil
  | cons d defaults ih =>
    intro st hgrows
    have hlater := (defaultBlocks_grows env defaults (env.block d.2 st).2).trans hgrows
    exact .cons ⟨st, rfl, hlater⟩ (ih _ hgrows)

theorem reload_grows (env : Environment) (mem : Memory) :
    ∀ st : Store, st.heap.Grows (reload env mem st).2.heap := by
  induction mem with
  | nil =>
    intro st
    exact .refl _
  | cons p mem ih =>
    intro st
    exact (defaultBlocks_grows env p.2.defaults st).trans (ih _)

/-- Reloading restores every object, one after the other. -/
theorem reload_restored (env : Environment) {h : Heap} (mem : Memory) :
    ∀ st : Store, (reload env mem st).2.heap.Grows h →
      List.Forall₂ (fun p q => q.1 = p.1 ∧ Restored env h p.2 q.2) mem (reload env mem st).1 := by
  induction mem with
  | nil =>
    intro st _
    exact .nil
  | cons p mem ih =>
    intro st hgrows
    have hlater := (reload_grows env mem (defaultBlocks env p.2.defaults st).2).trans hgrows
    refine .cons ⟨rfl, rfl, ?_, ?_⟩ (ih _ hgrows)
    · exact defaultBlocks_names env p.2.defaults st
    · exact defaultBlocks_created env p.2.defaults st hlater

/-- Loading what was saved is reloading: it gives the same objects with the same defaults, and a
variable for each default and for nothing else. -/
theorem read_written_eq_reload (env : Environment) {mem : Memory} (hids : Keyed.Ordered mem)
    (hdefaults : ∀ p ∈ mem, p.2.defaults.Ordered) (st : Store) :
    read env (written mem) st = reload env mem st ∧
      List.Forall₂ (fun p q => q.1 = p.1 ∧ Restored env (read env (written mem) st).2.heap p.2 q.2)
        mem (read env (written mem) st).1 := by
  have hread : read env (written mem) st = reload env mem st := by
    rw [read, readObjects?_written hids hdefaults]
    exact reload_congr env mem st
  refine ⟨hread, ?_⟩
  rw [hread]
  exact reload_restored env mem st (.refl _)

/-- A robot whose id and defaults hold quotes, backslashes, control characters and characters beyond
the first plane, with a variable that has no default. -/
def quotingRobot : Memory :=
  [("r\x22\\\n", ⟨[("lost", .boolean true)],
    [("a\t\x22", "\x22say \\\x22hi\\\x22\\\\ \x22"), ("b\x01", "🎲 \u00e9"), ("c", "RandInt(1-6)")]⟩),
   ("δ", ObjectState.empty)]

/-- The robot is saved and loaded. -/
theorem read_written_eq_reload_quotingRobot :
    (Keyed.Ordered quotingRobot ∧ ∀ p ∈ quotingRobot, p.2.defaults.Ordered) ∧
      read Environment.standard (written quotingRobot) (Store.ofSeed 1)
        = reload Environment.standard quotingRobot (Store.ofSeed 1) := by
  have hids : Keyed.Ordered quotingRobot := by
    unfold Keyed.Ordered
    decide
  have hdefaults : ∀ p ∈ quotingRobot, p.2.defaults.Ordered := by
    unfold Keyed.Ordered
    decide
  exact ⟨⟨hids, hdefaults⟩, (read_written_eq_reload _ hids hdefaults _).1⟩

end Memory

end BlockMachine
