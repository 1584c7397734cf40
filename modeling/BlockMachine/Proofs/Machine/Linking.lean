import BlockMachine.Proofs.Machine.References
import BlockMachine.Proofs.Machine.SampleScope
import BlockMachine.Proofs.Machine.Segments
import BlockMachine.Proofs.Machine.StackDiscipline
import BlockMachine.Proofs.Workspace.Partners

/-!
# References are linked once

A reference names a stack. Reading a workspace binds each reference in it to the first stack of its
name, wherever that is declared. What a machine does with a copy of a reference later on can bind it
if it is not bound yet, and only that.

* `Record.stackName`, `Workspace.Linked` — a workspace with its references bound as its records say:
  `linked_of_built`;
* `Carried` — a block, and the copy of it that an operation leaves somewhere else;
  `Carried.cases` — the copy is the block itself, or the block resolved;
* `Travels` — copies of copies, along with the workspaces in which these were looked up:
  `Travels.eq_of_boundTo?`, `Travels.boundTo?_eq`;
* `references_link_once` — references in a workspace that is read, and copies of references.
-/

namespace BlockMachine

/-! ## Workspaces that are read -/

namespace Block

variable {b : Block} {loc : Loc}

theorem exists_reference?_of_boundTo? (hb : b.boundTo? = some loc) (h : Heap) :
    ∃ name, h.reference? b = some name := by
  cases b with
  | data found resolved => exact ⟨h.nameOf found, rfl⟩
  | code name target => exact ⟨name, rfl⟩
  | _ => cases hb

end Block

/-- The name of the stack of a record. -/
def Record.stackName (r : Record) : String :=
  if r.name.isEmpty then "i" else r.name

namespace Workspace

/-- A workspace with one stack for each record, in order. The names in it are those in the records,
and each reference is bound to the stack of the first record of its name, if there is one. -/
structure Linked (records : List Record) (ws : Workspace) (h : Heap) : Prop where
  distinct : ws.locs.Nodup
  inside : ∀ loc ∈ ws.locs, ∀ b ∈ h.blocks loc, b.Inside h.size
  names : ws.locs.map h.nameOf = records.map Record.stackName
  references : (ws.locs.map fun loc => (h.blocks loc).map h.reference?) =
    records.map fun r => r.body.map Literal.reference?
  bound : ∀ loc ∈ ws.locs, ∀ b ∈ h.blocks loc, ∀ name, h.reference? b = some name →
    b.boundTo? = (records.findIdx? fun r => r.stackName == name).bind fun i => ws.locs[i]?

/-- The first stack of a name is that of the first record of the name. -/
theorem find?_of_names {ws : Workspace} {h : Heap} {records : List Record}
    (hnames : ws.locs.map h.nameOf = records.map Record.stackName) (name : String) :
    ws.find? h name =
      (records.findIdx? fun r => r.stackName == name).bind fun i => ws.locs[i]? := by
  have hplace : (ws.locs.findIdx? fun loc => h.nameOf loc == name) =
      records.findIdx? fun r => r.stackName == name := by
    have := congrArg (List.findIdx? (· == name)) hnames
    rwa [List.findIdx?_map, List.findIdx?_map] at this
  rw [find?, List.find?_eq_bind_findIdx?_getElem?, hplace]

/-- In a workspace that is built, each reference is bound to the first stack of its name, if there
is one. -/
theorem Built.boundTo?_eq {l : Localizer} {h final : Heap} {records : List Record} {ws : Workspace}
    (hbuilt : Built l h records ws final) {loc : Loc} (hloc : loc ∈ ws.locs) {b : Block}
    (hb : b ∈ final.blocks loc) {name : String} (hname : final.reference? b = some name) :
    b.boundTo? = ws.find? final name := by
  obtain ⟨i, hi⟩ := List.mem_iff_getElem?.1 hloc
  obtain ⟨r, -, hr⟩ := exists_left_of_forall₂ hbuilt.made hi
  obtain ⟨ys, hmade, hblocks⟩ := hr.blocks
  rw [hblocks] at hb
  obtain ⟨y, hy, rfl⟩ := List.mem_map.1 hb
  obtain ⟨j, hj⟩ := List.mem_iff_getElem?.1 hy
  obtain ⟨x, -, hx⟩ := exists_left_of_forall₂ hmade hj
  rw [reference?_resolve] at hname
  exact boundTo?_resolve (boundTo?_of_made hx) hname

/-- **Reading links.** -/
theorem linked_of_built {l : Localizer} {h final : Heap} {records : List Record} {ws : Workspace}
    (hbuilt : Built l h records ws final) : Linked records ws final := by
  have hnames : ws.locs.map final.nameOf = records.map Record.stackName :=
    map_eq_of_forall₂ (hbuilt.made.imp fun r loc hr => hr.name)
  refine ⟨hbuilt.distinct, ?_, hnames, ?_, ?_⟩
  · intro loc hloc b hb target htarget
    rcases Block.boundTo?_or_ownStack?_of_target? htarget with htarget | hown
    · obtain ⟨name, hname⟩ := Block.exists_reference?_of_boundTo? htarget final
      rw [hbuilt.boundTo?_eq hloc hb hname] at htarget
      exact (hbuilt.bounds target (List.mem_of_find?_eq_some htarget)).2
    · obtain ⟨k, hk⟩ := List.mem_iff_getElem?.1 hb
      exact (hbuilt.apart (hbuilt.bounds loc hloc).1 hk hown).2.1
  · refine map_eq_of_forall₂ (hbuilt.made.imp fun r loc hr => ?_)
    obtain ⟨ys, hmade, hblocks⟩ := hr.blocks
    rw [hblocks, List.map_map]
    refine map_eq_of_forall₂ (hmade.imp fun x y hy => ?_)
    rw [Function.comp_apply, reference?_resolve, reference?_eq_of_made hy]
  · intro loc hloc b hb name hname
    rw [hbuilt.boundTo?_eq hloc hb hname, find?_of_names hnames]

end Workspace

/-! ## Heaps that keep names -/

/-- A block refers to the name that it referred to. -/
theorem Heap.KeepsNames.reference? {h h' : Heap} (hk : h.KeepsNames h') {b : Block}
    (hb : b.Inside h.size) : h'.reference? b = h.reference? b := by
  cases b with
  | data loc resolved => exact congrArg some (hk.nameOf (hb loc rfl))
  | _ => rfl

namespace Machine

/-! ## What operations do with a block -/

section Operations

variable {env : Environment} {m : Machine} {b c : Block} {i : Nat}

theorem pop_of_head? (consumer : Option Block) (hb : m.values.head? = some b) :
    m.pop consumer = (some b, (m.pop consumer).2) := by
  obtain ⟨rest, hv⟩ := List.head?_eq_some_iff.1 hb
  simp only [pop, hv]

/-- Parameters are given the topmost values, the last one the top. -/
theorem popInputs_eq (names : List String) :
    ∀ m : Machine, (popInputs names m).1 = names.zip m.values ∧
      (popInputs names m).2.values = m.values.drop names.length := by
  induction names with
  | nil =>
    intro m
    exact ⟨rfl, rfl⟩
  | cons name names ih =>
    intro m
    rw [popInputs]
    cases hv : m.values with
    | nil =>
      have hpop : m.pop none = (none, m) := by simp only [pop, hv]
      obtain ⟨hbound, hrest⟩ := ih m
      rw [hv] at hbound hrest
      rw [hpop]
      exact ⟨by simp [hbound], by simp [hrest]⟩
    | cons b rest =>
      obtain ⟨hbound, hrest⟩ := ih (m.pop none).2
      rw [pop_values, hv, List.tail_cons] at hbound hrest
      rw [pop_of_head? none (by rw [hv, List.head?_cons])]
      exact ⟨by simp [hbound], by simp [hrest]⟩

/-- Running a stack takes its parameters off the values, or pushes an error. -/
theorem insert_values (env : Environment) (s : Stack) (m : Machine) :
    (m.insert env s).values = m.values.drop s.inputs.length ∨
      ∃ e, (m.insert env s).values = e :: m.values := by
  have hload : ∀ m : Machine, (m.load env s).values = m.values.drop s.inputs.length ∨
      ∃ e, (m.load env s).values = e :: m.values := by
    intro m
    rw [load]
    split
    · exact .inr ⟨_, push_values ..⟩
    · left
      have hrest := (popInputs_eq s.inputs.reverse m).2
      rw [List.length_reverse] at hrest
      simp only [notify_rest]
      split
      · exact hrest
      · exact hrest
  rw [insert]
  split
  · exact hload m
  · simp only [notify_rest]
    exact hload _

/-- The values that are left when a stack is run, counted from the bottom, are those that were
there. -/
theorem eq_of_result_insert {s : Stack} (hb : m.result[i]? = some b)
    (hc : (m.insert env s).result[i]? = some c) : c = b := by
  rw [result] at hb hc
  rcases insert_values env s m with hv | ⟨e, hv⟩
  · rw [hv, List.reverse_drop, List.getElem?_take] at hc
    split at hc
    · exact Option.some.inj (hc.symm.trans hb)
    · cases hc
  · obtain ⟨hi, -⟩ := List.getElem?_eq_some_iff.1 hb
    rw [hv, List.reverse_cons, List.getElem?_append_left hi] at hc
    exact Option.some.inj (hc.symm.trans hb)

/-- So are those that an isolated call starts from. -/
theorem eq_of_result_isolated {s : Stack} (hb : m.result[i]? = some b)
    (hc : (m.isolated env s).result[i]? = some c) : c = b := by
  obtain ⟨active, outer, log, hassigned⟩ :=
    assignEach_eq true m.active.bindings { m.nested m.remainingBudget with values := m.values }
  refine eq_of_result_insert ?_ hc
  change (assignEach ..).values.reverse[i]? = some b
  rw [hassigned]
  exact hb

/-- A program that runs is the stack that was to be run. -/
theorem eq_of_program_insert {s : Stack} (hb : s.blocks[i]? = some b)
    (hc : (m.insert env s).active.program[i]? = some (.block c)) : c = b := by
  -- a frame that stays without a program has no block at any place
  have hframe : ∀ {f g : Frame}, f.program = [] →
      (g = f ∨ s.blocks ≠ [] ∧ ∃ bound, g = Frame.loaded s bound f) →
      g.program[i]? = some (.block c) → c = b := by
    rintro f g hf (rfl | ⟨-, bound, rfl⟩) hg
    · rw [hf] at hg
      cases hg
    · rw [Frame.loaded_program, List.getElem?_map, hb] at hg
      cases hg
      rfl
  cases hfin : m.active.isFinished with
  | true =>
    rw [insert_of_finished hfin] at hc
    exact hframe (List.isEmpty_iff.1 hfin) (load_cases env s m).2 hc
  | false =>
    rw [insert_of_unfinished hfin] at hc
    exact hframe rfl (insertChild_cases env s m).2 hc

/-- A parameter is bound to the value that stands in its place; of two parameters of one name the
first counts. -/
theorem fetch_load {s : Stack} {pre post : List String} {name : String}
    (hinputs : s.inputs = pre ++ name :: post) (hfirst : name ∉ pre)
    (henough : s.inputs.length ≤ m.values.length) (hblocks : s.blocks ≠ [])
    (hb : m.values[post.length]? = some b) : (m.load env s).fetch name = some b := by
  obtain ⟨hlt, hget⟩ := List.getElem?_eq_some_iff.1 hb
  have hvalues : m.values = m.values.take post.length ++ b :: m.values.drop (post.length + 1) := by
    rw [← hget, ← List.drop_eq_getElem_cons hlt, List.take_append_drop]
  have hbound : (popInputs s.inputs.reverse m).1 =
      post.reverse.zip (m.values.take post.length) ++
        (name, b) :: pre.reverse.zip (m.values.drop (post.length + 1)) := by
    rw [(popInputs_eq s.inputs.reverse m).1, hinputs]
    nth_rewrite 1 [hvalues]
    rw [List.reverse_append, List.reverse_cons, List.append_assoc, List.singleton_append,
      List.zip_append (by rw [List.length_reverse, List.length_take]; omega), List.zip_cons_cons]
  have hlater : ∀ p ∈ pre.reverse.zip (m.values.drop (post.length + 1)), p.1 ≠ name := by
    rintro p hp rfl
    exact hfirst (List.mem_reverse.1 (List.of_mem_zip hp).1)
  have hactive : (m.load env s).active.bindings.find? name = some ⟨true, b⟩ := by
    rw [load, if_neg (Nat.not_lt.2 henough)]
    simp only [notify_rest, List.isEmpty_iff, hblocks, if_false]
    rw [hbound, List.foldl_append, List.foldl_cons]
    exact (Frame.find?_bindEach hlater _).trans (Frame.find?_bind_self ..)
  rw [fetch, frames, Frame.fetch_cons, hactive]
  rfl

theorem fetch_insert {s : Stack} {pre post : List String} {name : String}
    (hinputs : s.inputs = pre ++ name :: post) (hfirst : name ∉ pre)
    (henough : s.inputs.length ≤ m.values.length) (hblocks : s.blocks ≠ [])
    (hb : m.values[post.length]? = some b) : (m.insert env s).fetch name = some b := by
  rw [insert]
  split
  · exact fetch_load hinputs hfirst henough hblocks hb
  · simp only [fetch, frames, notify_rest]
    exact fetch_load hinputs hfirst henough hblocks hb

/-- A variable that is assigned is bound to the block that was on top. -/
theorem fetch_evaluate_assign (d : Discipline) (env : Environment) (name : String)
    (hb : m.values.head? = some b) :
    (m.evaluate d env (.assign name)).fetch name = some b ∧
      (m.evaluate d env (.assign name)).heap = m.heap := by
  have hassigned : m.evaluate d env (.assign name) =
      (m.pop (some (.assign name))).2.assign name b false := by
    rw [evaluate, pop_of_head? _ hb]
  rw [hassigned]
  constructor
  · rw [fetch, assign_frames]
    exact Frame.fetch_bindUp_self ..
  · obtain ⟨active, outer, log, -, ha⟩ := assign_eq name b false (m.pop (some (.assign name))).2
    rw [ha]
    simp [heap]

/-- A block that is spread is pushed so many times. -/
theorem respread_values (this : Block) (copies : Nat) (whenEmpty : String)
    (hb : m.values.head? = some b) :
    (m.respread this copies whenEmpty).values = List.replicate copies b ++ m.values.tail ∧
      (m.respread this copies whenEmpty).heap = m.heap := by
  obtain ⟨hv, hs, -⟩ := pushAll_eq (List.replicate copies b) (m.pop (some this)).2
  rw [respread, pop_of_head? _ hb]
  refine ⟨?_, ?_⟩
  · rw [hv, List.reverse_replicate, pop_values]
  · rw [heap, hs]
    simp [heap]

/-- Reading a data block pushes the elements of its stack. -/
theorem result_evaluate_read {array : Block} {rest : List Block} {loc : Loc}
    (hv : m.values = array :: rest) (hdata : array.isA .data = true)
    (hloc : m.dataLoc? array = some loc) (d : Discipline) (env : Environment) :
    (m.evaluate d env (.operator .read)).result = rest.reverse ++ m.heap.blocks loc ∧
      (m.evaluate d env (.operator .read)).heap = m.heap := by
  have hfit : fits [.data] [array] = true := by simp [fits, hdata]
  have hsignature : Operator.read.info.signature = .fixed [.data] := rfl
  obtain ⟨n, hmoved, heq⟩ := evaluate_fixed hsignature hfit hv d env
  have hread : n.readAll array = n.pushAll (m.heap.blocks loc) := by
    have hn : n.dataLoc? array = some loc := by rw [dataLoc?, hmoved.resolve]; exact hloc
    rw [readAll, hn, hmoved.heap]
  obtain ⟨hvalues, hstore, -⟩ := pushAll_eq (m.heap.blocks loc) n
  have hend : m.evaluate d env (.operator .read) = n.pushAll (m.heap.blocks loc) := heq.trans hread
  rw [hend]
  refine ⟨?_, ?_⟩
  · rw [result, hvalues, hmoved.values, List.reverse_append, List.reverse_reverse]
  · rw [heap, hstore]
    exact hmoved.heap

/-- What an isolated call leaves above the values that it never touched comes back to the same
places. -/
theorem result_adopt {results : List Block} {sub : Machine}
    (hfin : sub.mainFrame.isFinished = true)
    (hi : min sub.view.untouched m.values.length ≤ i) :
    (m.adopt results sub).result[i]? = results[i]? ∧ (m.adopt results sub).heap = m.heap := by
  rw [adopt, if_pos hfin]
  generalize hkept : min sub.view.untouched m.values.length = kept at hi ⊢
  obtain ⟨hpv, hps, -⟩ := pushAll_eq (results.drop kept) (m.drop (m.values.length - kept))
  obtain ⟨hdv, hds, -⟩ := drop_eq (m.values.length - kept) m
  refine ⟨?_, ?_⟩
  · have hlength : (m.values.drop (m.values.length - kept)).reverse.length = kept := by
      rw [List.length_reverse, List.length_drop]
      omega
    rw [result, hpv, hdv, List.reverse_append, List.reverse_reverse,
      List.getElem?_append_right (by omega), hlength, List.getElem?_drop, Nat.add_sub_cancel' hi]
  · rw [heap, hps, hds]
    rfl

end Operations

/-! ## Copies -/

/-- The copy that an operation leaves of a block: the heap and the block before and after, and the
workspace in which the block is looked up on the way, with the heap, if it is. -/
inductive Carried : List (Workspace × Heap) → Heap × Block → Heap × Block → Prop where
  /-- It is resolved. -/
  | resolved (ws : Workspace) (h : Heap) (b : Block) :
      Carried [(ws, h)] (h, b) (h, ws.resolve h b)
  /-- It is evaluated, and comes to the top of the value stack. -/
  | evaluated {d : Discipline} {env : Environment} {m : Machine} {b c : Block}
      (value : b.isValue = true) (top : (m.evaluate d env b).values.head? = some c) :
      Carried [(m.workspace, m.heap)] (m.heap, b) ((m.evaluate d env b).heap, c)
  /-- A host loads it as a value. -/
  | loaded {m : Machine} {bs : List Block} {i : Nat} {b c : Block} (given : bs[i]? = some b)
      (loaded : (m.loadValues bs).result[i]? = some c) :
      Carried [(m.workspace, m.heap)] (m.heap, b) ((m.loadValues bs).heap, c)
  | pushed {m : Machine} {b c : Block} (top : (m.push b).values.head? = some c) :
      Carried [] (m.heap, b) ((m.push b).heap, c)
  /-- It is taken from the top and pushed again, perhaps several times. -/
  | spread {m : Machine} {this : Block} {copies i : Nat} {whenEmpty : String} {b c : Block}
      (top : m.values.head? = some b) (place : i < copies)
      (now : (m.respread this copies whenEmpty).values[i]? = some c) :
      Carried [] (m.heap, b) ((m.respread this copies whenEmpty).heap, c)
  /-- It is assigned to a variable. -/
  | stored {d : Discipline} {env : Environment} {m : Machine} {name : String} {b c : Block}
      (top : m.values.head? = some b)
      (now : (m.evaluate d env (.assign name)).fetch name = some c) :
      Carried [] (m.heap, b) ((m.evaluate d env (.assign name)).heap, c)
  /-- It is recalled from a variable. -/
  | recalled {d : Discipline} {env : Environment} {m : Machine} {name : String} {b c : Block}
      (bound : m.fetch name = some b)
      (top : (m.evaluate d env (.fetch name)).values.head? = some c) :
      Carried [] (m.heap, b) ((m.evaluate d env (.fetch name)).heap, c)
  /-- It is an element of the stack that the operator for reading pushes. -/
  | read {d : Discipline} {env : Environment} {m : Machine} {array : Block} {rest : List Block}
      {loc : Loc} {i : Nat} {b c : Block} (values : m.values = array :: rest)
      (data : array.isA .data = true) (located : m.dataLoc? array = some loc)
      (element : (m.heap.blocks loc)[i]? = some b)
      (now : (m.evaluate d env (.operator .read)).result[rest.length + i]? = some c) :
      Carried [] (m.heap, b) ((m.evaluate d env (.operator .read)).heap, c)
  /-- It is taken as an operand. -/
  | taken {m : Machine} {this : Block} {k i : Nat} {b c : Block} (value : m.values[i]? = some b)
      (operand : (m.popOperands this k).1.reverse[i]? = some c) :
      Carried [] (m.heap, b) ((m.popOperands this k).2.heap, c)
  /-- It is taken for a parameter of a stack that is run. -/
  | parameter {env : Environment} {m : Machine} {s : Stack} {pre post : List String}
      {name : String} {b c : Block} (inputs : s.inputs = pre ++ name :: post)
      (first : name ∉ pre) (enough : s.inputs.length ≤ m.values.length) (blocks : s.blocks ≠ [])
      (value : m.values[post.length]? = some b) (now : (m.insert env s).fetch name = some c) :
      Carried [] (m.heap, b) ((m.insert env s).heap, c)
  /-- It is in a stack that becomes a program. -/
  | inserted {env : Environment} {m : Machine} {s : Stack} {i : Nat} {b c : Block}
      (block : s.blocks[i]? = some b)
      (now : (m.insert env s).active.program[i]? = some (.block c)) :
      Carried [] (m.heap, b) ((m.insert env s).heap, c)
  /-- It is a value that an isolated call starts from. -/
  | entered {env : Environment} {m : Machine} {s : Stack} {i : Nat} {b c : Block}
      (value : m.result[i]? = some b) (now : (m.isolated env s).result[i]? = some c) :
      Carried [] (m.heap, b) ((m.isolated env s).heap, c)
  /-- It is a value that comes back from an isolated call. -/
  | returned {m sub : Machine} {results : List Block} {i : Nat} {b c : Block}
      (finished : sub.mainFrame.isFinished = true)
      (touched : min sub.view.untouched m.values.length ≤ i) (value : results[i]? = some b)
      (now : (m.adopt results sub).result[i]? = some c) :
      Carried [] (m.heap, b) ((m.adopt results sub).heap, c)
  /-- It is in a stack while a machine runs. -/
  | rested {env : Environment} {m : Machine} {loc : Loc} {i : Nat} {b c : Block}
      (allocated : loc < m.heap.size) (block : (m.heap.blocks loc)[i]? = some b)
      (now : ((run env m).2.heap.blocks loc)[i]? = some c) :
      Carried [] (m.heap, b) ((run env m).2.heap, c)
  /-- It waits while stacks are added to the heap. -/
  | waited {h h' : Heap} (grows : h.Grows h') (b : Block) : Carried [] (h, b) (h', b)
  /-- It waits while a stack is marked for isolated calls, or the mark is taken away. -/
  | marked (m : Machine) (loc : Loc) (mark : Bool) (b : Block) :
      Carried [] (m.heap, b) ((m.obfuscate loc mark).heap, b)

/-- Marking a stack changes no name. -/
theorem keepsNames_obfuscate (m : Machine) (loc : Loc) (mark : Bool) :
    m.heap.KeepsNames (m.obfuscate loc mark).heap := by
  refine ⟨Nat.le_of_eq (Heap.size_modify ..).symm, ?_⟩
  intro other hother
  change ((m.heap.modify loc _).get other).name = _
  by_cases hne : other = loc
  · subst hne
    rw [Heap.get_modify_self _ _ hother]
    rfl
  · rw [Heap.get_modify_of_ne _ _ hne]
    rfl

/-- **A copy** is the block itself, or the block as a look-up binds it. -/
theorem Carried.cases {trace : List (Workspace × Heap)} {x y : Heap × Block}
    (hc : Carried trace x y) :
    x.1.KeepsNames y.1 ∧ (trace = [] ∧ y.2 = x.2 ∨
      ∃ ws, trace = [(ws, x.1)] ∧ y.2 = Workspace.resolve ws x.1 x.2) := by
  cases hc with
  | resolved ws h b => exact ⟨.of_eq rfl, .inr ⟨ws, rfl, rfl⟩⟩
  | @evaluated d env m b c value top =>
    rw [evaluate_value value] at top ⊢
    rw [push_values, List.head?_cons] at top
    exact ⟨.of_eq (by simp [heap]), .inr ⟨m.workspace, rfl, (Option.some.inj top).symm⟩⟩
  | @loaded m bs i b c given loaded =>
    refine ⟨.of_eq rfl, .inr ⟨m.workspace, rfl, ?_⟩⟩
    rw [loadValues, setValues, result, List.reverse_reverse, List.getElem?_map, given] at loaded
    exact (Option.some.inj loaded).symm
  | @pushed m b c top =>
    rw [push_values, List.head?_cons] at top
    exact ⟨.of_eq (by simp [heap]), .inl ⟨rfl, (Option.some.inj top).symm⟩⟩
  | @spread m this copies i whenEmpty b c top place now =>
    obtain ⟨hvalues, hheap⟩ := respread_values this copies whenEmpty top
    refine ⟨.of_eq hheap, .inl ⟨rfl, ?_⟩⟩
    rw [hvalues, List.getElem?_append_left (by rwa [List.length_replicate]),
      List.getElem?_replicate_of_lt place] at now
    exact (Option.some.inj now).symm
  | @stored d env m name b c top now =>
    obtain ⟨hfetch, hheap⟩ := fetch_evaluate_assign d env name top
    exact ⟨.of_eq hheap, .inl ⟨rfl, Option.some.inj (now.symm.trans hfetch)⟩⟩
  | @recalled d env m name b c bound top =>
    rw [evaluate_fetch, Machine.recalled, bound, Option.getD_some] at top ⊢
    rw [push_values, List.head?_cons] at top
    exact ⟨.of_eq (by simp [heap]), .inl ⟨rfl, (Option.some.inj top).symm⟩⟩
  | @read d env m array rest loc i b c values data located element now =>
    obtain ⟨hresult, hheap⟩ := result_evaluate_read values data located d env
    refine ⟨.of_eq hheap, .inl ⟨rfl, ?_⟩⟩
    rw [hresult, List.getElem?_append_right (by simp), List.length_reverse,
      Nat.add_sub_cancel_left, element] at now
    exact (Option.some.inj now).symm
  | @taken m this k i b c value operand =>
    refine ⟨.of_eq (popOperands_rest this k m).2, .inl ⟨rfl, ?_⟩⟩
    rw [(popOperands_split this k m).1, List.reverse_reverse, List.getElem?_take] at operand
    split at operand
    · exact Option.some.inj (operand.symm.trans value)
    · cases operand
  | @parameter env m s pre post name b c inputs first enough blocks value now =>
    have hgrows := ((holds_lasting env m.workspace m.heap).insert (Holds.self m) s).2
    rw [fetch_insert inputs first enough blocks value] at now
    exact ⟨.of_grows hgrows, .inl ⟨rfl, (Option.some.inj now).symm⟩⟩
  | @inserted env m s i b c block now =>
    have hgrows := ((holds_lasting env m.workspace m.heap).insert (Holds.self m) s).2
    exact ⟨.of_grows hgrows, .inl ⟨rfl, eq_of_program_insert block now⟩⟩
  | @entered env m s i b c value now =>
    exact ⟨.of_grows (Holds.isolated env s m).2, .inl ⟨rfl, eq_of_result_isolated value now⟩⟩
  | @returned m sub results i b c finished touched value now =>
    obtain ⟨hresult, hheap⟩ := result_adopt finished touched
    exact ⟨.of_eq hheap, .inl ⟨rfl, Option.some.inj (now.symm.trans (hresult.trans value))⟩⟩
  | @rested env m loc i b c allocated block now =>
    have hgrows := (run_adds env m).2
    refine ⟨.of_grows hgrows, .inl ⟨rfl, ?_⟩⟩
    rw [Heap.blocks, hgrows.get allocated] at now
    exact Option.some.inj (now.symm.trans block)
  | waited grows b => exact ⟨.of_grows grows, .inl ⟨rfl, rfl⟩⟩
  | marked m loc mark b => exact ⟨keepsNames_obfuscate m loc mark, .inl ⟨rfl, rfl⟩⟩

/-- Copies of copies, with the workspaces in which they were looked up, in order. -/
inductive Travels : List (Workspace × Heap) → Heap × Block → Heap × Block → Prop where
  | start (x : Heap × Block) : Travels [] x x
  | onward {trace more : List (Workspace × Heap)} {x y z : Heap × Block}
      (travels : Travels trace x y) (carried : Carried more y z) : Travels (trace ++ more) x z

namespace Travels

variable {trace : List (Workspace × Heap)} {x y : Heap × Block}

theorem keepsNames (ht : Travels trace x y) : x.1.KeepsNames y.1 := by
  induction ht with
  | start => exact .of_eq rfl
  | onward _ carried ih => exact ih.trans carried.cases.1

/-- **A bound block stays bound** to the stack that it is bound to. -/
theorem eq_of_boundTo? (ht : Travels trace x y) {loc : Loc} (hb : x.2.boundTo? = some loc) :
    y.2 = x.2 := by
  induction ht with
  | start => rfl
  | onward _ carried ih =>
    rcases carried.cases.2 with ⟨-, hsame⟩ | ⟨ws, -, hresolved⟩
    · rw [hsame, ih hb]
    · rw [hresolved, ih hb, Workspace.resolve_of_boundTo? hb]

/-- A block that is no reference never changes. -/
theorem eq_of_reference?_eq_none (ht : Travels trace x y)
    (hb : ∀ h : Heap, h.reference? x.2 = none) : y.2 = x.2 := by
  induction ht with
  | start => rfl
  | onward _ carried ih =>
    rcases carried.cases.2 with ⟨-, hsame⟩ | ⟨ws, -, hresolved⟩
    · rw [hsame, ih hb]
    · rw [hresolved, ih hb, Workspace.resolve_of_reference?_eq_none (hb _)]

/-- **The first find binds.** A reference that is not bound stays as it is until a workspace has a
stack of its name. -/
theorem boundTo?_eq (ht : Travels trace x y) {name : String} (hb : x.2.boundTo? = none)
    (hname : x.1.reference? x.2 = some name) (hinside : x.2.Inside x.1.size) :
    y.2.boundTo? = (trace.findSome? fun p => p.1.find? p.2 name) ∧
      (y.2.boundTo? = none → y.2 = x.2) := by
  induction ht with
  | start => exact ⟨hb, fun _ => rfl⟩
  | @onward trace more x y z travels carried ih =>
    obtain ⟨hfound, hsame⟩ := ih hb hname hinside
    rw [List.findSome?_append, ← hfound]
    rcases carried.cases.2 with ⟨rfl, hcopy⟩ | ⟨ws, rfl, hresolved⟩
    · rw [hcopy, List.findSome?_nil, Option.or_none]
      exact ⟨rfl, hsame⟩
    · rw [hresolved, List.findSome?_singleton]
      cases hy : y.2.boundTo? with
      | some loc =>
        rw [Workspace.resolve_of_boundTo? hy, hy, Option.some_or]
        exact ⟨rfl, fun hnone => by cases hnone⟩
      | none =>
        have hyname : y.1.reference? y.2 = some name := by
          rw [hsame hy, travels.keepsNames.reference? hinside, hname]
        have hbound : (ws.resolve y.1 y.2).boundTo? = ws.find? y.1 name :=
          Workspace.boundTo?_resolve hy hyname
        rw [Option.none_or]
        refine ⟨hbound, fun hnone => ?_⟩
        refine (resolve_of_unbound hy fun other hother => ?_).trans (hsame hy)
        obtain rfl := Option.some.inj (hyname.symm.trans hother)
        exact hbound.symm.trans hnone

end Travels

/-- References in a workspace that is read are bound to the first stack of their name, wherever it
is declared, and to none if there is none. Whatever becomes of a block, a bound one stays bound to
its stack, and a reference that is not bound is bound by the first workspace that it is looked up in
and that has its name; null and packages stay as they are. What a bound block runs or stands for is
its stack. -/
theorem references_link_once {g : Grammar} {l : Localizer} {text : String} {st st' : Store}
    {ws : Workspace} (hparse : Workspace.parse g l text st = .ok (ws, st')) :
    (∃ records, g.records? text = some records ∧ ws.Linked records st'.heap) ∧
    (∀ {trace : List (Workspace × Heap)} {h h' : Heap} {b c : Block},
      Travels trace (h, b) (h', c) →
      (∀ loc, b.boundTo? = some loc → c = b) ∧
      (∀ name, b.boundTo? = none → h.reference? b = some name → b.Inside h.size →
        c.boundTo? = trace.findSome? fun p => p.1.find? p.2 name) ∧
      ∀ loc, b = .null loc ∨ b = .package loc → c = b) ∧
    (∀ (d : Discipline) (env : Environment) (m : Machine) (name : String) (loc : Loc),
      m.evaluate d env (.code name (some loc)) =
        if (m.heap.get loc).obfuscated then m.callIsolated d.run env loc
        else d.insert (m.heap.get loc) m) ∧
    ∀ (m : Machine) (loc : Loc), m.dataLoc? (.data loc true) = some loc := by
  refine ⟨?_, ?_, fun d env m name loc => rfl, fun m loc => rfl⟩
  · rw [Workspace.parse] at hparse
    split at hparse
    case h_1 records hrecords =>
      cases hparse
      exact ⟨records, hrecords, Workspace.linked_of_built (Workspace.ofRecords_built l records st)⟩
    case h_2 => cases hparse
  · intro trace h h' b c ht
    refine ⟨fun loc hb => ht.eq_of_boundTo? hb, ?_, ?_⟩
    · intro name hb hname hinside
      exact (ht.boundTo?_eq hb hname hinside).1
    · rintro loc (rfl | rfl)
      · exact ht.eq_of_reference?_eq_none fun _ => rfl
      · exact ht.eq_of_reference?_eq_none fun _ => rfl

/-! ### Stacks that refer to each other -/

/-- Two stacks that refer to each other and the first to itself, one of a name that was there
before, and a reference to a stack that is missing. -/
def mutualText : String :=
  "@a \x7b @b a [@b] @z \x7d\n@b \x7b a @null \x7d\n@b \x7b \x7d"

def mutualRecords : List Record :=
  [⟨"a", [], [.data "b", .code "a", .package (.data "b"), .data "z"]⟩, ⟨"b", [], [.code "a", .null]⟩,
    ⟨"b", [], []⟩]

theorem records?_mutualText : Grammar.core.records? mutualText = some mutualRecords := by
  decide +kernel

/-- The workspace and the store after the text is read. -/
def mutualStacks : Workspace × Store :=
  Workspace.ofRecords Localizer.plain mutualRecords (Store.ofSeed 0)

/-- The same with the missing stack added. -/
def completedStacks : Loc × Workspace × Store :=
  mutualStacks.1.create (some "z") mutualStacks.2

/-- The missing stack is found once it is there. -/
theorem references_link_once_mutual :
    Workspace.parse Grammar.core Localizer.plain mutualText (Store.ofSeed 0) = .ok mutualStacks ∧
      (∃ records, Grammar.core.records? mutualText = some records ∧
        mutualStacks.1.Linked records mutualStacks.2.heap) ∧
      (mutualStacks.1.locs.map fun loc =>
        (loc, (mutualStacks.2.heap.blocks loc).map Block.boundTo?)) =
          [(4, [some 6, some 4, none, none]), (6, [some 4, none]), (7, [])] ∧
      (completedStacks.2.1.resolve completedStacks.2.2.heap
        (mutualStacks.1.resolve mutualStacks.2.heap (.data 3 false))).boundTo? = some 8 := by
  have hparse : Workspace.parse Grammar.core Localizer.plain mutualText (Store.ofSeed 0) =
      .ok mutualStacks := by
    rw [Workspace.parse, records?_mutualText]
    rfl
  obtain ⟨hlinked, htravels, -⟩ := references_link_once hparse
  refine ⟨hparse, hlinked, by decide +kernel, ?_⟩
  -- the reference is looked up in vain, the stack is added, and it is looked up again
  have hvain := (Travels.start _).onward
    (.resolved mutualStacks.1 mutualStacks.2.heap (.data 3 false))
  have hadded := hvain.onward (.waited (Heap.Grows.alloc _ (Stack.make "z" [])) _)
  have hfound := hadded.onward (.resolved completedStacks.2.1 completedStacks.2.2.heap _)
  have hname : mutualStacks.2.heap.reference? (.data 3 false) = some "z" := by decide +kernel
  have hsize : 3 < mutualStacks.2.heap.size := by decide +kernel
  have hinside : (Block.data 3 false).Inside mutualStacks.2.heap.size := by
    rintro loc hloc
    obtain rfl := Option.some.inj hloc
    exact hsize
  exact ((htravels hfound).2.1 "z" rfl hname hinside).trans (by decide +kernel)

end Machine

end BlockMachine
