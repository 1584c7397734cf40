import BlockMachine.Machine.Host
import BlockMachine.Proofs.Machine.References.Runs

/-!
# Machines with a past

A host uses one machine for many programs, one after the other. A program that is started on it
finds nothing of those before it but the memory: it runs as on a new machine with the same
workspace, memory and settings.

* `SameStart σ` — two machines on which a program starts alike, though their stacks may stand in
  different places; `SameStart.repeats` — they run the stacks of the workspace alike;
* `Used env m₀ m` — a host has brought `m₀` into the state `m`;
* `Used.keeps` — it has kept the workspace with its stacks and the settings, `Used.sound` — and all
  references lead to stacks of the heap;
* `runStack_forgets_history` — so a stack runs on `m` as on a new machine, and a program that leaves
  the memory as it was gives the same blocks every time.
-/

namespace BlockMachine

namespace Machine

/-! ## Starting alike -/

/-- The second machine has what a program starts from on the first one, with its stacks moved: the
workspace, the stacks, the memory and the settings. Values, frames and observers may differ. -/
structure SameStart (σ : Loc → Loc) (m n : Machine) : Prop where
  workspace : n.workspace = m.workspace.relocate σ
  heap : Heap.Relocates σ m.heap n.heap
  memory : n.world.memory = m.world.memory.relocate σ
  maxSteps : n.maxSteps = m.maxSteps
  randModes : n.randModes = m.randModes

/-- A stack of the workspace runs on the second machine as it does on the first: it is missing on
both, or, unless the first machine rolls, both end with the same blocks, and alike. -/
def Repeats (σ : Loc → Loc) (env : Environment) (name : String) (m n : Machine) : Prop :=
  (∀ e, m.runStack env name = .error e → n.runStack env name = .error e) ∧
    ∀ bs m', m.runStack env name = .ok (bs, m') → m'.world.rolled = m.world.rolled →
      ∃ n', n.runStack env name = .ok (bs.map (Block.relocate σ), n') ∧ SameStart σ m' n' ∧
        n'.world.store.dice = n.world.store.dice

/-- Running a stack of the workspace. -/
theorem runStack_eq (env : Environment) (name : String) (m : Machine) :
    m.runStack env name =
      match m.workspace.find? m.heap name with
      | some loc => .ok (run env (m.reset.insert env (m.heap.get loc)))
      | none => .error (.unknownStack name) := by
  rw [runStack, loadProgram, loadProgramBy]
  cases m.workspace.find? m.heap name <;> rfl

variable {σ : Loc → Loc} {env : Environment} {m n : Machine}

/-- The same workspace, stacks, memory and settings. -/
theorem SameStart.of_eq (hworkspace : n.workspace = m.workspace) (hheap : n.heap = m.heap)
    (hmemory : n.world.memory = m.world.memory) (hmaxSteps : n.maxSteps = m.maxSteps)
    (hrandModes : n.randModes = m.randModes) : SameStart id m n where
  workspace := by simpa using hworkspace
  heap := by
    rw [hheap]
    exact Heap.Relocates.refl _
  memory := by simpa using hmemory
  maxSteps := hmaxSteps
  randModes := hrandModes

theorem SameStart.reset (h : SameStart σ m n) :
    Relocated σ m.world.store.dice n.world.store.dice False m.reset n.reset where
  values := rfl
  workspace := h.workspace
  active := rfl
  outer := rfl
  world := ⟨h.heap, h.memory, rfl, rfl⟩
  anonymous := rfl
  randModes := h.randModes.symm
  randIndex := rfl
  maxSteps := h.maxSteps
  steps := rfl
  budget := rfl
  counts hw := hw.elim

theorem Relocated.sameStart {d d' : Dice} {watched : Prop} (h : Relocated σ d d' watched m n) :
    SameStart σ m n :=
  ⟨h.workspace, h.world.heap, h.world.memory, h.maxSteps, h.randModes.symm⟩

/-- **Machines that start alike run stacks alike.** -/
theorem SameStart.repeats (hu : env.Uniform σ) (h : SameStart σ m n) (name : String) :
    Repeats σ env name m n := by
  have hfind : n.workspace.find? n.heap name = (m.workspace.find? m.heap name).map σ := by
    rw [h.workspace, h.heap.find?]
  simp only [Repeats, runStack_eq, hfind]
  cases m.workspace.find? m.heap name with
  | none => exact ⟨fun e he => he, fun bs m' hm => by cases hm⟩
  | some loc =>
    refine ⟨fun e he => (by cases he), ?_⟩
    intro bs m' hm hrolled
    have hR := relocated_inStep hu m.world.store.dice n.world.store.dice False
    have hstart := hR.insert h.reset (m.heap.get loc)
    have hrun := runAt_shadows hu _ _ (m.reset.insert env (m.heap.get loc)).maxSteps hstart
    rw [Option.map_some]
    have hm' : runAt env (m.reset.insert env (m.heap.get loc)).maxSteps
        (m.reset.insert env (m.heap.get loc)) = (bs, m') := Except.ok.inj hm
    rcases hrun with hmore | hrun
    · rw [hm', Rolled, hrolled] at hmore
      exact absurd hmore (Nat.not_succ_le_self _)
    · obtain ⟨answer, x, y, hx, hy, hrel⟩ := hrun.elim
      obtain ⟨rfl, rfl⟩ := Prod.mk.inj (hx.symm.trans hm')
      refine ⟨y, ?_, hrel.sameStart, hrel.world.dice'⟩
      rw [← hstart.maxSteps, ← h.heap.get] at hy
      exact congrArg Except.ok hy

/-! ## Heaps that have grown -/

/-- The blocks of a closed heap refer to none of the stacks that are added to it, so these make no
difference but to the places of new ones. -/
theorem relocates_of_grows {h h' : Heap} (hc : h.Closed) (hg : h.Grows h') :
    Heap.Relocates (shift h.size h'.size) h h' where
  injective := shift_injective hg.size
  get loc := by
    by_cases hlt : loc < h.size
    · have hblocks := Block.map_relocate_shift (hc loc) h'.size
      have hstack : (h.get loc).relocate (shift h.size h'.size) = h.get loc :=
        congrArg (fun blocks => { h.get loc with blocks }) hblocks
      rw [shift_of_lt _ hlt, hg.get hlt, hstack]
    · rw [shift, if_neg hlt, Heap.get_of_size_le _ (Nat.le_add_right _ _),
        Heap.get_of_size_le _ (Nat.le_of_not_lt hlt)]
      rfl
  inside {loc} hlt := by
    rw [shift_of_lt _ hlt]
    exact Nat.lt_of_lt_of_le hlt hg.size
  next k := by
    rw [shift, if_neg (Nat.not_lt.2 (Nat.le_add_right _ _)), Nat.add_sub_cancel_left]

theorem relocate_workspace {ws : Workspace} {k : Nat} (h : ∀ loc ∈ ws.locs, loc < k) (k' : Nat) :
    ws.relocate (shift k k') = ws := by
  have hlocs : ws.locs.map (shift k k') = ws.locs :=
    (List.map_congr_left fun loc hloc => shift_of_lt k' (h loc hloc)).trans (List.map_id' _)
  rw [Workspace.relocate, hlocs]

theorem relocate_memory {mem : Memory} {k : Nat} (h : mem.Inside k) (k' : Nat) :
    mem.relocate (shift k k') = mem := by
  have hobject : ∀ p ∈ mem, (p.1, p.2.relocate (shift k k')) = p := by
    intro p hp
    have hvalues : Keyed.mapValues (Block.relocate (shift k k')) p.2.values = p.2.values := by
      refine (List.map_congr_left fun q hq => ?_).trans (List.map_id' _)
      rw [(h p hp q hq).relocate_shift]
    rw [ObjectState.relocate, hvalues]
  exact (List.map_congr_left hobject).trans (List.map_id' _)

/-- What a host does with a machine changes none of this. -/
structure Keeps (m n : Machine) : Prop where
  workspace : n.workspace = m.workspace
  heap : m.heap.Grows n.heap
  maxSteps : n.maxSteps = m.maxSteps
  randModes : n.randModes = m.randModes

theorem Keeps.trans {l : Machine} (h : Keeps l m) (h' : Keeps m n) : Keeps l n :=
  ⟨h'.workspace.trans h.workspace, h.heap.trans h'.heap, h'.maxSteps.trans h.maxSteps,
    h'.randModes.trans h.randModes⟩

theorem Keeps.of_holds (h : Holds m.workspace m.heap n)
    (hs : n.maxSteps = m.maxSteps ∧ n.randModes = m.randModes) : Keeps m n :=
  ⟨h.1, h.2, hs.1, hs.2⟩

/-- A sound machine starts programs as it will later, if the memory is the same. -/
theorem Keeps.sameStart (h : Keeps m n) (hw : World.Closed m.workspace m.world)
    (hmemory : n.world.memory = m.world.memory) :
    SameStart (shift m.heap.size n.heap.size) m n where
  workspace := h.workspace.trans (relocate_workspace hw.workspace _).symm
  heap := relocates_of_grows hw.heap h.heap
  memory := hmemory.trans (relocate_memory hw.memory _).symm
  maxSteps := h.maxSteps
  randModes := h.randModes

/-! ## Hosts -/

/-- A property of settings is lasting, if it takes no notice of what an observer counts. -/
theorem lasting_of_settings (env : Environment) {P : Machine → Prop}
    (hP : ∀ {m n : Machine}, P m → n.workspace = m.workspace → n.maxSteps = m.maxSteps →
      n.randModes = m.randModes →
      (n.view = m.view ∨ n.view = m.view.pushed ∨ n.view = m.view.popped) → P n) :
    Lasting env P where
  push b h := by
    rw [push, notify_eq]
    exact hP h rfl rfl rfl (.inr (.inl rfl))
  pop {m} c h := by
    rw [pop]
    split
    · exact h
    · cases c with
      | none =>
        rw [notify_eq]
        exact hP h rfl rfl rfl (.inr (.inr rfl))
      | some c =>
        simp only
        rw [notify_eq, notify_eq (m := m)]
        exact hP h rfl rfl rfl (.inr (.inr rfl))
  alloc s h := hP h rfl rfl rfl (.inl rfl)
  roll h := by
    rw [roll_eq]
    exact hP h rfl rfl rfl (.inl rfl)
  nextAnonymous h := hP h rfl rfl rfl (.inl rfl)
  setVariable h hs := by
    obtain ⟨memory, changed, log, -, rfl⟩ := setVariable_eq hs
    exact hP h rfl rfl rfl (.inl rfl)
  frames a o h := hP h rfl rfl rfl (.inl rfl)
  notify e _ h := by
    rw [notify_eq]
    exact hP h rfl rfl rfl (.inl rfl)
  afterFrame h := hP h rfl rfl rfl (.inl rfl)

/-- A run keeps a lasting property that takes no notice of the world and of the count of steps. -/
theorem Lasting.run {P : Machine → Prop} (hP : Lasting env P)
    (hworld : ∀ {m : Machine} (w : World), P m → P { m with world := w })
    (hcount : ∀ {m : Machine} (budget : Option Nat) (steps : Nat), P m → P { m with budget, steps })
    (h : P m) : P (Machine.run env m).2 := by
  have hdepth : ∀ depth, P (runAt env depth m).2 := by
    intro depth
    cases depth with
    | zero => exact hcount _ _ h
    | succ depth =>
      -- nested machines touch the world alone
      exact hP.runSteps (hP.sheltered hworld _) (hcount _ _) m.maxSteps (m := m.started)
        (hcount _ _ h)
  exact hdepth _

/-- The step limit and the modes of random operators are settled. -/
theorem settings_lasting (env : Environment) (limit : Nat) (modes : List RandMode) :
    Lasting env fun m => m.maxSteps = limit ∧ m.randModes = modes :=
  lasting_of_settings env fun h _ hlimit hmodes _ => ⟨hlimit.trans h.1, hmodes.trans h.2⟩

/-- A run leaves the workspace, the stacks and the settings alone. -/
theorem keeps_run (env : Environment) (m : Machine) : Keeps m (run env m).2 :=
  .of_holds (run_adds env m)
    ((settings_lasting env m.maxSteps m.randModes).run (fun _ h => h) (fun _ _ h => h) ⟨rfl, rfl⟩)

theorem keeps_advance (env : Environment) (m : Machine) : Keeps m (m.advance env).2 := by
  have hP := settings_lasting env m.maxSteps m.randModes
  have hholds := (holds_lasting env m.workspace m.heap).step (holds_sheltered (run_adds env) _ _)
    (Holds.self m)
  exact .of_holds hholds (hP.step (hP.sheltered (fun _ h => h) _) ⟨rfl, rfl⟩)

theorem keeps_insert (env : Environment) (s : Stack) (m : Machine) :
    Keeps m (m.insert env s) :=
  .of_holds ((holds_lasting env m.workspace m.heap).insert (Holds.self m) s)
    ((settings_lasting env m.maxSteps m.randModes).insert ⟨rfl, rfl⟩ s)

theorem makeColumns_grows (l : Localizer) (cs : List Column) (st : Store) :
    st.heap.Grows (makeColumns l cs st).2.heap := by
  induction cs generalizing st with
  | nil => exact .refl _
  | cons c cs ih => exact (Literal.makeAll_grows l c.body st).trans (ih _)

/-- The blocks of columns refer to stacks that are added for them. -/
theorem makeColumns_closed (l : Localizer) (cs : List Column) :
    ∀ {st : Store}, st.heap.Closed → (makeColumns l cs st).2.heap.Closed ∧
      ∀ column ∈ (makeColumns l cs st).1, ∀ b ∈ column,
        b.Inside (makeColumns l cs st).2.heap.size := by
  induction cs with
  | nil =>
    intro st hc
    exact ⟨hc, fun column hcolumn => absurd hcolumn List.not_mem_nil⟩
  | cons c cs ih =>
    intro st hc
    obtain ⟨hmade, hbs⟩ := Literal.makeAll_closed (l := l) c.body hc
    obtain ⟨hrest, hcolumns⟩ := ih hmade
    refine ⟨hrest, fun column hcolumn b hb => ?_⟩
    rcases List.mem_cons.1 hcolumn with rfl | hcolumn
    · exact (hbs b hb).mono (makeColumns_grows l cs _).size
    · exact hcolumns column hcolumn b hb

/-- A host has brought the machine `m₀` into a state by loading programs and inputs, by steps and
runs, and by resets. A stack is run by loading it and running the machine; a call that is refused
leaves the machine as it was. -/
inductive Used (env : Environment) (m₀ : Machine) : Machine → Prop where
  | new : Used env m₀ m₀
  | load {m m' : Machine} (name : String) :
    Used env m₀ m → m.loadProgram env name = .ok m' → Used env m₀ m'
  | inputs {m m' : Machine} (text : String) :
    Used env m₀ m → m.loadInputs env text = .ok m' → Used env m₀ m'
  | advance {m : Machine} : Used env m₀ m → Used env m₀ (m.advance env).2
  | run {m : Machine} : Used env m₀ m → Used env m₀ (m.run env).2
  | reset {m : Machine} : Used env m₀ m → Used env m₀ m.reset

variable {m₀ m' : Machine} {name : String}

theorem Used.runStack (h : Used env m₀ m) {bs : List Block}
    (hrun : m.runStack env name = .ok (bs, m')) : Used env m₀ m' := by
  rw [Machine.runStack] at hrun
  cases hload : m.loadProgram env name with
  | error e =>
    rw [hload] at hrun
    cases hrun
  | ok loaded =>
    rw [hload] at hrun
    have hend : Machine.run env loaded = (bs, m') := Except.ok.inj hrun
    have hused := (h.load name hload).run
    rw [hend] at hused
    exact hused

/-- Loading a stack of the workspace. -/
theorem loadProgram_cases (h : m.loadProgram env name = .ok m') :
    ∃ loc, m' = m.reset.insert env (m.heap.get loc) := by
  rw [loadProgram, loadProgramBy] at h
  split at h
  · rename_i loc _
    exact ⟨loc, (Except.ok.inj h).symm⟩
  · cases h

/-- Loading inputs replaces the value stack by resolved blocks of columns that are made for it. -/
theorem loadInputs_cases {text : String} (h : m.loadInputs env text = .ok m') :
    ∃ columns dice bs, (∀ b ∈ bs, ∃ column ∈ (makeColumns env.localizer columns m.world.store).1,
        b ∈ column) ∧
      m' = (m.withStore ⟨(makeColumns env.localizer columns m.world.store).2.heap, dice⟩).loadValues
        bs := by
  rw [loadInputs] at h
  split at h
  · rename_i columns _
    refine ⟨columns, _, _, ?_, (Except.ok.inj h).symm⟩
    intro b hb
    obtain ⟨column, hcolumn, hfound⟩ := List.mem_filterMap.1 hb
    exact ⟨column, hcolumn, List.mem_of_getElem? hfound⟩
  · cases h

/-- **Whatever a host does**, the workspace, its stacks and the settings stay. -/
theorem Used.keeps (h : Used env m₀ m) : Keeps m₀ m := by
  induction h with
  | new => exact ⟨rfl, .refl _, rfl, rfl⟩
  | load name _ hl ih =>
    obtain ⟨loc, rfl⟩ := loadProgram_cases hl
    have hreset := ih.trans (n := Machine.reset _) ⟨rfl, .refl _, rfl, rfl⟩
    exact hreset.trans (keeps_insert env _ _)
  | inputs text _ hl ih =>
    obtain ⟨columns, dice, bs, -, rfl⟩ := loadInputs_cases hl
    exact ih.trans ⟨rfl, makeColumns_grows _ _ _, rfl, rfl⟩
  | advance _ ih => exact ih.trans (keeps_advance env _)
  | run _ ih => exact ih.trans (keeps_run env _)
  | reset _ ih => exact ih.trans ⟨rfl, .refl _, rfl, rfl⟩

theorem Sound.reset (h : m.Sound) : m.reset.Sound := by
  refine ⟨h.world, fun b hb => absurd hb List.not_mem_nil, fun f hf => ?_⟩
  obtain rfl := List.mem_singleton.1 hf
  exact ⟨fun b hb => absurd hb List.not_mem_nil, fun p hp => absurd hp List.not_mem_nil⟩

theorem Sound.loadInputs (h : m.Sound) (l : Localizer) (columns : List Column) (dice : Dice)
    {bs : List Block}
    (hbs : ∀ b ∈ bs, ∃ column ∈ (makeColumns l columns m.world.store).1, b ∈ column) :
    ((m.withStore ⟨(makeColumns l columns m.world.store).2.heap, dice⟩).loadValues bs).Sound := by
  obtain ⟨hclosed, hcolumns⟩ := makeColumns_closed l columns h.world.heap
  have hle := (makeColumns_grows l columns m.world.store).size
  have hworkspace : ∀ loc ∈ m.workspace.locs,
      loc < (makeColumns l columns m.world.store).2.heap.size :=
    fun loc hloc => Nat.lt_of_lt_of_le (h.world.workspace loc hloc) hle
  refine ⟨⟨hworkspace, hclosed, h.world.memory.mono hle⟩, fun b hb => ?_, ?_⟩
  · obtain ⟨c, hc, rfl⟩ := List.mem_map.1 (List.mem_reverse.1 hb)
    obtain ⟨column, hcolumn, hmem⟩ := hbs c hc
    exact Workspace.inside_resolve hworkspace (hcolumns column hcolumn c hmem)
  · exact fun f hf => (h.frames f hf).mono hle

/-- **Whatever a host does** with a sound machine, it stays sound. -/
theorem Used.sound (he : env.Impartial) (h : Used env m₀ m) (hsound : m₀.Sound) : m.Sound := by
  have hrun : RunsSafely (Machine.run env) :=
    ⟨run_adds env, fun {m} h => (runAt_safe he m.maxSteps).safe h⟩
  induction h with
  | new => exact hsound
  | load name _ hl ih =>
    obtain ⟨loc, rfl⟩ := loadProgram_cases hl
    exact ih.reset.insert env fun b hb => ih.blocks hb
  | inputs text _ hl ih =>
    obtain ⟨columns, dice, bs, hbs, rfl⟩ := loadInputs_cases hl
    exact ih.loadInputs env.localizer columns dice hbs
  | advance _ ih => exact step_sound he hrun ih
  | run _ ih => exact (hrun.safe ih).1
  | reset _ ih => exact ih.reset

/-- A machine over a workspace that was read is sound. -/
theorem sound_of_parse {g : Grammar} {l : Localizer} {text : String} {st st' : Store}
    {ws : Workspace} (hc : st.heap.Closed)
    (h : Workspace.parse g l text st = .ok (ws, st')) (maxSteps : Nat) (log : List Event) :
    (make maxSteps ws ⟨st', [], log⟩).Sound := by
  have hlisted := Workspace.listed_of_parse h
  rw [Workspace.parse] at h
  split at h
  · rename_i records _
    obtain ⟨rfl, rfl⟩ := Prod.mk.inj (Except.ok.inj h)
    have hempty : ∀ loc ∈ Workspace.empty.locs, loc < st.heap.size := fun loc hloc =>
      absurd hloc List.not_mem_nil
    obtain ⟨hallocated, hlocs⟩ := Workspace.allocRecords_closed (l := l) records hc hempty
    exact sound_make ⟨hlisted.allocated, Workspace.link_closed hallocated hlisted.distinct hlocs,
      fun p hp => absurd hp List.not_mem_nil⟩ maxSteps
  · cases h

/-! ## Programs on used machines -/

/-- A new machine over the workspace of another one, with its settings, on a world. -/
def renewed (m : Machine) (w : World) : Machine :=
  { make m.maxSteps m.workspace w with randModes := m.randModes }

/-- **Programs know nothing of the past.** Whatever a host has done with a machine, its workspace,
stacks and settings are those that it had. A stack runs on it as on a new machine with the same
workspace, settings, stacks and memory, and as on any machine on which programs start alike,
wherever its stacks stand: it is missing on both, or, unless dice are rolled, it gives the same
blocks. Hence a program that rolls no dice and leaves the memory as it was gives the same blocks, up
to the places of stacks, whenever it is run again on that memory, whatever was done with the machine
meanwhile. -/
theorem runStack_forgets_history (hm : Used env m₀ m) (name : String) :
    Keeps m₀ m ∧
      (∀ w : World, w.store.heap = m.heap → w.memory = m.world.memory →
        Repeats id env name (m₀.renewed w) m ∧ Repeats id env name m (m₀.renewed w)) ∧
      (∀ σ n, env.Uniform σ → SameStart σ n m → Repeats σ env name n m) ∧
      (env.Impartial → m₀.Sound → ∀ bs m₁, m.runStack env name = .ok (bs, m₁) →
        m₁.world.rolled = m.world.rolled → m₁.world.memory = m.world.memory →
          ∀ m₂, Used env m₁ m₂ → m₂.world.memory = m.world.memory →
            ∃ m₃, m₂.runStack env name =
                .ok (bs.map (Block.relocate (shift m.heap.size m₂.heap.size)), m₃) ∧
              Heap.Relocates (shift m.heap.size m₂.heap.size) m₁.heap m₃.heap ∧
              m₃.world.memory = m.world.memory) := by
  have hkeeps := hm.keeps
  refine ⟨hkeeps, ?_, ?_, ?_⟩
  · intro w hheap hmemory
    have hstart : SameStart id (m₀.renewed w) m :=
      .of_eq hkeeps.workspace hheap.symm hmemory.symm hkeeps.maxSteps hkeeps.randModes
    have hback : SameStart id m (m₀.renewed w) :=
      .of_eq hkeeps.workspace.symm hheap hmemory hkeeps.maxSteps.symm hkeeps.randModes.symm
    exact ⟨hstart.repeats env.uniform_id name, hback.repeats env.uniform_id name⟩
  · intro σ n hu hstart
    exact hstart.repeats hu name
  · intro he hsound bs m₁ hrun hrolled hmemory m₂ hused hmemory'
    have hm₁ : Used env m m₁ := Used.new.runStack hrun
    have hlater := hm₁.keeps.trans hused.keeps
    have hclosed := (hm.sound he hsound).world
    have hstart := hlater.sameStart hclosed hmemory'
    have hu := he _ (shift_injective hlater.heap.size)
    obtain ⟨m₃, hagain, hend, -⟩ := (hstart.repeats hu name).2 bs m₁ hrun hrolled
    refine ⟨m₃, hagain, hend.heap, ?_⟩
    rw [hend.memory, hmemory]
    exact relocate_memory hclosed.memory _

/-- A machine whose program appends a text to an array. -/
def appender : Machine :=
  make 9 ⟨[1], 0⟩
    ⟨⟨⟨#[Stack.make "a" [.string "x"],
      Stack.make "main" [.data 0 true, .string "y", .operator .append]]⟩, Dice.ofSeed 0⟩, [], []⟩

/-- The machine after one step of the program. -/
def halfway : Machine :=
  ((appender.reset.insert .standard (appender.heap.get 1)).advance .standard).2

/-- On the machine that was stopped halfway the program can be run again, and again after that: each
time it answers with a new array, in the next place of the heap. -/
theorem runStack_forgets_history_halfway :
    Used .standard appender halfway ∧ appender.Sound ∧ Environment.standard.Impartial ∧
      ∃ m₁ m₂, halfway.runStack .standard "main" = .ok ([.data 2 true], m₁) ∧
        m₁.runStack .standard "main" = .ok ([.data 3 true], m₂) := by
  have hused : Used .standard appender halfway := .advance (.load "main" .new rfl)
  have hsound : appender.Sound := by
    refine sound_make ⟨?_, ?_, fun p hp => absurd hp List.not_mem_nil⟩ 9
    · simp [Heap.size]
    · intro loc b hb
      rcases loc with _ | _ | loc
      · obtain rfl := List.mem_singleton.1 hb
        exact Block.inside_of_none rfl _
      · rcases List.mem_cons.1 hb with rfl | hb
        · rintro _ ⟨⟩
          exact Nat.zero_lt_two
        · rcases List.mem_cons.1 hb with rfl | hb
          · exact Block.inside_of_none rfl _
          · obtain rfl := List.mem_singleton.1 hb
            exact Block.inside_of_none rfl _
      · cases hb
  have hquiet : Environment.standard.Quiet := fun e he => absurd he List.not_mem_nil
  have he : Environment.standard.Impartial := fun σ _ => hquiet.uniform σ
  have hfirst : ∃ m₁, halfway.runStack .standard "main" = .ok ([.data 2 true], m₁) ∧
      m₁.world.rolled = halfway.world.rolled ∧ m₁.world.memory = halfway.world.memory ∧
        m₁.heap.size = 3 := ⟨_, rfl, rfl, rfl, rfl⟩
  obtain ⟨m₁, hrun, hrolled, hmemory, hsize⟩ := hfirst
  obtain ⟨m₂, hagain, -, -⟩ := (runStack_forgets_history hused "main").2.2.2 he hsound _ m₁ hrun
    hrolled hmemory m₁ .new hmemory
  rw [hsize] at hagain
  exact ⟨hused, hsound, he, m₁, m₂, hrun, hagain⟩

end Machine

end BlockMachine
