import BlockMachine.Proofs.Machine.Frames

/-!
# The chain of frames

A frame that waits for a child is marked, and the mark is what the child leaves behind for its
parent when it finishes: the parent drops the front of its program without looking at it. That this
is always the mark, and always the right one, is an invariant of the machine.

* `Frame.Waits` — a mark at the front of the program, at least one block behind it, and no second
  mark;
* `Chained` — the active frame holds no mark, and all frames around it wait;
* `chained_stable` — every block keeps the chain, also one that runs nested machines, because a
  stack that is run from a frame with nothing left is spliced into that frame;
* `Chained.step`, `Chained.run` — steps and runs keep it;
* `Reachable` — what a host can do with a machine, `Orderly` — what the chain is good for, and
  `reachable_orderly` — it holds throughout.
-/

namespace BlockMachine

/-- The frame waits for a child: its program is a mark with at least one block behind it. -/
def Frame.Waits (f : Frame) : Prop :=
  ∃ b rest, f.program = .child :: .block b :: rest ∧ .child ∉ rest

namespace Machine

/-- The active frame has no child, and every frame around it waits for one. -/
structure Chained (m : Machine) : Prop where
  active : .child ∉ m.active.program
  outer : ∀ f ∈ m.outer, f.Waits

/-- The programs of the frames, innermost first. -/
def programs (m : Machine) : List (List Pending) :=
  m.frames.map Frame.program

/-- The chain is a matter of the programs alone. -/
theorem Chained.of_programs {m n : Machine} (h : Chained m) (hp : m.programs = n.programs) :
    Chained n := by
  simp only [programs, frames] at hp
  simp only [List.map_cons, List.cons.injEq] at hp
  obtain ⟨ha, ho⟩ := hp
  refine ⟨?_, ?_⟩
  · rw [← ha]
    exact h.active
  · intro f hf
    have hmem : f.program ∈ m.outer.map Frame.program := by
      rw [ho]
      exact List.mem_map_of_mem hf
    obtain ⟨g, hg, hgf⟩ := List.mem_map.1 hmem
    obtain ⟨b, rest, hb, hrest⟩ := h.outer g hg
    exact ⟨b, rest, by rw [← hgf, hb], hrest⟩

/-! ## Single operations -/

theorem assign_programs (name : String) (b : Block) (parameter : Bool) (m : Machine) :
    (m.assign name b parameter).programs = m.programs := by
  simp only [programs]
  rw [assign_frames, Frame.bindUp_programs]

theorem child_not_mem_blocks (bs : List Block) : Pending.child ∉ bs.map Pending.block := by
  intro h
  obtain ⟨b, -, hb⟩ := List.mem_map.1 h
  cases hb

/-- Loading a stack into the active frame keeps the chain. -/
theorem Chained.load {m : Machine} (h : Chained m) (env : Environment) (s : Stack) :
    Chained (m.load env s) := by
  obtain ⟨ho, ha | ⟨-, bound, ha⟩⟩ := load_cases env s m
  · refine ⟨by rw [ha]; exact h.active, ?_⟩
    rw [ho]
    exact h.outer
  · refine ⟨?_, ?_⟩
    · rw [ha, Frame.loaded_program]
      exact child_not_mem_blocks _
    · rw [ho]
      exact h.outer

/-- A frame with a block left, once it is made to wait. -/
theorem waits_waiting {f : Frame} (hc : .child ∉ f.program) (hf : f.isFinished = false) :
    (waiting f).Waits := by
  rcases hp : f.program with _ | ⟨p, rest⟩
  · simp [Frame.isFinished, hp] at hf
  · rw [hp] at hc
    cases p with
    | child => exact absurd List.mem_cons_self hc
    | block b =>
      refine ⟨b, rest, by simp [waiting, hp], ?_⟩
      exact fun hr => hc (List.mem_cons_of_mem _ hr)

/-- Running a stack from the active frame keeps the chain: only a frame with a block left is made to
wait. -/
theorem Chained.insert {m : Machine} (h : Chained m) (env : Environment) (s : Stack) :
    Chained (m.insert env s) := by
  cases hfin : m.active.isFinished with
  | true =>
    rw [insert_of_finished hfin]
    exact h.load env s
  | false =>
    rw [insert_of_unfinished hfin]
    obtain ⟨ho, ha⟩ := insertChild_cases env s m
    refine ⟨?_, ?_⟩
    · rcases ha with ha | ⟨-, bound, ha⟩
      · rw [ha]
        exact List.not_mem_nil
      · rw [ha, Frame.loaded_program]
        exact child_not_mem_blocks _
    · intro f hf
      rw [ho] at hf
      rcases List.mem_cons.1 hf with rfl | hf
      · exact waits_waiting h.active hfin
      · exact h.outer f hf

/-! ## Blocks -/

section Evaluation

/-- A property of the programs alone is kept by every block if it is kept by the stacks that are
run. -/
theorem programs_stable {P : Machine → Prop} {d : Discipline}
    (hp : ∀ {m n : Machine}, P m → m.programs = n.programs → P n)
    (hins : ∀ {m : Machine} (s : Stack), P m → P (d.insert s m)) : Stable d P where
  push b h := hp h (by simp [programs, frames])
  pop c h := hp h (by simp [programs, frames])
  alloc s h := hp h rfl
  roll {m} h := by
    rw [roll_eq]
    exact hp h rfl
  nextAnonymous h := hp h rfl
  setVariable h hs := by
    obtain ⟨memory, changed, log, -, rfl⟩ := setVariable_eq hs
    exact hp h rfl
  assign name b h := hp h (assign_programs name b false _).symm
  insert s h := hins s h
  nested w h := hp h rfl

variable (env : Environment) (run : Runner)

/-- Every block keeps the chain. -/
theorem chained_stable : Stable (splicing env run) Chained :=
  programs_stable (fun h hp => h.of_programs hp) (fun s h => h.insert env s)

/-- Every block leaves the programs around the active frame as they are, below the child that it may
open. -/
theorem suffix_stable (ps : List (List Pending)) :
    Stable (splicing env run) fun m => ps <:+ m.outer.map Frame.program := by
  refine programs_stable ?_ ?_
  · intro m n h hp
    simp only [programs, frames] at hp
    simp only [List.map_cons, List.cons.injEq] at hp
    rw [← hp.2]
    exact h
  · intro m s h
    change ps <:+ (m.insert env s).outer.map Frame.program
    cases hfin : m.active.isFinished with
    | true =>
      rw [insert_of_finished hfin, (load_cases env s m).1]
      exact h
    | false =>
      rw [insert_of_unfinished hfin, (insertChild_cases env s m).1]
      exact h.trans (List.suffix_cons _ _)

/-! ## Steps and runs -/

/-- The active frame with its next block taken off. -/
theorem Chained.tail {m : Machine} {p : Pending} {rest : List Pending} (h : Chained m)
    (hp : m.active.program = p :: rest) :
    Chained (m.withProgram rest) := by
  refine ⟨?_, h.outer⟩
  intro hc
  refine h.active ?_
  rw [hp]
  exact List.mem_cons_of_mem _ hc

theorem Chained.afterBlock {m : Machine} {b : Block} {rest : List Pending} (h : Chained m)
    (hp : m.active.program = .block b :: rest) :
    Chained (m.afterBlock (splicing env run) env b rest) := by
  have hP := chained_stable env run
  exact hP.notify (.evaluated b) (hP.evaluate env b (h.tail hp))

variable {env run}

/-- **What the active frame does in a step.** The chain holds afterwards, and a frame that has
finished leaves the programs around it as they were. -/
theorem Chained.stepFrame {m m' : Machine} {p : Progress} (h : Chained m)
    (hs : m.stepFrame (splicing env run) env = (p, m')) :
    Chained m' ∧ (p = .finished → m'.active.isFinished = true ∧
      m'.outer.map Frame.program = m.outer.map Frame.program) := by
  rcases hp : m.active.program with _ | ⟨_ | ⟨b⟩, rest⟩
  · rw [stepFrame_nil hp] at hs
    cases hs
    exact ⟨h, fun _ => ⟨by simp [Frame.isFinished, hp], rfl⟩⟩
  · rename_i b
    have hc := h.afterBlock env run hp
    have hQ := suffix_stable env run (m.outer.map Frame.program)
    have hl : m.outer.map Frame.program <:+
        (m.afterBlock (splicing env run) env b rest).outer.map Frame.program :=
      hQ.notify (.evaluated b) (hQ.evaluate env b (List.suffix_refl _))
    rw [stepFrame_block hp] at hs
    split at hs
    · rename_i hfin
      cases hs
      refine ⟨⟨hc.active, hc.outer⟩, fun _ => ⟨hfin.2, ?_⟩⟩
      refine (hl.eq_of_length ?_).symm
      simp only [List.length_map]
      exact hfin.1.symm
    · cases hs
      exact ⟨hc, fun hp => by cases hp⟩
  · -- the active frame holds no mark
    refine absurd ?_ h.active
    rw [hp]
    exact List.mem_cons_self

/-- **Going back.** The frame around a finished one waits; what is taken off its program is the
mark, and no other mark is there. -/
theorem Chained.closeFrame {m : Machine} {parent : Frame} {outer : List Frame} (h : Chained m)
    (ho : m.outer = parent :: outer) :
    Chained m.closeFrame ∧ m.closeFrame.outer = outer ∧
      parent.program = .child :: m.closeFrame.active.program := by
  have hw := h.outer
  rw [ho] at hw
  obtain ⟨b, rest, hb, hrest⟩ := hw parent List.mem_cons_self
  rw [Machine.closeFrame]
  simp only [ho]
  refine ⟨⟨?_, ?_⟩, by simp, by simp [hb]⟩
  · simp [hb, hrest]
  · simp only [notify_rest]
    exact fun f hf => hw f (List.mem_cons_of_mem _ hf)

variable (env run)

/-- One step keeps the chain. -/
theorem Chained.step {m : Machine} (h : Chained m) :
    Chained (m.step (splicing env run) env).2 := by
  rw [Machine.step]
  rcases hs : m.stepFrame (splicing env run) env with ⟨p, m'⟩
  obtain ⟨h', -⟩ := h.stepFrame hs
  split
  · exact h
  · split
    · exact h'
    · cases p with
      | pending => exact h'
      | finished =>
        cases ho : m'.outer with
        | nil =>
          simp only [Machine.closeFrame, ho]
          exact h'
        | cons parent outer => exact (h'.closeFrame ho).1

/-- A run of any number of steps keeps the chain. -/
theorem Chained.runSteps (left : Nat) :
    ∀ {m : Machine}, Chained m → Chained (m.runSteps (splicing env run) env left).2 := by
  induction left with
  | zero =>
    intro m h
    exact h
  | succ left ih =>
    intro m h
    have h' := h.step env run
    rw [Machine.runSteps]
    rcases hs : m.step (splicing env run) env with ⟨p, m'⟩
    rw [hs] at h'
    cases p with
    | finished => exact h'
    | pending => exact ih ⟨h'.active, h'.outer⟩

theorem Chained.runAt {m : Machine} (h : Chained m) (depth : Nat) :
    Chained (m.runAt env depth).2 := by
  have hs : Chained m.started := ⟨h.active, h.outer⟩
  cases depth with
  | zero => exact hs
  | succ depth => exact Chained.runSteps env _ _ hs

/-- The main program has something left as long as another frame runs for it. -/
theorem Chained.outer_eq_nil {m : Machine} (h : Chained m) (hm : m.mainFrame.isFinished = true) :
    m.outer = [] := by
  rcases List.eq_nil_or_concat m.outer with ho | ⟨outer, f, ho⟩
  · exact ho
  · obtain ⟨b, rest, hb, -⟩ := h.outer f (by simp [ho])
    simp [mainFrame, ho, Frame.isFinished, hb] at hm

end Evaluation

/-! ## Hosts -/

/-- The states that a host can bring a machine into, from a new one on, and those that a run goes
through. -/
inductive Reachable (env : Environment) : Machine → Prop where
  | make (maxSteps : Nat) (workspace : Workspace) (world : World) (view : View)
      (randModes : List RandMode) :
    Reachable env { Machine.make maxSteps workspace world with view, randModes }
  | load {m m' : Machine} (name : String) :
    Reachable env m → m.loadProgram env name = .ok m' → Reachable env m'
  | insert {m : Machine} (s : Stack) : Reachable env m → Reachable env (m.insert env s)
  | advance {m : Machine} : Reachable env m → Reachable env (m.advance env).2
  | run {m : Machine} : Reachable env m → Reachable env (m.run env).2
  | assign {m : Machine} (name : String) (b : Block) (parameter : Bool) :
    Reachable env m → Reachable env (m.assign name b parameter)
  | push {m : Machine} (b : Block) : Reachable env m → Reachable env (m.push b)
  | pop {m : Machine} (consumer : Option Block) :
    Reachable env m → Reachable env (m.pop consumer).2
  | reset {m : Machine} : Reachable env m → Reachable env m.reset
  /-- A run begins. -/
  | started {m : Machine} : Reachable env m → Reachable env m.started
  /-- A run has taken one more step, whatever takes its nested machines to their ends. -/
  | tick {m : Machine} (run : Runner) :
    Reachable env m →
      Reachable env { (m.step (splicing env run) env).2 with steps := m.steps + 1 }

/-- The chain holds in every state. -/
theorem Reachable.chained {env : Environment} {m : Machine} (h : Reachable env m) : Chained m := by
  have hempty : ∀ {m : Machine}, m.active = Frame.empty → m.outer = [] → Chained m := by
    intro m ha ho
    refine ⟨by rw [ha]; exact List.not_mem_nil, ?_⟩
    rw [ho]
    exact fun f hf => absurd hf List.not_mem_nil
  induction h with
  | make => exact hempty rfl rfl
  | load name _ hl _ =>
    rw [loadProgram, loadProgramBy] at hl
    split at hl
    · cases hl
      exact (hempty rfl rfl).insert env _
    · cases hl
  | insert s _ ih => exact ih.insert env s
  | advance _ ih => exact ih.step env _
  | run _ ih => exact ih.runAt env _
  | assign name b parameter _ ih => exact ih.of_programs (assign_programs name b parameter _).symm
  | push b _ ih => exact ih.of_programs (by simp [programs, frames])
  | pop consumer _ ih => exact ih.of_programs (by simp [programs, frames])
  | reset _ _ => exact hempty rfl rfl
  | started _ ih => exact ⟨ih.active, ih.outer⟩
  | tick run _ ih => exact ⟨(ih.step env run).active, (ih.step env run).outer⟩

/-- The order that the frames of a machine are in. Frames are listed innermost first. -/
structure Orderly (env : Environment) (m : Machine) : Prop where
  /-- There is a frame. -/
  inhabited : m.frames ≠ []
  /-- Every frame around the active one is a mark, at least one block, and no other mark. -/
  waits : ∀ f ∈ m.frames.tail, f.Waits
  /-- The active frame holds no mark. -/
  unmarked : ∀ f ∈ m.frames.head?, .child ∉ f.program
  /-- So no step meets a mark where it looks for a block. -/
  next : ∀ rest, m.active.program ≠ .child :: rest
  /-- The main program is finished only when its frame is the only one. -/
  main : m.mainFrame.isFinished = true → m.frames = [m.mainFrame]
  /-- A child that finishes in a step leaves the programs around it alone until it is closed, and
  closing it takes the mark off its parent's program and nothing else. -/
  retire : ∀ (run : Runner) (m' : Machine) (parent : Frame) (outer : List Frame),
    m.outer = parent :: outer → m.stepFrame (splicing env run) env = (.finished, m') →
      m'.outer.map Frame.program = m.outer.map Frame.program ∧
        parent.program = .child :: m'.closeFrame.active.program ∧
        .child ∉ m'.closeFrame.active.program ∧
        m'.closeFrame.outer.map Frame.program = outer.map Frame.program

/-- **The frame chain.** In every state that a host or a run brings a machine into, the frames are
in order. -/
theorem reachable_orderly (env : Environment) {m : Machine} (h : Reachable env m) :
    Orderly env m := by
  have hc := h.chained
  refine ⟨List.cons_ne_nil _ _, hc.outer, ?_, ?_, ?_, ?_⟩
  · rintro f hf
    obtain rfl : m.active = f := by simpa [frames] using hf
    exact hc.active
  · rintro rest hp
    refine hc.active ?_
    rw [hp]
    exact List.mem_cons_self
  · intro hm
    have ho := hc.outer_eq_nil hm
    simp [frames, mainFrame, ho]
  · rintro run m' parent outer ho hs
    obtain ⟨hc', hfin⟩ := hc.stepFrame hs
    obtain ⟨-, hps⟩ := hfin rfl
    rcases ho' : m'.outer with _ | ⟨parent', outer'⟩
    · simp [ho, ho'] at hps
    · obtain ⟨hclosed, hout, hmark⟩ := hc'.closeFrame ho'
      rw [ho, ho'] at hps
      simp only [List.map_cons, List.cons.injEq] at hps
      obtain ⟨hparent, houter⟩ := hps
      refine ⟨?_, ?_, hclosed.active, ?_⟩
      · simp [ho, hparent, houter]
      · rw [← hparent]
        exact hmark
      · rw [hout]
        exact houter

/-- A machine with a main program of two blocks, which waits for a function of one block. -/
def twoFrames : Machine :=
  let fresh := { make 10 Workspace.empty (World.ofSeed 0) with view := .none, randModes := [] }
  let outer := fresh.insert Environment.standard (Stack.make "main" [.string "a", .string "b"])
  outer.insert Environment.standard (Stack.make "f" [.string "c"])

theorem reachable_orderly_two_frames :
    Reachable Environment.standard twoFrames ∧ twoFrames.outer.length = 1 ∧
      (twoFrames.stepFrame (splicing Environment.standard (run Environment.standard))
        Environment.standard).1 = .finished ∧
      Orderly Environment.standard twoFrames := by
  have h : Reachable Environment.standard twoFrames :=
    .insert _ (.insert _ (.make 10 Workspace.empty (World.ofSeed 0) .none []))
  exact ⟨h, rfl, rfl, reachable_orderly Environment.standard h⟩

end Machine

end BlockMachine
