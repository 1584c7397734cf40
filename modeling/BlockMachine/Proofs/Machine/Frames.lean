import BlockMachine.Proofs.Machine.Invariance

/-!
# What happens to the frames

The two operations that change frames, assignment and loading, said without the machine around
them.

* `Frame.bindUp` — an assignment: `assign_frames`;
* `Frame.loaded` — a stack loaded into a frame: `load_cases`;
* `insertChild` — running a stack in a new child, which is what `insert` does while the active frame
  has work left: `insertChild_cases`;
* `Blind R` — a relation that takes no notice of frames and events; `Blind.load` — loading a stack
  on related machines changes both active frames in the same way.
-/

namespace BlockMachine

namespace Frame

/-- Binds a name in a chain of frames, innermost first, up to the first frame in which it is a
parameter. -/
def bindUp (name : String) (b : Block) : (parameter : Bool) → List Frame → List Frame
  | _, [] => []
  | parameter, f :: outer =>
    let parameter := parameter || f.isParameter name
    f.bind name parameter b :: if parameter then outer else bindUp name b false outer

theorem bindUp_cons (name : String) (b : Block) (parameter : Bool) (f : Frame)
    (outer : List Frame) :
    bindUp name b parameter (f :: outer) = f.bind name (parameter || f.isParameter name) b ::
      if parameter || f.isParameter name then outer else bindUp name b false outer := rfl

theorem assignAll_fst (changed : Block → Bool) (name : String) (b : Block) :
    ∀ (parameter : Bool) (fs : List Frame),
      (assignAll changed name b parameter fs).1 = bindUp name b parameter fs := by
  intro parameter fs
  induction fs generalizing parameter with
  | nil => rfl
  | cons f outer ih =>
    rw [assignAll, bindUp]
    simp only [List.cons.injEq]
    refine ⟨trivial, ?_⟩
    split
    · rfl
    · exact ih false

/-- Binding a name changes no program. -/
theorem bindUp_programs (name : String) (b : Block) :
    ∀ (parameter : Bool) (fs : List Frame),
      (bindUp name b parameter fs).map program = fs.map program := by
  intro parameter fs
  induction fs generalizing parameter with
  | nil => rfl
  | cons f outer ih =>
    rw [bindUp_cons]
    simp only [List.map_cons, List.cons.injEq]
    refine ⟨rfl, ?_⟩
    split
    · rfl
    · exact ih false

/-- The frame with parameters bound, in order. -/
def bindEach (bound : List (String × Block)) (f : Frame) : Frame :=
  bound.foldl (fun f (name, b) => f.bind name true b) f

/-- The frame with a stack's blocks as its program and the stack's parameters bound. -/
def loaded (s : Stack) (bound : List (String × Block)) (f : Frame) : Frame :=
  bindEach bound { f with program := s.blocks.map .block, name := s.name }

/-- A stack loaded with its references moved. -/
theorem relocate_loaded (σ : Loc → Loc) (s : Stack) (bound : List (String × Block)) (f : Frame) :
    (loaded s bound f).relocate σ =
      loaded (s.relocate σ) (bound.map (Prod.map id (Block.relocate σ))) (f.relocate σ) := by
  have hbind : ∀ f : Frame, (bindEach bound f).relocate σ =
      bindEach (bound.map (Prod.map id (Block.relocate σ))) (f.relocate σ) := by
    induction bound with
    | nil =>
      intro f
      rfl
    | cons p bound ih =>
      intro f
      refine (ih (f.bind p.1 true p.2)).trans ?_
      rw [relocate_bind]
      rfl
  rw [loaded, loaded, hbind]
  simp only [relocate, Stack.relocate, List.map_map]
  rfl

@[simp] theorem bindEach_program (bound : List (String × Block)) :
    ∀ f : Frame, (bindEach bound f).program = f.program := by
  induction bound with
  | nil =>
    intro f
    rfl
  | cons p bound ih =>
    intro f
    exact ih _

@[simp] theorem loaded_program (s : Stack) (bound : List (String × Block)) (f : Frame) :
    (loaded s bound f).program = s.blocks.map .block := by
  simp [loaded]

end Frame

namespace Machine

/-! ## Assignments -/

/-- Events, one after the other, reach the log and nothing else. -/
theorem notifyEach_eq (name : String) (b : Block) (news : List Bool) :
    ∀ m : Machine, ∃ log, news.foldl (fun m p => m.notify (.assigned name b p)) m =
      { m with world := { m.world with log } } := by
  induction news with
  | nil =>
    intro m
    exact ⟨m.world.log, rfl⟩
  | cons p news ih =>
    intro m
    obtain ⟨log, hlog⟩ := ih (m.notify (.assigned name b p))
    refine ⟨log, ?_⟩
    simp only [List.foldl_cons]
    rw [hlog, notify_eq]
    simp

/-- An assignment binds the name in the chain of frames and is heard of. -/
theorem assign_eq (name : String) (b : Block) (parameter : Bool) (m : Machine) :
    ∃ active outer log, Frame.bindUp name b parameter m.frames = active :: outer ∧
      m.assign name b parameter =
        { m with active := active, outer := outer, world := { m.world with log } } := by
  have hfst := Frame.assignAll_fst (fun old => !m.heap.equals b old) name b parameter m.frames
  rw [assign]
  generalize Frame.assignAll (fun old => !m.heap.equals b old) name b parameter m.frames = x at hfst ⊢
  obtain ⟨fs, news⟩ := x
  simp only at hfst
  cases hfs : fs with
  | nil =>
    rw [hfs] at hfst
    rw [frames, Frame.bindUp] at hfst
    cases hfst
  | cons active outer =>
    obtain ⟨log, hlog⟩ := notifyEach_eq name b news { m with active := active, outer := outer }
    exact ⟨active, outer, log, by rw [← hfst, hfs], hlog⟩

theorem assign_frames (name : String) (b : Block) (parameter : Bool) (m : Machine) :
    (m.assign name b parameter).frames = Frame.bindUp name b parameter m.frames := by
  obtain ⟨active, outer, log, hb, ha⟩ := assign_eq name b parameter m
  rw [hb, ha]
  rfl

/-- An assignment adds no frame. -/
theorem assign_outer_length (name : String) (b : Block) (parameter : Bool) (m : Machine) :
    (m.assign name b parameter).outer.length = m.outer.length := by
  have hp := congrArg List.length (Frame.bindUp_programs name b parameter m.frames)
  rw [← assign_frames] at hp
  simpa [frames] using hp

/-! ## Loading -/

theorem popInputs_frames (names : List String) :
    ∀ m : Machine, (popInputs names m).2.active = m.active ∧
      (popInputs names m).2.outer = m.outer := by
  induction names with
  | nil =>
    intro m
    exact ⟨rfl, rfl⟩
  | cons name names ih =>
    intro m
    rw [popInputs]
    have hp := pop_rest m none
    rcases hm : m.pop none with ⟨_ | b, m'⟩
    all_goals
      rw [hm] at hp
      obtain ⟨ha, ho⟩ := ih m'
      exact ⟨ha.trans hp.1, ho.trans hp.2.1⟩

/-- A stack that is loaded leaves the frames alone, or it becomes the program of the active one. -/
theorem load_cases (env : Environment) (s : Stack) (m : Machine) :
    (m.load env s).outer = m.outer ∧
      ((m.load env s).active = m.active ∨
        s.blocks ≠ [] ∧ ∃ bound, (m.load env s).active = Frame.loaded s bound m.active) := by
  rw [load]
  split
  · simp
  · obtain ⟨ha, ho⟩ := popInputs_frames s.inputs.reverse m
    simp only [notify_rest]
    split
    · exact ⟨ho, .inl ha⟩
    · rename_i hb
      refine ⟨ho, .inr ⟨by simpa using hb, (popInputs s.inputs.reverse m).1, ?_⟩⟩
      rw [ha]
      rfl

/-- The frame with a mark for a child in front of what is left of its program. -/
def waiting (f : Frame) : Frame :=
  { f with program := .child :: f.program }

/-- Runs a stack in a new child of the active frame, also if that frame has nothing left to run. -/
def insertChild (env : Environment) : Inserter := fun s m =>
  let m := load env s { m with active := Frame.empty, outer := waiting m.active :: m.outer }
  m.notify (.opened m.active)

theorem insert_of_finished {m : Machine} (h : m.active.isFinished = true) (env : Environment)
    (s : Stack) : m.insert env s = m.load env s := by
  rw [insert]
  rw [if_pos h]

theorem insert_of_unfinished {m : Machine} (h : m.active.isFinished = false) (env : Environment)
    (s : Stack) : m.insert env s = insertChild env s m := by
  rw [insert]
  rw [if_neg (by rw [h]; decide)]
  rfl

theorem insertChild_active (env : Environment) (s : Stack) (m : Machine) :
    (insertChild env s m).active =
      (load env s { m with active := Frame.empty, outer := waiting m.active :: m.outer }).active := by
  simp [insertChild]

/-- A stack that is run in a child makes the active frame wait, and is loaded into the child or
leaves it empty. -/
theorem insertChild_cases (env : Environment) (s : Stack) (m : Machine) :
    (insertChild env s m).outer = waiting m.active :: m.outer ∧
      ((insertChild env s m).active = Frame.empty ∨
        s.blocks ≠ [] ∧ ∃ bound, (insertChild env s m).active = Frame.loaded s bound Frame.empty) := by
  rw [insertChild]
  simp only [notify_rest]
  exact load_cases env s _

/-- Running a stack keeps a property that takes no notice of frames and of the world, if pushing and
popping do. -/
theorem insert_keeps {P : Machine → Prop} (hpush : ∀ {m : Machine}, P m → ∀ b, P (m.push b))
    (hpop : ∀ {m : Machine}, P m → ∀ c, P (m.pop c).2)
    (hframes : ∀ {m : Machine}, P m → ∀ a o, P { m with active := a, outer := o })
    (hworld : ∀ {m : Machine}, P m → ∀ w, P { m with world := w }) (env : Environment) (s : Stack)
    {m : Machine} (h : P m) : P (m.insert env s) := by
  have hnotify : ∀ {m : Machine} (e : Event), P m → P (m.notify e) := by
    intro m e h
    rw [notify_eq]
    exact hworld h _
  have hinputs : ∀ (names : List String) {m : Machine}, P m → P (popInputs names m).2 := by
    intro names
    induction names with
    | nil =>
      intro m h
      exact h
    | cons name names ih =>
      intro m h
      have hp := hpop h none
      rw [popInputs]
      rcases hm : m.pop none with ⟨_ | b, m'⟩
      · rw [hm] at hp
        exact ih hp
      · rw [hm] at hp
        exact ih hp
  have hload : ∀ {m : Machine}, P m → P (m.load env s) := by
    intro m h
    rw [load]
    split
    · exact hpush h _
    · have hp := hinputs s.inputs.reverse h
      refine hnotify _ ?_
      split
      · exact hp
      · exact hframes hp _ _
  cases hfin : m.active.isFinished with
  | true =>
    rw [insert_of_finished hfin]
    exact hload h
  | false =>
    rw [insert_of_unfinished hfin]
    exact hnotify _ (hload (hframes h _ _))

/-! ## Steps -/

/-- The machine with another program in its active frame. -/
def withProgram (program : List Pending) (m : Machine) : Machine :=
  { m with active := { m.active with program } }

/-- The machine after a block of the active frame, of whose program the rest is left. -/
def afterBlock (d : Discipline) (env : Environment) (b : Block) (rest : List Pending)
    (m : Machine) : Machine :=
  ((m.withProgram rest).evaluate d env b).notify (.evaluated b)

theorem stepFrame_nil {m : Machine} (hp : m.active.program = []) (d : Discipline)
    (env : Environment) : m.stepFrame d env = (.finished, m) := by
  simp only [stepFrame, hp]

theorem stepFrame_block {m : Machine} {b : Block} {rest : List Pending}
    (hp : m.active.program = .block b :: rest) (d : Discipline) (env : Environment) :
    m.stepFrame d env =
      if (m.afterBlock d env b rest).outer.length = m.outer.length ∧
          (m.afterBlock d env b rest).active.isFinished then
        (.finished, (m.afterBlock d env b rest).afterFrame env)
      else (.pending, m.afterBlock d env b rest) := by
  simp only [stepFrame, hp]
  rfl

/-! ## Two machines -/

/-- A congruent relation that takes no notice of frames and events. -/
structure Blind (R : Machine → Machine → Prop) : Prop extends Congruent R where
  frames : ∀ {m n} (a a' : Frame) (o o' : List Frame), R m n →
    R { m with active := a, outer := o } { n with active := a', outer := o' }
  notify : ∀ {m n} (e e' : Event), R m n → R (m.notify e) (n.notify e')

namespace Blind

variable {R : Machine → Machine → Prop}

/-- **Loading in step.** On related machines a stack is loaded alike: both active frames stay, or
both get its blocks and the same parameters. -/
theorem load (hR : Blind R) {m n : Machine} (h : R m n) (env : Environment) (s : Stack) :
    R (m.load env s) (n.load env s) ∧
      ((m.load env s).active = m.active ∧ (n.load env s).active = n.active ∨
        s.blocks ≠ [] ∧ ∃ bound, (m.load env s).active = Frame.loaded s bound m.active ∧
          (n.load env s).active = Frame.loaded s bound n.active) := by
  obtain ⟨bound, m', n', hm, hn, h'⟩ := (hR.popInputs h s.inputs.reverse).elim
  have ham := (popInputs_frames s.inputs.reverse m).1
  have han := (popInputs_frames s.inputs.reverse n).1
  rw [hm] at ham
  rw [hn] at han
  simp only [Machine.load]
  rw [hR.values h, hm, hn]
  simp only at ham han ⊢
  split
  · exact ⟨hR.push _ h, .inl (by simp)⟩
  · split
    · exact ⟨hR.notify _ _ h', .inl (by simp [ham, han])⟩
    · rename_i hb
      refine ⟨hR.notify _ _ (hR.frames _ _ _ _ h'), .inr ⟨by simpa using hb, bound, ?_⟩⟩
      simp only [notify_rest, ham, han]
      exact ⟨rfl, rfl⟩

end Blind

end Machine

end BlockMachine
