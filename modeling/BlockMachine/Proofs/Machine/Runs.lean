import BlockMachine.Proofs.Machine.FrameChain

/-!
# Plain runs

A run is plain if every block that it evaluates is: no calculus operator, no isolated call, no
module's block. What a plain run does is settled by its machine and how stacks are run from a frame;
it uses no nested machine.

* `step_nil`, `step_block` — a step of a machine all of whose waiting frames have work left;
* `Environment.Quiet` — no module changes the value stack when a frame has finished,
  `Environment.QuietOn` — when one with a given name has;
* `PlainRun d env m trace m'` — the run from `m` is plain and ends in `m'`; `trace` lists what its
  recollections yield;
* `plainRun?` — the same as a function;
* `PlainRun.runSteps` — then every run with enough steps ends there, `PlainRun.unique` — and there
  is one such end.
-/

namespace BlockMachine

/-- No module changes the value stack when a frame has finished. -/
def Environment.Quiet (env : Environment) : Prop :=
  ∀ e ∈ env.grammar.modules, ∀ name values, e.afterFrame name values = values

/-- No module changes the value stack when a frame of a given name has finished. -/
def Environment.QuietOn (env : Environment) (name : String) : Prop :=
  ∀ e ∈ env.grammar.modules, ∀ values, e.afterFrame name values = values

theorem Environment.Quiet.on {env : Environment} (h : env.Quiet) (name : String) :
    env.QuietOn name :=
  fun e he values => h e he name values

namespace Machine

/-! ## Steps -/

/-- The frames around the active one have work left. -/
def Busy (m : Machine) : Prop :=
  ∀ f ∈ m.outer, f.isFinished = false

theorem Chained.busy {m : Machine} (h : Chained m) : m.Busy := by
  intro f hf
  obtain ⟨b, rest, hb, -⟩ := h.outer f hf
  simp [Frame.isFinished, hb]

/-- The main program is finished when the active frame is and no other is there. -/
theorem Busy.mainFrame_isFinished {m : Machine} (h : m.Busy) :
    m.mainFrame.isFinished = (m.outer.isEmpty && m.active.isFinished) := by
  rcases List.eq_nil_or_concat m.outer with ho | ⟨outer, f, ho⟩
  · simp [mainFrame, ho]
  · have hf := h f (by simp [ho])
    simp [mainFrame, ho, hf]

variable {m : Machine} {d : Discipline} {env : Environment}

/-- A frame with nothing left is closed, unless it is the main program's. -/
theorem step_nil (h : m.Busy) (hp : m.active.program = []) (d : Discipline) (env : Environment) :
    m.step d env = if m.outer.isEmpty then (.finished, m) else (.pending, m.closeFrame) := by
  have hfin : m.active.isFinished = true := by simp [Frame.isFinished, hp]
  rw [step]
  rw [h.mainFrame_isFinished, hfin, Bool.and_true, stepFrame_nil hp]
  split
  · rfl
  · simp

/-- A frame with a block left evaluates it. If this leaves the frame with nothing to do, it is
closed in the same step. -/
theorem step_block {b : Block} {rest : List Pending} (h : m.Busy)
    (hp : m.active.program = .block b :: rest) (d : Discipline) (env : Environment) :
    m.step d env =
      if (m.afterBlock d env b rest).outer.length = m.outer.length ∧
          (m.afterBlock d env b rest).active.isFinished then
        if m.outer.isEmpty then (.finished, (m.afterBlock d env b rest).afterFrame env)
        else (.pending, ((m.afterBlock d env b rest).afterFrame env).closeFrame)
      else (.pending, m.afterBlock d env b rest) := by
  have hfin : m.active.isFinished = false := by simp [Frame.isFinished, hp]
  rw [step]
  rw [h.mainFrame_isFinished, hfin, Bool.and_false, stepFrame_block hp]
  simp only [Bool.false_eq_true, if_false]
  by_cases hdone : (m.afterBlock d env b rest).outer.length = m.outer.length ∧
      (m.afterBlock d env b rest).active.isFinished = true
  · simp only [if_pos hdone]
  · simp only [if_neg hdone, ite_self]

/-- Modules that are quiet on the name of the active frame leave a machine alone. -/
theorem afterFrame_of_quietOn {m : Machine} (hq : env.QuietOn m.active.name) :
    m.afterFrame env = m := by
  have hfold : ∀ (es : List Module) (values : List Block),
      (∀ e ∈ es, ∀ values, e.afterFrame m.active.name values = values) →
      es.foldl (fun values e => e.afterFrame m.active.name values) values = values := by
    intro es
    induction es with
    | nil =>
      intro values _
      rfl
    | cons e es ih =>
      intro values he
      rw [List.foldl_cons, he e List.mem_cons_self]
      exact ih values fun e' he' => he e' (List.mem_cons_of_mem _ he')
  rw [afterFrame, hfold _ _ hq]

/-- Quiet modules leave a machine alone. -/
theorem afterFrame_of_quiet (hq : env.Quiet) (m : Machine) : m.afterFrame env = m :=
  afterFrame_of_quietOn (hq.on _)

/-! ## Runs -/

/-- What the block that is evaluated next yields, if it recalls a name. -/
def recollection (env : Environment) (m : Machine) : List Block :=
  match m.active.program with
  | .block (.fetch name) :: _ => [m.recalled env name]
  | _ => []

/-- A recollection is what comes to the top of the value stack. -/
theorem evaluate_fetch (d : Discipline) (env : Environment) (name : String) (m : Machine) :
    m.evaluate d env (.fetch name) = m.push (m.recalled env name) := rfl

/-- Whether the next block, if there is one, is evaluated without a nested machine and without the
help of a module. -/
def isPlainNext (m : Machine) : Bool :=
  match m.active.program with
  | .block b :: _ => m.isPlain b
  | _ => true

/-- The machine with its step counted. -/
def counted (m : Machine) : Machine :=
  { m with steps := m.steps + 1 }

/-- The run from a machine to its end, with what the recollections yield on the way, in which only
plain blocks are evaluated. -/
inductive PlainRun (d : Discipline) (env : Environment) :
    Machine → List Block → Machine → Prop where
  | last {m m' : Machine} : m.isPlainNext = true → m.step d env = (.finished, m') →
    PlainRun d env m (m.recollection env) m'
  | more {m m' m'' : Machine} {trace : List Block} : m.isPlainNext = true →
    m.step d env = (.pending, m') → PlainRun d env m'.counted trace m'' →
    PlainRun d env m (m.recollection env ++ trace) m''

/-- The plain run of at most so many steps, if there is one. -/
def plainRun? (d : Discipline) (env : Environment) : Nat → Machine → Option (List Block × Machine)
  | 0, _ => none
  | left + 1, m =>
    if m.isPlainNext then
      match m.step d env with
      | (.finished, m') => some (m.recollection env, m')
      | (.pending, m') =>
        (plainRun? d env left m'.counted).map fun (trace, m'') => (m.recollection env ++ trace, m'')
    else none

theorem PlainRun.of_plainRun? {trace : List Block} {m' : Machine} (left : Nat) :
    ∀ {m : Machine}, m.plainRun? d env left = some (trace, m') → PlainRun d env m trace m' := by
  induction left generalizing trace with
  | zero =>
    intro m h
    cases h
  | succ left ih =>
    intro m h
    rw [plainRun?] at h
    split at h
    · rename_i hplain
      split at h
      · rename_i hs
        cases h
        exact .last hplain hs
      · rename_i hs
        obtain ⟨⟨trace', m''⟩, hrest, heq⟩ := Option.map_eq_some_iff.1 h
        cases heq
        exact .more hplain hs (ih hrest)
    · cases h

/-- A plain run with given recollections and values, found by running. -/
theorem exists_plainRun {trace values : List Block} (left : Nat) {m : Machine}
    (h : (m.plainRun? d env left).map (fun r => (r.1, r.2.values)) = some (trace, values)) :
    ∃ m', PlainRun d env m trace m' ∧ m'.values = values := by
  obtain ⟨⟨trace', m'⟩, hrun, heq⟩ := Option.map_eq_some_iff.1 h
  obtain ⟨rfl, rfl⟩ := Prod.mk.inj heq
  exact ⟨m', .of_plainRun? left hrun, rfl⟩

/-- Every run with enough steps takes the way of the plain one. -/
theorem PlainRun.runSteps {trace : List Block} {m m' : Machine} (h : PlainRun d env m trace m') :
    ∃ least, ∀ left, least ≤ left → m.runSteps d env left = (m'.result, m') := by
  induction h with
  | last _ hs =>
    refine ⟨1, ?_⟩
    intro left hleft
    obtain ⟨left, rfl⟩ : ∃ k, left = k + 1 := ⟨left - 1, by omega⟩
    rw [Machine.runSteps]
    rw [hs]
  | more _ hs _ ih =>
    obtain ⟨least, hleast⟩ := ih
    refine ⟨least + 1, ?_⟩
    intro left hleft
    obtain ⟨left, rfl⟩ : ∃ k, left = k + 1 := ⟨left - 1, by omega⟩
    rw [Machine.runSteps]
    rw [hs]
    exact hleast left (by omega)

/-- A machine has at most one plain run. -/
theorem PlainRun.unique {trace trace' : List Block} {m m' m'' : Machine}
    (h : PlainRun d env m trace m') (h' : PlainRun d env m trace' m'') :
    trace = trace' ∧ m' = m'' := by
  induction h generalizing trace' m'' with
  | last _ hs =>
    cases h' with
    | last _ hs' =>
      rw [hs] at hs'
      cases hs'
      exact ⟨rfl, rfl⟩
    | more _ hs' _ =>
      rw [hs] at hs'
      cases hs'
  | more _ hs _ ih =>
    cases h' with
    | last _ hs' =>
      rw [hs] at hs'
      cases hs'
    | more _ hs' hrest =>
      rw [hs] at hs'
      cases hs'
      obtain ⟨rfl, rfl⟩ := ih hrest
      exact ⟨rfl, rfl⟩

/-! ## Machines that are alike -/

/-- Being alike takes no notice of frames and events. -/
theorem alike_blind {named rolled : Prop} : Blind (Alike named rolled) where
  toCongruent := alike_congruent
  frames a a' o o' h := ⟨h.values, h.workspace, h.store, h.memory, h.anonymous, h.randModes,
    h.randIndex⟩
  notify e e' h := by
    exact ((alike_notify _ e).symm.trans h).trans (alike_notify _ e')

section Alike

variable {named rolled : Prop}

theorem alike_counted (m : Machine) : Alike named rolled m m.counted :=
  ⟨rfl, rfl, rfl, rfl, fun _ => rfl, fun _ => rfl, fun _ => rfl⟩

/-- The frame around a finished child, after the child is closed. -/
theorem closeFrame_cons {n : Machine} {p : Frame} {ps : List Frame} (ho : n.outer = p :: ps) :
    n.closeFrame.active = { p with program := p.program.tail } ∧ n.closeFrame.outer = ps := by
  rw [closeFrame]
  simp only [ho, notify_rest]
  exact ⟨trivial, trivial⟩

theorem alike_closeFrame (n : Machine) : Alike named rolled n n.closeFrame := by
  rw [closeFrame]
  split
  · exact Alike.refl n
  · exact (alike_blind.frames n.active _ n.outer _ (Alike.refl n)).trans (alike_notify _ _)

theorem frames_eq {m n : Machine} (ha : m.active = n.active) (ho : m.outer = n.outer) :
    m.frames = n.frames := by
  simp only [frames]
  rw [ha, ho]

/-- A plain block on machines that are alike: up to its last move, they stay so and their frames stay
as they were. -/
theorem Alike.evaluate {m n : Machine} (h : Alike named rolled m n) (d d' : Discipline)
    (env : Environment) (hf : ∀ name, m.recalled env name = n.recalled env name) (b : Block)
    (hplain : m.isPlain b = true) (hroll : b.rolls = true → rolled) (hname : b.names = true → named) :
    Joint (fun x y => Alike named rolled x y ∧ (x.active = m.active ∧ x.outer = m.outer) ∧
        y.active = n.active ∧ y.outer = n.outer)
      d.insert d'.insert (m.evaluate d env b) (n.evaluate d' env b) := by
  have hm := kept_frames m.active m.outer
  have hn := kept_frames n.active n.outer
  refine Congruent.evaluate_joint (alike_congruent.and_kept hm hn) ⟨h, ⟨rfl, rfl⟩, ⟨rfl, rfl⟩⟩
    d d' env hf b hplain ?_ ?_
  · exact fun hb => (alike_rolling (hroll hb)).and_kept hm hn
  · exact fun hb => (alike_naming (hname hb)).and_kept hm hn

/-- Being alike survives that a name is bound. -/
theorem alike_assign {m n : Machine} (h : Alike named rolled m n) (name : String) (b : Block) :
    Alike named rolled (m.assign name b false) (n.assign name b false) := by
  obtain ⟨a, o, log, -, hm⟩ := assign_eq name b false m
  obtain ⟨a', o', log', -, hn⟩ := assign_eq name b false n
  rw [hm, hn]
  exact ⟨h.values, h.workspace, h.store, h.memory, h.anonymous, h.randModes, h.randIndex⟩

end Alike

end Machine

end BlockMachine
