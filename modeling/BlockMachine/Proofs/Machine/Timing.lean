import BlockMachine.Proofs.Machine.Segments

/-!
# Limits and step counts

The limit of a machine, and how many steps it has taken, bound its nested machines and the length of
its run. No block reads them otherwise. So two machines that differ in nothing else take the same
steps as long as they ask for no nested machine, whether they are run or driven step by step.

* `untimed` — a machine without its limits and its count of steps, `Retimed` — machines that differ
  in nothing else;
* `Retimed.step` — they take the same step if it asks for no nested machine;
* `DirectRun` — a way to the end of the main program on which no step does, with something done to
  the machine between the steps; `Retimed.directRun` — they have the same way;
* `budget_immaterial` — so the limit of a run makes no difference once it suffices.
-/

namespace BlockMachine.Machine

/-- The machine without its limits and its count of steps. -/
def untimed (m : Machine) : Machine :=
  { m with maxSteps := 0, steps := 0, budget := none }

/-- Two machines that differ at most in their limits and their counts of steps. -/
def Retimed (m n : Machine) : Prop :=
  m.untimed = n.untimed

/-- What is read off the rest of the machines is the same. -/
theorem Retimed.congr {α : Type} {m n : Machine} (h : Retimed m n) (f : Machine → α) :
    f m.untimed = f n.untimed :=
  congrArg f h

/-! ## Operations

They do the same with and without the limits. -/

section Untimed

variable (m : Machine)

theorem untimed_notify (e : Event) : (m.notify e).untimed = m.untimed.notify e := by
  rw [notify, notify, show m.untimed.view = m.view from rfl]
  cases m.view.report e with
  | none => rfl
  | some e => rfl

theorem untimed_push (b : Block) : (m.push b).untimed = m.untimed.push b := by
  rw [push, push, ← untimed_notify]
  rfl

theorem untimed_pop (c : Option Block) : (m.pop c).2.untimed = (m.untimed.pop c).2 := by
  rw [pop, pop, show m.untimed.values = m.values from rfl]
  cases m.values with
  | nil => rfl
  | cons b rest =>
    cases c with
    | none =>
      simp only [← untimed_notify]
      rfl
    | some c =>
      simp only [← untimed_notify]
      rfl

theorem untimed_nextRandMode :
    m.untimed.nextRandMode = (m.nextRandMode.1, m.nextRandMode.2.untimed) := by
  rw [nextRandMode, nextRandMode, show m.untimed.randModes = m.randModes from rfl,
    show m.untimed.randIndex = m.randIndex from rfl]
  cases m.randModes[m.randIndex]? with
  | none => rfl
  | some mode => rfl

theorem untimed_roll : m.untimed.roll = (m.roll.1, m.roll.2.untimed) := by
  rw [roll, roll, untimed_nextRandMode]
  rcases m.nextRandMode with ⟨_ | _ | _, n⟩
  all_goals rfl

theorem untimed_setVariable (id name : String) (b : Block) :
    m.untimed.setVariable id name (some b) =
      (m.setVariable id name (some b)).map Machine.untimed := by
  rw [setVariable, setVariable, show m.untimed.world = m.world from rfl,
    show m.untimed.heap = m.heap from rfl]
  rcases m.world.memory.setVariable m.heap id name (some b) with e | ⟨memory, changed⟩
  · rfl
  · cases changed with
    | false => rfl
    | true =>
      simp only [if_true, ← untimed_notify]
      rfl

end Untimed

/-! ## Steps -/

theorem retimed_inStep (env : Environment) : InStep env Retimed where
  values h := h.congr Machine.values
  workspace h := h.congr Machine.workspace
  store h := h.congr fun m => m.world.store
  memory h := h.congr fun m => m.world.memory
  push b h := by rw [Retimed, untimed_push, untimed_push, h]
  pop c h := by rw [Retimed, untimed_pop, untimed_pop, h]
  alloc s h := h.congr fun m => (m.alloc s).2
  setVariable {m n m' n' id name b} h hm hn := by
    have hm' := untimed_setVariable m id name b
    have hn' := untimed_setVariable n id name b
    rw [hm] at hm'
    rw [hn, ← h, hm'] at hn'
    exact Except.ok.inj hn'
  roll {m n} h := by
    have hroll : m.untimed.roll = n.untimed.roll := h.congr Machine.roll
    rw [untimed_roll, untimed_roll] at hroll
    exact Prod.mk.inj hroll
  anonymous h := h.congr Machine.anonymous
  nextAnonymous h := h.congr fun m => m.nextAnonymous.2
  active h := h.congr Machine.active
  outer h := h.congr Machine.outer
  frames a o h := h.congr fun m => ({ m with active := a, outer := o } : Machine)
  notify e _ h := by rw [Retimed, untimed_notify, untimed_notify, h]
  afterFrame h := h.congr fun m => m.afterFrame env

/-- Whether the next step, if there is one, asks for no nested machine. -/
def isDirect (m : Machine) : Bool :=
  m.mainFrame.isFinished || m.isInline

theorem Retimed.isDirect {m n : Machine} (h : Retimed m n) : m.isDirect = n.isDirect :=
  h.congr Machine.isDirect

/-- **A direct step** does not depend on the limits, nor on how nested machines are run. -/
theorem Retimed.step {m n : Machine} (h : Retimed m n) (hm : m.isDirect = true) (env : Environment)
    (run run' : Runner) :
    Related Retimed (m.step (splicing env run) env) (n.step (splicing env run') env) := by
  have hR := retimed_inStep env
  rw [Machine.isDirect, Bool.or_eq_true] at hm
  rcases hm with hfin | hinline
  · have hfin' : n.mainFrame.isFinished = true := by
      rw [mainFrame, ← hR.outer h, ← hR.active h]
      exact hfin
    rw [Machine.step, Machine.step, if_pos hfin, if_pos hfin']
    exact ⟨rfl, h⟩
  · refine hR.step h ?_
    intro b rest hp
    simp only [isInline, hp, runsInline, Bool.and_eq_true, Bool.not_eq_true',
      Option.isNone_iff_eq_none] at hinline
    obtain ⟨hsample, hisolate⟩ := hinline
    apply hR.notify _ rfl
    apply hR.evaluate (hR.withProgram h rest)
    · intro hb
      rw [hsample] at hb
      cases hb
    · intro loc hloc
      rw [show (m.withProgram rest).isolates? b = none from hisolate] at hloc
      cases hloc

/-! ## Ways to the end -/

/-- From `m` a step finishes the main program and ends in `m'`, after `k` steps that left something
to do; between two steps the machine is changed by `tick`. No step asks for a nested machine. -/
inductive DirectRun (env : Environment) (tick : Machine → Machine) : Nat → Machine → Machine → Prop
    where
  | last {m m' : Machine} : m.isDirect = true → m.advance env = (.finished, m') →
    DirectRun env tick 0 m m'
  | more {k : Nat} {m m' x : Machine} : m.isDirect = true → m.advance env = (.pending, m') →
    DirectRun env tick k (tick m') x → DirectRun env tick (k + 1) m x

variable {env : Environment} {k : Nat} {m x : Machine}

theorem Retimed.advance {n : Machine} (h : Retimed m n) (hm : m.isDirect = true) {p : Progress}
    (hx : m.advance env = (p, x)) : ∃ y, n.advance env = (p, y) ∧ Retimed x y := by
  obtain ⟨p', x', y, hm', hn, hxy⟩ := (h.step hm env (run env) (run env)).elim
  rw [Machine.advance, hm'] at hx
  obtain ⟨rfl, rfl⟩ := Prod.mk.inj hx
  exact ⟨y, hn, hxy⟩

/-- **The same way.** Machines that differ in their limits get to the end in the same steps. -/
theorem Retimed.directRun {tick tick' : Machine → Machine} (hx : DirectRun env tick k m x)
    (htick : ∀ {m n : Machine}, Retimed m n → Retimed (tick m) (tick' n)) :
    ∀ {n}, Retimed m n → ∃ y, DirectRun env tick' k n y ∧ Retimed x y := by
  induction hx with
  | last hdirect hm =>
    intro n h
    obtain ⟨y, hn, hxy⟩ := h.advance hdirect hm
    exact ⟨y, .last (h.isDirect ▸ hdirect) hn, hxy⟩
  | more hdirect hm _ ih =>
    intro n h
    obtain ⟨n', hn, h'⟩ := h.advance hdirect hm
    obtain ⟨y, hy, hxy⟩ := ih (htick h')
    exact ⟨y, .more (h.isDirect ▸ hdirect) hn hy, hxy⟩

/-- A limit that leaves room for the steps of the way lets a run go it. -/
theorem DirectRun.runSteps (h : DirectRun env counted k m x) {left : Nat} (hk : k < left) :
    m.runSteps (splicing env (run env)) env left = (x.result, x) := by
  obtain ⟨left, rfl⟩ : ∃ n, left = n + 1 := ⟨left - 1, by omega⟩
  induction h generalizing left with
  | last _ hm =>
    rw [advance] at hm
    rw [Machine.runSteps, hm]
  | more _ hm _ ih =>
    rw [advance] at hm
    rw [Machine.runSteps, hm]
    obtain ⟨left, rfl⟩ : ∃ n, left = n + 1 := ⟨left - 1, by omega⟩
    exact ih left (by omega)

/-- The machine with another limit. -/
def withLimit (limit : Nat) (m : Machine) : Machine :=
  { m with maxSteps := limit }

/-- A run of a machine that finishes the main program with the step after the first `k` ones, and
asks for no nested machine. -/
structure RunsDirectly (env : Environment) (m : Machine) (k : Nat) (x : Machine) : Prop where
  within : k < m.maxSteps
  way : DirectRun env counted k m.started x

theorem RunsDirectly.run (h : RunsDirectly env m k x) : m.run env = (x.result, x) := by
  rw [run_eq]
  exact h.way.runSteps h.within

/-- **The limit of a run makes no difference once it suffices**, if no nested machine is asked for.
With a greater limit the run finishes after as many steps, in a machine that differs in its limits
alone; and so does the machine when it is driven step by step, without a count. -/
theorem budget_immaterial (env : Environment) (m : Machine) {limit limit' : Nat}
    (hlimit : limit ≤ limit') (h : RunsDirectly env (m.withLimit limit) k x) :
    (m.withLimit limit).run env = (x.result, x) ∧
      (∃ y, RunsDirectly env (m.withLimit limit') k y ∧
        (m.withLimit limit').run env = (x.result, y) ∧ Retimed x y) ∧
      ∃ z, DirectRun env id k m z ∧ Retimed x z := by
  have hcounted : ∀ {m n : Machine}, Retimed m n → Retimed m.counted n.counted := fun h => h
  have huncounted : ∀ {m n : Machine}, Retimed m n → Retimed m.counted (id n) := fun h => h
  obtain ⟨y, hy, hxy⟩ := Retimed.directRun h.way hcounted
    (show Retimed (m.withLimit limit).started (m.withLimit limit').started from rfl)
  obtain ⟨z, hz, hxz⟩ := Retimed.directRun h.way huncounted
    (show Retimed (m.withLimit limit).started m from rfl)
  have hruns : RunsDirectly env (m.withLimit limit') k y := ⟨Nat.lt_of_lt_of_le h.within hlimit, hy⟩
  have hresult : y.result = x.result := (hxy.congr Machine.result).symm
  refine ⟨h.run, ⟨y, hruns, ?_, hxy⟩, z, hz, hxz⟩
  rw [hruns.run, hresult]

/-- A machine that calls a function on its value twice, the second time in tail position. -/
def negator : Machine :=
  { make 5 ⟨[0], 0⟩ ⟨⟨⟨#[Stack.make "f" [.operator .negate]]⟩, Dice.ofSeed 0⟩, [], []⟩ with
    values := [.boolean true]
    active := ⟨[.block (.code "f" (some 0)), .block (.code "f" (some 0))], [], "main"⟩ }

/-- It finishes with its fourth step, under a limit of five, under a limit of ten, and by hand. -/
theorem budget_immaterial_negator :
    5 ≤ 10 ∧ ∃ x, RunsDirectly .standard (negator.withLimit 5) 3 x ∧ x.values = [.boolean true] ∧
      (negator.withLimit 5).run .standard = (x.result, x) ∧
      (∃ y, RunsDirectly .standard (negator.withLimit 10) 3 y ∧
        (negator.withLimit 10).run .standard = (x.result, y) ∧ Retimed x y) ∧
      ∃ z, DirectRun .standard id 3 negator z ∧ Retimed x z := by
  obtain ⟨x, hway, hvalues⟩ : ∃ x, DirectRun .standard counted 3 (negator.withLimit 5).started x ∧
      x.values = [.boolean true] :=
    ⟨_, .more rfl rfl (.more rfl rfl (.more rfl rfl (.last rfl rfl))), rfl⟩
  have hlimit : 5 ≤ 10 := by decide
  have hruns : RunsDirectly .standard (negator.withLimit 5) 3 x := ⟨by decide, hway⟩
  exact ⟨hlimit, x, hruns, hvalues, budget_immaterial .standard negator hlimit hruns⟩

end BlockMachine.Machine
