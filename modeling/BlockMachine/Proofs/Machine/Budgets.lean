import BlockMachine.Proofs.Decimal.Whole
import BlockMachine.Proofs.Machine.Coupling
import BlockMachine.Proofs.Machine.Isolation
import Mathlib.Data.List.Chain

/-!
# Budgets

A run takes at most as many steps as the limit of its machine says, and the machines that are nested
in it have lower limits. So nesting is well founded, and running a machine is a recursion that ends.

* `Steps` — the states that a run goes through; `runSteps_cases` — how it ends;
* `Spawns` — the machines that a step may run, `step_congr` — and no others matter;
* `Nests` — the machines that a run may run, each with a lower limit: `Nests.lt`, `Nests.le_half`;
* `run_eq` — so a run is made of steps whose nested machines are run the same way;
* `Calculus.series_accumulates` — the loop of a sum or product ends by itself if its bounds are less
  than `2^53` apart;
* `wellNested` — all of it.
-/

namespace BlockMachine

/-! ## Loops -/

namespace Calculus

/-- The loop of a sum or a product, with no bound on the number of its rounds: from the distance `i`
and a total on it comes to an end. -/
inductive Accumulates (p : Probe) (a sign interval : Float) (op : Fraction → Fraction → Fraction) :
    Float → Fraction → World → Except Block Block × World → Prop where
  | done {i : Float} {total : Fraction} {w : World} : ¬ i ≤ interval →
    Accumulates p a sign interval op i total w (.ok (.ofFraction total), w)
  | failed {i : Float} {total : Fraction} {w w' : World} {b : Block} : i ≤ interval →
    p.sampleFraction (Fraction.ofFloat (i * sign + a)) w = (.error b, w') →
    Accumulates p a sign interval op i total w (.error b, w')
  | next {i : Float} {total y : Fraction} {w w' : World} {r : Except Block Block × World} :
    i ≤ interval → p.sampleFraction (Fraction.ofFloat (i * sign + a)) w = (.ok y, w') →
    Accumulates p a sign interval op (i + 1) (op total y) w' r →
    Accumulates p a sign interval op i total w r

/-- With fuel for the rounds up to a whole number above the interval, the loop ends by itself. -/
theorem accumulates_of_end {p : Probe} {a sign interval : Float}
    {op : Fraction → Fraction → Fraction} {n : Nat} (hn : n ≤ 2 ^ 53)
    (hend : ¬ Float.ofNat n ≤ interval) (fuel : Nat) :
    ∀ (k : Nat) (total : Fraction) (w : World), k ≤ n → n < k + fuel →
      Accumulates p a sign interval op (Float.ofNat k) total w
        (accumulate p a sign interval op fuel (Float.ofNat k) total w) := by
  induction fuel with
  | zero =>
    intro k total w hk hfuel
    omega
  | succ fuel ih =>
    intro k total w hk hfuel
    rw [accumulate]
    split
    · rename_i hle
      have hlt : k < n := by
        refine Nat.lt_of_le_of_ne hk ?_
        rintro rfl
        exact hend hle
      change Accumulates p a sign interval op (Float.ofNat k) total w (Sampling.bind _ _ w)
      rw [Sampling.bind]
      rcases hs : p.sampleFraction (Fraction.ofFloat (Float.ofNat k * sign + a)) w with ⟨b | y, w'⟩
      · exact .failed hle hs
      · have hnext := ih (k + 1) (op total y) w' hlt (by omega)
        rw [← Decimal.ofNat_add_one (by omega)] at hnext
        exact .next hle hs hnext
    · rename_i hle
      exact .done hle

/-- **Sums and products end** if their bounds are less than `2^53` apart. -/
theorem series_accumulates (p : Probe) (a b : Float) (op : Fraction → Fraction → Fraction)
    (start : Float) (w : World) (h : (a - b).abs < Float.ofNat (2 ^ 53)) :
    Accumulates p a (if b < a then -1 else 1) (a - b).abs op 0 (Fraction.ofFloat start) w
      (series p a b op start w) := by
  obtain ⟨hle, hend⟩ := Decimal.not_ofNat_le_abs (a - b) h
  exact accumulates_of_end hle hend _ 0 _ w (Nat.zero_le _) (by omega)

end Calculus

namespace Machine

/-! ## Steps -/

/-- The state after so many steps, all of which left something to do. -/
inductive Steps (d : Discipline) (env : Environment) (m : Machine) : Nat → Machine → Prop where
  | start : Steps d env m 0 m
  | more {k : Nat} {s s' : Machine} : Steps d env m k s → s.step d env = (.pending, s') →
    Steps d env m (k + 1) s'.counted

section Steps

variable {d : Discipline} {env : Environment} {m m' s : Machine} {k : Nat}

theorem Steps.cons (hm : m.step d env = (.pending, m')) (h : Steps d env m'.counted k s) :
    Steps d env m (k + 1) s := by
  induction h with
  | start => exact .more .start hm
  | more _ hs ih => exact .more ih hs

/-- **How a run ends**: with a step that finishes the main program, or at its limit. -/
theorem runSteps_cases (d : Discipline) (env : Environment) (left : Nat) :
    ∀ m : Machine, ∃ k s, Steps d env m k s ∧
      (k < left ∧ (∃ s', s.step d env = (.finished, s') ∧ m.runSteps d env left = (s'.result, s')) ∨
        k = left ∧ m.runSteps d env left = ([stepLimitExceeded env.localizer], s)) := by
  induction left with
  | zero =>
    intro m
    exact ⟨0, m, .start, .inr ⟨rfl, rfl⟩⟩
  | succ left ih =>
    intro m
    rcases hm : m.step d env with ⟨_ | _, m'⟩
    · obtain ⟨k, s, hs, hend⟩ := ih m'.counted
      have hrun : m.runSteps d env (left + 1) = m'.counted.runSteps d env left := by
        rw [runSteps, hm]
        rfl
      refine ⟨k + 1, s, hs.cons hm, ?_⟩
      rw [hrun]
      rcases hend with ⟨hk, hfin⟩ | ⟨hk, hlimit⟩
      · exact .inl ⟨by omega, hfin⟩
      · exact .inr ⟨by omega, hlimit⟩
    · refine ⟨0, m, .start, .inl ⟨Nat.succ_pos _, m', hm, ?_⟩⟩
      rw [runSteps, hm]

/-- A step that finishes leaves a main program with nothing left. -/
theorem mainFrame_of_finished (h : m.step d env = (.finished, m')) :
    m'.mainFrame.isFinished = true := by
  have halone : ∀ {n : Machine}, n.outer = [] → n.mainFrame = n.active := by
    intro n ho
    rw [mainFrame, ho]
    rfl
  rw [step] at h
  split at h
  · rename_i hmain
    cases h
    exact hmain
  · split at h
    · rename_i ho
      have ho : m.outer = [] := by simpa using ho
      rcases hp : m.active.program with _ | ⟨b | _, rest⟩
      · rw [stepFrame_nil hp] at h
        cases h
        rw [halone ho, Frame.isFinished, hp]
        rfl
      · rw [stepFrame_block hp] at h
        split at h
        · rename_i hdone
          cases h
          rw [ho, List.length_nil] at hdone
          change (m.afterBlock d env b rest).mainFrame.isFinished = true
          rw [halone (List.eq_nil_of_length_eq_zero hdone.1)]
          exact hdone.2
        · cases h
      · rw [stepFrame_child hp] at h
        split at h
        · rename_i hdone
          cases h
          rw [ho, List.length_nil] at hdone
          change ((m.withProgram rest).push (missingChild env.localizer)).mainFrame.isFinished = true
          rw [halone (List.eq_nil_of_length_eq_zero hdone.1)]
          exact hdone.2
        · cases h
    · split at h
      · cases h
      · cases h

end Steps

/-! ## The machines that a step runs -/

/-- What a nested machine is for. -/
inductive Purpose where
  /-- A calculus operator runs a function, or one side of a limit. -/
  | sample
  /-- A marked stack is called. -/
  | isolation
deriving DecidableEq

/-- The machines that the next step may run: if the next block samples, trials with the limit for
samples; if it calls a marked stack, the machine of that call. -/
inductive Spawns (env : Environment) (m : Machine) : Purpose → Machine → Prop where
  | sample {b : Block} {rest : List Pending} (bindings : Keyed Binding) (values : List Block)
      (s : Stack) (w : World) : m.active.program = .block b :: rest → b.samples = true →
    Spawns env m .sample (trial env m.nestedBudget m.workspace bindings values s w)
  | isolation {b : Block} {rest : List Pending} {loc : Loc} : m.active.program = .block b :: rest →
    (m.withProgram rest).isolates? b = some loc →
    Spawns env m .isolation ((m.withProgram rest).callee env loc)

/-- The machine has the limits, the count of steps and the workspace of another. -/
structure Paced (m n : Machine) : Prop where
  maxSteps : n.maxSteps = m.maxSteps
  budget : n.budget = m.budget
  steps : n.steps = m.steps
  workspace : n.workspace = m.workspace

section Paced

variable {m n : Machine}

theorem Paced.trans {l : Machine} (h : Paced l m) (h' : Paced m n) : Paced l n :=
  ⟨h'.maxSteps.trans h.maxSteps, h'.budget.trans h.budget, h'.steps.trans h.steps,
    h'.workspace.trans h.workspace⟩

theorem Paced.symm (h : Paced m n) : Paced n m :=
  ⟨h.maxSteps.symm, h.budget.symm, h.steps.symm, h.workspace.symm⟩

theorem paced_notify (m : Machine) (e : Event) : Paced m (m.notify e) := by
  rw [notify_eq]
  exact ⟨rfl, rfl, rfl, rfl⟩

theorem paced_pop (m : Machine) (c : Option Block) : Paced m (m.pop c).2 := by
  have hvalues : ∀ (n : Machine) (vs : List Block) (v : View),
      Paced n { n with values := vs, view := v } := fun _ _ _ => ⟨rfl, rfl, rfl, rfl⟩
  rw [pop]
  split
  · exact ⟨rfl, rfl, rfl, rfl⟩
  · cases c with
    | none => exact (paced_notify _ _).trans (hvalues _ _ _)
    | some c => exact ((paced_notify _ _).trans (paced_notify _ _)).trans (hvalues _ _ _)

theorem Paced.nestedBudget (h : Paced m n) : n.nestedBudget = m.nestedBudget := by
  rw [Machine.nestedBudget, Machine.nestedBudget, limit, limit, h.maxSteps, h.budget, h.steps]

/-- A machine keeps its limits in what it does to itself. -/
theorem paced_lasting (env : Environment) (m : Machine) : Lasting env (Paced m) where
  push b h := h.trans ((paced_notify _ _).trans ⟨rfl, rfl, rfl, rfl⟩)
  pop c h := h.trans (paced_pop _ c)
  alloc s h := h.trans ⟨rfl, rfl, rfl, rfl⟩
  roll h := by
    rw [roll_eq]
    exact h.trans ⟨rfl, rfl, rfl, rfl⟩
  nextAnonymous h := h.trans ⟨rfl, rfl, rfl, rfl⟩
  setVariable h hs := by
    obtain ⟨memory, changed, log, -, rfl⟩ := setVariable_eq hs
    exact h.trans ⟨rfl, rfl, rfl, rfl⟩
  frames a o h := h.trans ⟨rfl, rfl, rfl, rfl⟩
  notify e _ h := h.trans (paced_notify _ e)
  afterFrame h := h.trans ⟨rfl, rfl, rfl, rfl⟩

/-- Nested machines do not change it. -/
theorem paced_sheltered (env : Environment) (run : Runner) (m : Machine) :
    Sheltered (Paced m) env run :=
  (paced_lasting env m).sheltered (fun _ h => h.trans ⟨rfl, rfl, rfl, rfl⟩) run

end Paced

section Spawns

variable {env : Environment} {run run' : Runner} {m n : Machine} {purpose : Purpose} {k M : Nat}

/-- **Nothing else is run.** Runners that agree on the machines that a step may run take the step
alike. -/
theorem step_congr (h : ∀ purpose n, Spawns env m purpose n → run n = run' n) :
    m.step (splicing env run) env = m.step (splicing env run') env := by
  have hR := (paced_lasting env m).inStep
  have hself : Paced m m := ⟨rfl, rfl, rfl, rfl⟩
  have hshelter := paced_sheltered env run' m
  have hblock : ∀ b rest, m.active.program = .block b :: rest →
      m.afterBlock (splicing env run) env b rest = m.afterBlock (splicing env run') env b rest ∧
        Paced m (m.afterBlock (splicing env run) env b rest) := by
    intro b rest hp
    have hrest : Paced m (m.withProgram rest) := ⟨rfl, rfl, rfl, rfl⟩
    apply hR.notify _ rfl
    apply hR.evaluate
    · exact ⟨rfl, hrest⟩
    · rintro hb x _ ⟨rfl, hx⟩ bindings values s
      have hrun : run (trial env x.nestedBudget x.workspace bindings values s x.world) =
          run' (trial env x.nestedBudget x.workspace bindings values s x.world) := by
        rw [hx.nestedBudget, hx.workspace]
        exact h .sample _ (.sample bindings values s x.world hp hb)
      rw [hrun]
      exact ⟨rfl, rfl, hshelter.sample hx bindings values s⟩
    · intro loc hloc
      -- the call asks for one machine
      have hcall : (m.withProgram rest).callIsolated run env loc =
          (m.withProgram rest).callIsolated run' env loc := by
        have hrun := h .isolation _ (.isolation hp hloc)
        rw [callee] at hrun
        rw [callIsolated, callIsolated, hrun]
      rw [hcall]
      exact ⟨rfl, hshelter.isolate loc hrest (obfuscated_of_isolates? hloc)⟩
  obtain ⟨hfst, hsnd, -⟩ := hR.step ⟨rfl, hself⟩ hblock
  exact Prod.ext hfst hsnd

/-- The limit of a trial. -/
theorem trial_maxSteps (env : Environment) (limit : Nat) (workspace : Workspace)
    (bindings : Keyed Binding) (values : List Block) (s : Stack) (w : World) :
    (trial env limit workspace bindings values s w).maxSteps = limit :=
  ((paced_lasting env (make limit workspace w)).trial ⟨rfl, rfl, rfl, rfl⟩ bindings values s).maxSteps

/-- The limit of the machine of an isolated call. -/
theorem callee_maxSteps (env : Environment) (loc : Loc) (m : Machine) :
    (m.callee env loc).maxSteps = m.remainingBudget := by
  have hP := paced_lasting env ((m.obfuscate loc false).nested m.remainingBudget)
  have hfresh := hP.assignEach
    (m := { (m.obfuscate loc false).nested m.remainingBudget with values := m.values })
    ⟨rfl, rfl, rfl, rfl⟩ true m.active.bindings
  rw [callee, isolated, insert_maxSteps]
  exact hfresh.maxSteps

/-- **Lower limits.** A machine that is run in a step of a run has a lower limit than that run, and
at most half of it if it is for a sample. -/
theorem Spawns.bounds (h : Spawns env m purpose n) (hb : m.budget = some M) (hs : 0 < m.steps)
    (hM : 0 < M) : n.maxSteps < M ∧ (purpose = .sample → n.maxSteps ≤ M / 2) := by
  cases h with
  | sample bindings values s w _ _ =>
    rw [trial_maxSteps]
    refine ⟨nestedBudget_lt hb hM, ?_⟩
    intro _
    simp only [nestedBudget, limit, hb, Option.getD_some]
    omega
  | isolation _ _ =>
    rw [callee_maxSteps]
    refine ⟨remainingBudget_lt hb hs hM, ?_⟩
    rintro ⟨⟩

end Spawns

/-! ## The machines that a run runs -/

/-- A run of `m` may run `n` in one of its steps. -/
def Nests (env : Environment) (purpose : Purpose) (m n : Machine) : Prop :=
  ∃ k s, k < m.maxSteps ∧ Steps (splicing env (run env)) env m.started k s ∧ Spawns env s purpose n

section Nests

variable {env : Environment} {run run' : Runner} {m n : Machine} {purpose : Purpose} {k M : Nat}

/-- The limit of a run and the count of its steps, along the run. -/
theorem Steps.pace {s : Machine} (h : Steps (splicing env run) env m.started k s) :
    s.budget = some m.maxSteps ∧ s.steps = k + 1 := by
  induction h with
  | start => exact ⟨rfl, rfl⟩
  | @more k s s' _ hs ih =>
    have hpaced : Paced s (s.step (splicing env run) env).2 :=
      (paced_lasting env s).step (paced_sheltered env run s) ⟨rfl, rfl, rfl, rfl⟩
    rw [hs] at hpaced
    exact ⟨hpaced.budget.trans ih.1, congrArg (· + 1) (hpaced.steps.trans ih.2)⟩

theorem Nests.bounds (h : Nests env purpose m n) :
    n.maxSteps < m.maxSteps ∧ (purpose = .sample → n.maxSteps ≤ m.maxSteps / 2) := by
  obtain ⟨k, s, hk, hs, hn⟩ := h
  obtain ⟨hb, hsteps⟩ := hs.pace
  exact hn.bounds hb (by omega) (by omega)

/-- **Nesting is well founded.** -/
theorem nests_wellFounded (env : Environment) :
    WellFounded fun n m => ∃ purpose, Nests env purpose m n := by
  refine Subrelation.wf ?_ (measure Machine.maxSteps).wf
  rintro n m ⟨purpose, h⟩
  exact h.bounds.1

/-- A machine and machines that are nested in one another. -/
theorem length_le_of_isChain (ns : List Machine) :
    ∀ {m : Machine}, List.IsChain (fun m n => ∃ purpose, Nests env purpose m n) (m :: ns) →
      (m :: ns).length ≤ m.maxSteps + 1 := by
  induction ns with
  | nil =>
    intro m _
    simp
  | cons n ns ih =>
    intro m h
    obtain ⟨⟨purpose, hmn⟩, hrest⟩ := List.isChain_cons_cons.1 h
    have hlen := ih hrest
    have hlt := hmn.bounds.1
    simp only [List.length_cons] at hlen ⊢
    omega

/-- If they are all for samples, the limit is halved every time. -/
theorem length_le_of_isChain_sample (ns : List Machine) :
    ∀ {m : Machine}, List.IsChain (Nests env .sample) (m :: ns) →
      (m :: ns).length ≤ m.maxSteps.log2 + 2 := by
  induction ns with
  | nil =>
    intro m _
    simp
  | cons n ns ih =>
    intro m h
    obtain ⟨hmn, hrest⟩ := List.isChain_cons_cons.1 h
    have hhalf := hmn.bounds.2 rfl
    have hlen := ih hrest
    rcases Nat.eq_zero_or_pos n.maxSteps with hzero | hpos
    · -- a machine without a step runs no other
      cases ns with
      | nil => simp
      | cons l ns =>
        have := (List.isChain_cons_cons.1 hrest).1.bounds.1
        omega
    · have hlog : n.maxSteps.log2 + 1 ≤ m.maxSteps.log2 := by
        rw [Nat.le_log2 (by omega), Nat.pow_succ]
        have := Nat.log2_self_le (Nat.ne_of_gt hpos)
        omega
      simp only [List.length_cons] at hlen ⊢
      omega

/-! ## Running by itself -/

/-- Runners that agree on machines with lower limits take a run alike. -/
theorem runSteps_congr (hM : 0 < M) (h : ∀ n : Machine, n.maxSteps < M → run n = run' n)
    (left : Nat) :
    ∀ {m : Machine}, m.budget = some M → 0 < m.steps →
      m.runSteps (splicing env run) env left = m.runSteps (splicing env run') env left := by
  induction left with
  | zero =>
    intro m _ _
    rfl
  | succ left ih =>
    intro m hb hs
    have hstep : m.step (splicing env run) env = m.step (splicing env run') env :=
      step_congr fun purpose n hn => h n (hn.bounds hb hs hM).1
    have hpaced : Paced m (m.step (splicing env run') env).2 :=
      (paced_lasting env m).step (paced_sheltered env run' m) ⟨rfl, rfl, rfl, rfl⟩
    rw [runSteps, runSteps, hstep]
    rcases hm : m.step (splicing env run') env with ⟨_ | _, m'⟩
    · rw [hm] at hpaced
      exact ih (hpaced.budget.trans hb) (Nat.succ_pos _)
    · rfl

/-- An index that is high enough makes no difference. -/
theorem runAt_eq_run (env : Environment) (m : Machine) {depth : Nat} (h : m.maxSteps ≤ depth) :
    m.runAt env depth = m.run env := by
  -- the induction is on the limit, which falls from machine to nested machine
  induction hM : m.maxSteps using Nat.strong_induction_on generalizing m depth with
  | _ M ih =>
    rw [Machine.run, hM]
    cases M with
    | zero =>
      cases depth with
      | zero => rfl
      | succ depth =>
        change m.started.runSteps _ env m.maxSteps = _
        rw [hM]
        rfl
    | succ M =>
      obtain ⟨depth, rfl⟩ : ∃ d, depth = d + 1 := ⟨depth - 1, by omega⟩
      rw [runAt, runAt, hM]
      apply runSteps_congr (M := M + 1) (Nat.succ_pos M)
      · intro n hn
        rw [ih n.maxSteps hn n (by omega) rfl, ih n.maxSteps hn n (by omega) rfl]
      · exact congrArg some hM
      · exact Nat.one_pos

/-- **A run** takes steps in which nested machines are run in the same way. -/
theorem run_eq (env : Environment) (m : Machine) :
    m.run env = m.started.runSteps (splicing env (Machine.run env)) env m.maxSteps := by
  rw [← runAt_eq_run env m (Nat.le_succ _), runAt]
  rcases Nat.eq_zero_or_pos m.maxSteps with hzero | hpos
  · rw [hzero]
    rfl
  · apply runSteps_congr hpos
    · intro n hn
      exact runAt_eq_run env n (Nat.le_of_lt hn)
    · rfl
    · exact Nat.one_pos

end Nests

/-- What bounds the evaluation of a machine. -/
structure WellNested (env : Environment) (m : Machine) : Prop where
  /-- A run takes steps, in which nested machines are run in the same way, until one of at most as
  many as the limit says finishes the main program, whose values are the result; or it takes just so
  many, and its result is an error. -/
  outcome : ∃ k s, Steps (splicing env (run env)) env m.started k s ∧
    (k < m.maxSteps ∧ (∃ s', s.step (splicing env (run env)) env = (.finished, s') ∧
        s'.mainFrame.isFinished = true ∧ m.run env = (s'.result, s')) ∨
      k = m.maxSteps ∧ ∃ b, b.isError = true ∧ m.run env = ([b], s))
  /-- The machines that are run in a step are those that it may spawn: how others are run makes no
  difference. -/
  complete : ∀ run run' : Runner, (∀ purpose n, Spawns env m purpose n → run n = run' n) →
    m.step (splicing env run) env = m.step (splicing env run') env
  /-- A machine that is nested in the run has a lower limit, -/
  lower : ∀ purpose n, Nests env purpose m n → n.maxSteps < m.maxSteps
  /-- and at most half of it if it is for a sample. -/
  half : ∀ n, Nests env .sample m n → n.maxSteps ≤ m.maxSteps / 2
  /-- So machines that are nested in one another are at most one more than the limit, -/
  depth : ∀ ns, List.IsChain (fun m n => ∃ purpose, Nests env purpose m n) (m :: ns) →
    (m :: ns).length ≤ m.maxSteps + 1
  /-- and at most two more than its logarithm if they are all for samples. -/
  sampleDepth : ∀ ns, List.IsChain (Nests env .sample) (m :: ns) →
    (m :: ns).length ≤ m.maxSteps.log2 + 2
  /-- There is no endless descent into nested machines, -/
  accessible : Acc (fun n m => ∃ purpose, Nests env purpose m n) m
  /-- and no endless loop in a sum or a product with bounds that are less than `2^53` apart. -/
  loops : ∀ (p : Probe) (a b : Float) (op : Fraction → Fraction → Fraction) (start : Float)
    (w : World), (a - b).abs < Float.ofNat (2 ^ 53) →
    Calculus.Accumulates p a (if b < a then -1 else 1) (a - b).abs op 0 (Fraction.ofFloat start) w
      (Calculus.series p a b op start w)

/-- **Evaluation is bounded**, for every machine. That an error shows a block is taken to end, as it
does unless the block leads to a package inside itself (`Heap.shows_iff`). -/
theorem wellNested (env : Environment) (m : Machine) : WellNested env m where
  outcome := by
    obtain ⟨k, s, hs, hend⟩ :=
      runSteps_cases (splicing env (run env)) env m.maxSteps m.started
    rw [← run_eq] at hend
    refine ⟨k, s, hs, ?_⟩
    rcases hend with ⟨hk, s', hfin, hrun⟩ | ⟨hk, hrun⟩
    · exact .inl ⟨hk, s', hfin, mainFrame_of_finished hfin, hrun⟩
    · exact .inr ⟨hk, _, rfl, hrun⟩
  complete _ _ h := step_congr h
  lower _ _ h := h.bounds.1
  half _ h := h.bounds.2 rfl
  depth ns h := length_le_of_isChain ns h
  sampleDepth ns h := length_le_of_isChain_sample ns h
  accessible := (nests_wellFounded env).apply m
  loops := Calculus.series_accumulates

/-- A machine with a limit of ten whose program is a limit from both sides. -/
def limiter : Machine :=
  { make 10 Workspace.empty (World.ofSeed 0) with
    active := ⟨[.block (.operator .limit)], [], "main"⟩ }

/-- It may run a machine for a side of the limit, with at most half of its limit. -/
theorem wellNested_limiter :
    Nests Environment.standard .sample limiter
        (trial Environment.standard 4 Workspace.empty [] [] (Stack.make "f" []) limiter.world) ∧
      (trial Environment.standard 4 Workspace.empty [] [] (Stack.make "f" [])
        limiter.world).maxSteps ≤ 5 := by
  have hnests : Nests Environment.standard .sample limiter
      (trial Environment.standard 4 Workspace.empty [] [] (Stack.make "f" []) limiter.world) :=
    ⟨0, limiter.started, by decide, .start, .sample [] [] (Stack.make "f" []) limiter.world rfl rfl⟩
  exact ⟨hnests, (wellNested Environment.standard limiter).half _ hnests⟩

end Machine

end BlockMachine
