import BlockMachine.Machine.Step

/-!
# Evaluation

A machine is run by taking steps until its main program has finished or its step limit is reached.
Programs that a step runs on nested machines have a limit below that of the machine, so the limit
also bounds how deep machines are nested.

* `Machine.runSteps` — steps under a limit, in a given `Discipline`;
* `Machine.runAt` — runs for limits up to an index, `Machine.run` — a run.
-/

namespace BlockMachine.Machine

/-- The result of a run that was stopped. -/
def stepLimitExceeded (l : Localizer) : Block :=
  .error (l.word "Errors.stepLimitExceeded" "Evaluation step limit exceeded.")

/-- Takes at most so many steps. -/
def runSteps (d : Discipline) (env : Environment) : Nat → Runner
  | 0, m => ([stepLimitExceeded env.localizer], m)
  | left + 1, m =>
    match m.step d env with
    | (.finished, m) => (m.result, m)
    | (.pending, m) => runSteps d env left { m with steps := m.steps + 1 }

/-- Calls in tail position are spliced, and nested machines are run by the given `Runner`. -/
def splicing (env : Environment) (run : Runner) : Discipline :=
  ⟨insert env, run⟩

/-- The machine at the start of a run. -/
def started (m : Machine) : Machine :=
  { m with budget := some m.maxSteps, steps := 1 }

/-- Runs a machine whose step limit is at most the index. -/
def runAt (env : Environment) : Nat → Runner
  | 0, m => ([stepLimitExceeded env.localizer], m.started)
  | depth + 1, m => runSteps (splicing env (runAt env depth)) env m.maxSteps m.started

/-- Runs a machine to its end or to its step limit. The machine stays as it was left; the result is
its value stack, bottom first, or an error if it was stopped. -/
def run (env : Environment) : Runner :=
  fun m => runAt env m.maxSteps m

/-- One step from outside of a run. -/
def advance (env : Environment) (m : Machine) : Progress × Machine :=
  m.step (splicing env (run env)) env

/-! ## Limits -/

/-- A machine nested by an isolated call has a lower limit than the run that it is part of. -/
theorem remainingBudget_lt {m : Machine} {limit : Nat} (hb : m.budget = some limit)
    (hs : 0 < m.steps) (hl : 0 < limit) : m.remainingBudget < limit := by
  simp [remainingBudget, Machine.limit, hb]
  omega

/-- A machine nested for a sample has a lower limit than the run that it is part of. -/
theorem nestedBudget_lt {m : Machine} {limit : Nat} (hb : m.budget = some limit)
    (hl : 0 < limit) : m.nestedBudget < limit := by
  simp [nestedBudget, Machine.limit, hb]
  omega

end BlockMachine.Machine
