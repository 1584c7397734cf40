import BlockMachine.Proofs.Machine.Budgets
import BlockMachine.Proofs.Machine.History
import BlockMachine.Proofs.Machine.Relocation
import BlockMachine.Proofs.Machine.Timing

/-!
# One machine for many samples

The operators on functions take each sample on a machine of its own. They may as well keep one
machine, clear it before each sample, and hand it values, variables, the function and the limit: a
machine on which samples have been run, and nothing else, is as a new one once it is cleared.

* `retrial` — a used machine that is made ready for the next sample;
* `Bench ws` — a machine that is there for samples over a workspace; `Bench.run` — it stays one;
* `Bench.retrial_eq` — it is made ready as a new machine in its world is made, `Bench.approach_eq` —
  so both sides of a limit may be run on one;
* `Reusing`, `Probe.resample` — computations and samples on one machine;
* `Reuses` — a computation with its samples taken on one machine, `Reuses.agrees` — it gives the
  same and leaves the same world;
* `calculus_reusable` — all operators on functions can be carried out that way.
-/

namespace BlockMachine

namespace Machine

variable {env : Environment} {ws : Workspace} {m n : Machine}

/-! ## Machines for samples -/

/-- A used machine is cleared and gets values, variables, a stack to run and, at last, a limit. -/
def retrial (env : Environment) (limit : Nat) (bindings : Keyed Binding) (values : List Block)
    (s : Stack) (m : Machine) : Machine :=
  (((m.reset.pushAll values).assignEach true bindings).insert env s).withLimit limit

/-- A machine for samples over a workspace: nobody observes it, and its dice are rolled at random. -/
structure Bench (ws : Workspace) (m : Machine) : Prop where
  workspace : m.workspace = ws
  randModes : m.randModes = []
  view : m.view = .none

theorem Bench.make (limit : Nat) (ws : Workspace) (w : World) : Bench ws (make limit ws w) :=
  ⟨rfl, rfl, rfl⟩

/-- A machine for samples gets another one beside it. -/
theorem Bench.nested (h : Bench ws m) (limit : Nat) : Bench ws (m.nested limit) :=
  ⟨h.workspace, rfl, rfl⟩

theorem Bench.withWorld (h : Bench ws m) (w : World) : Bench ws { m with world := w } :=
  ⟨h.workspace, h.randModes, h.view⟩

theorem bench_lasting (env : Environment) (ws : Workspace) : Lasting env (Bench ws) :=
  lasting_of_settings env fun h hworkspace _ hmodes hview =>
    ⟨hworkspace.trans h.workspace, hmodes.trans h.randModes, by
      rcases hview with hview | hview | hview
      all_goals
        rw [hview, h.view]
        try rfl⟩

/-- A run leaves nothing behind but values, frames and the world. -/
theorem Bench.run (h : Bench ws m) (env : Environment) : Bench ws (Machine.run env m).2 :=
  (bench_lasting env ws).run (fun _ h => ⟨h.workspace, h.randModes, h.view⟩)
    (fun _ _ h => ⟨h.workspace, h.randModes, h.view⟩) h

/-- A cleared machine is a new one in its world. -/
theorem Bench.reset_eq (h : Bench ws m) : m.reset = Machine.make m.maxSteps ws m.world := by
  rw [reset, h.workspace, h.randModes, h.view]
  rfl

/-- Machines that agree on their limits as well do not differ. -/
theorem Retimed.eq_of_paced (h : Retimed m n) (hp : Paced m n) : n = m := by
  have hrest : n.untimed = m.untimed := Eq.symm h
  obtain ⟨hmaxSteps, hbudget, hsteps, -⟩ := hp
  calc n = { n.untimed with maxSteps := n.maxSteps, steps := n.steps, budget := n.budget } := rfl
    _ = { m.untimed with maxSteps := m.maxSteps, steps := m.steps, budget := m.budget } := by
      rw [hrest, hmaxSteps, hbudget, hsteps]

/-- **Made ready anew.** A machine for samples is made ready for the next one as a new machine in its
world is, whatever it was used for before. -/
theorem Bench.retrial_eq (h : Bench ws m) (env : Environment) (limit : Nat)
    (bindings : Keyed Binding) (values : List Block) (s : Stack) :
    m.retrial env limit bindings values s = trial env limit ws bindings values s m.world := by
  have hR := retimed_inStep env
  have hmake : Retimed (Machine.make limit ws m.world) (Machine.make m.maxSteps ws m.world) := rfl
  -- the limit comes last, and nothing that is done before asks for it
  have hrest : Retimed (trial env limit ws bindings values s m.world)
      (m.retrial env limit bindings values s) := by
    rw [retrial, h.reset_eq]
    exact hR.insert (hR.assignEach true _ (hR.pushAll _ hmake)) _
  have hpaced : ∀ k, Paced (Machine.make k ws m.world)
      (trial env k ws bindings values s m.world) := fun k =>
    (paced_lasting env (Machine.make k ws m.world)).trial ⟨rfl, rfl, rfl, rfl⟩ bindings values s
  have hfresh := hpaced limit
  have hused := hpaced m.maxSteps
  refine hrest.eq_of_paced ⟨hfresh.maxSteps.symm, ?_, ?_, ?_⟩
  all_goals rw [retrial, h.reset_eq]
  · exact hused.budget.trans hfresh.budget.symm
  · exact hused.steps.trans hfresh.steps.symm
  · exact hused.workspace.trans hfresh.workspace.symm

theorem Bench.retrial (h : Bench ws m) (env : Environment) (limit : Nat) (bindings : Keyed Binding)
    (values : List Block) (s : Stack) : Bench ws (m.retrial env limit bindings values s) := by
  rw [h.retrial_eq]
  exact (bench_lasting env ws).trial (.make ..) _ _ _

/-- A limit from both sides may run the program of a side on a machine for samples, and then it has
the machine for the other side. -/
theorem Bench.approach_eq (h : Bench m.workspace n) (hworld : n.world = m.world) {name : String}
    {op : Operator} {f x : Block} {bs : List Block} {n' : Machine}
    (hrun : Machine.run env (n.retrial env m.nestedBudget m.active.bindings []
      (Stack.make name [f, x, .operator op])) = (bs, n')) :
    m.approach (Machine.run env) env name op f x = (bs.head?, { m with world := n'.world }) ∧
      Bench m.workspace n' := by
  have hafter := (h.retrial env m.nestedBudget m.active.bindings []
    (Stack.make name [f, x, .operator op])).run env
  rw [hrun] at hafter
  rw [h.retrial_eq, hworld] at hrun
  rw [Machine.approach_eq, hrun]
  exact ⟨rfl, hafter⟩

end Machine

/-! ## Samples on one machine -/

/-- A computation on a machine that may end early with a block. -/
abbrev Reusing (α : Type) := Machine → Except Block α × Machine

/-- One computation after the other, on the same machine. -/
def Reusing.bind {α β : Type} (y : Reusing α) (g : α → Reusing β) : Reusing β :=
  fun m =>
    match y m with
    | (.ok a, m) => g a m
    | (.error b, m) => (.error b, m)

/-- A computation on a new machine beside the given one, which gets the world back. -/
def Reusing.anew {α : Type} (y : Reusing α) : Reusing α :=
  fun m =>
    let (a, n) := y (m.nested m.maxSteps)
    (a, { m with world := n.world })

/-- The value of the function at `t`, on a machine that has been used. -/
def Probe.resample (p : Probe) (t : Fraction) : Reusing Fraction := fun m =>
  let (values, m) := p.run (m.retrial p.env p.budget p.bindings [.ofFraction t] p.function)
  (Machine.reading (p.message.block p.env.localizer) values, m)

open Machine (Bench)

variable {ws : Workspace} {α : Type}

/-- On a machine for samples, a sample gives what it gives on a new machine in the same world, and
leaves the same world. -/
theorem Probe.resample_agrees {p : Probe} {m : Machine} (hrun : p.run = Machine.run p.env)
    (h : Bench p.workspace m) (t : Fraction) :
    ((p.resample t m).1, (p.resample t m).2.world) = p.sampleFraction t m.world ∧
      Bench p.workspace (p.resample t m).2 := by
  refine ⟨?_, ?_⟩
  · rw [resample, h.retrial_eq, Machine.sampleFraction_eq]
  · rw [resample, hrun]
    exact (h.retrial ..).run p.env

/-- The second computation is the first one with its samples taken on one machine; for a part of it,
it may take up another machine. -/
inductive Reuses (ws : Workspace) : {α : Type} → Sampling α → Reusing α → Prop where
  | pure {α : Type} (a : α) : Reuses ws (Sampling.pure a) fun m => (.ok a, m)
  | fail {α : Type} (b : Block) : Reuses ws (Sampling.fail (α := α) b) fun m => (.error b, m)
  | sample {p : Probe} (t : Fraction) : p.workspace = ws → p.run = Machine.run p.env →
    Reuses ws (p.sampleFraction t) (p.resample t)
  | bind {α β : Type} {x : Sampling α} {y : Reusing α} {f : α → Sampling β} {g : α → Reusing β} :
    Reuses ws x y → (∀ a, Reuses ws (f a) (g a)) →
    Reuses ws (x >>= f) (y.bind g)
  | anew {α : Type} {x : Sampling α} {y : Reusing α} : Reuses ws x y → Reuses ws x y.anew

/-- **One machine will do.** On a machine for samples, a computation that keeps to it gives what the
computation gives that takes a new machine for each sample, and leaves the same world. -/
theorem Reuses.agrees {x : Sampling α} {y : Reusing α} (h : Reuses ws x y) :
    ∀ {m : Machine}, Bench ws m →
      ((y m).1, (y m).2.world) = x m.world ∧ Bench ws (y m).2 := by
  induction h with
  | pure a => exact fun hm => ⟨rfl, hm⟩
  | fail b => exact fun hm => ⟨rfl, hm⟩
  | sample t hws hrun =>
    subst hws
    exact fun hm => Probe.resample_agrees hrun hm t
  | @bind α β x y f g _ _ ihx ihf =>
    intro m hm
    obtain ⟨hx, hafter⟩ := ihx hm
    change ((y.bind g m).1, (y.bind g m).2.world) = Sampling.bind x f m.world ∧
      Bench ws (y.bind g m).2
    rw [Reusing.bind, Sampling.bind, ← hx]
    rcases hy : y m with ⟨b | a, n⟩
    all_goals rw [hy] at hafter
    · -- a failure ends both
      exact ⟨rfl, hafter⟩
    · exact ihf a hafter
  | anew _ ih =>
    -- of the other machine only the world comes back
    intro m hm
    obtain ⟨hx, -⟩ := ih (hm.nested m.maxSteps)
    exact ⟨hx, hm.withWorld _⟩

/-- A computation can be carried out on one machine. -/
def Reusable (ws : Workspace) (x : Sampling α) : Prop :=
  ∃ y, Reuses ws x y

theorem reusable_congruence (ws : Workspace) :
    Sampling.Congruence (fun _ x x' => x = x' ∧ Reusable ws x)
      (fun x x' => x = x' ∧ Reusable ws x) where
  pure a := ⟨rfl, _, .pure a⟩
  fail x := ⟨rfl, _, .fail _⟩
  bind {α β x x' f f'} h hf := by
    obtain ⟨rfl, y, hy⟩ := h
    obtain rfl : f = f' := funext fun a => (hf a).1
    choose g hg using fun a => (hf a).2
    exact ⟨rfl, _, hy.bind hg⟩
  answer r := ⟨rfl, _, .pure _⟩
  conclude {α x x' f f'} h hf := by
    obtain ⟨rfl, y, hy⟩ := h
    obtain rfl : f = f' := funext fun a => (hf a).1
    choose g hg using fun a => (hf a).2
    exact ⟨rfl, _, hy.bind hg⟩

/-- **Every operator on functions can keep to one machine.** -/
theorem calculus_reusable (p : Probe) (hrun : p.run = Machine.run p.env) :
    (∀ a b, Reusable p.workspace (Calculus.integral p a b)) ∧
      (∀ t, Reusable p.workspace (Calculus.derivative p t)) ∧
      (∀ a b op start, Reusable p.workspace (Calculus.series p a b op start)) ∧
      ∀ message side x, Reusable p.workspace (Calculus.oneSidedLimit p message side x) := by
  have hS := reusable_congruence p.workspace
  have hp : ∀ t, p.sampleFraction t = p.sampleFraction t ∧
      Reusable p.workspace (p.sampleFraction t) := fun t => ⟨rfl, _, .sample t rfl hrun⟩
  have hd : ∀ message t, (p.detached message).sampleFraction t =
      (p.detached message).sampleFraction t ∧
        Reusable p.workspace ((p.detached message).sampleFraction t) :=
    fun message t => ⟨rfl, _, .sample t rfl hrun⟩
  exact ⟨fun a b => (hS.integral hp a b).2, fun t => (hS.derivative hp t).2,
    fun a b op start => (hS.series hp a b op start).2,
    fun message side x => (hS.oneSidedLimit hp message (hd message) side x).2⟩

end BlockMachine
