import BlockMachine.Proofs.Machine.Loops
import BlockMachine.Proofs.Machine.Observers
import BlockMachine.Proofs.Machine.Relocation
import BlockMachine.Proofs.Machine.Timing

/-!
# The limit of a sample

An operator on functions runs its samples with half of the limit of the run, less all of the steps
that have been taken. This is half of the steps that are left only at the very start, or when none
are left for a sample in either reckoning; a function that takes a number of steps in between cannot
be sampled, though half of the steps that are left would do.

* `Finishes` — a run that finishes the main program with a given step; `run_of_finishes`;
* `Measures` — a function that takes so many steps for a number, and leaves one number;
  `sampleFraction_of_measures` — when it can be sampled;
* `evaluate_calculus` — an operator on functions, on its operands;
* `SamplesLimited` — what this means for the operators in a run, `samples_limited` — it holds at each
  step of each run.
-/

namespace BlockMachine.Machine

/-! ## Runs that finish -/

section Finishing

variable {env : Environment} {m x y : Machine} {j k : Nat}

/-- The `j`th step of a run finishes the main program, and leaves the machine `y`. -/
def Finishes (env : Environment) (m : Machine) (j : Nat) (y : Machine) : Prop :=
  ∃ k s, j = k + 1 ∧ Steps (splicing env (run env)) env m.started k s ∧
    s.step (splicing env (run env)) env = (.finished, y)

/-- A run whose limit allows for the steps ends with the values that they leave. -/
theorem run_of_finishes (h : Finishes env m j y) (hj : j ≤ m.maxSteps) :
    m.run env = (y.result, y) := by
  obtain ⟨k, s, rfl, hs, hfin⟩ := h
  have hlimit : k + (m.maxSteps - k - 1 + 1) = m.maxSteps := by omega
  rw [run_eq, ← hlimit, hs.runSteps, runSteps, hfin]

/-- Any other run ends with an error. -/
theorem finishes_or_limited (env : Environment) (m : Machine) :
    (∃ j y, j ≤ m.maxSteps ∧ Finishes env m j y ∧ m.run env = (y.result, y)) ∨
      (m.run env).1 = [stepLimitExceeded env.localizer] := by
  obtain ⟨k, s, hs, hend⟩ := runSteps_cases (splicing env (run env)) env m.maxSteps m.started
  rw [← run_eq] at hend
  rcases hend with ⟨hk, y, hfin, hrun⟩ | ⟨-, hrun⟩
  · exact .inl ⟨k + 1, y, hk, ⟨k, s, rfl, hs, hfin⟩, hrun⟩
  · exact .inr (congrArg Prod.fst hrun)

/-- A way to the end that is longer than the limit ends a run with an error. -/
theorem DirectRun.runSteps_short (h : DirectRun env counted k m x) {left : Nat} (hk : left ≤ k) :
    (m.runSteps (splicing env (run env)) env left).1 = [stepLimitExceeded env.localizer] := by
  induction h generalizing left with
  | last _ _ =>
    obtain rfl : left = 0 := by omega
    rfl
  | more _ hm _ ih =>
    rw [advance] at hm
    cases left with
    | zero => rfl
    | succ left =>
      rw [Machine.runSteps, hm]
      exact ih (by omega)

end Finishing

/-! ## Samples -/

section Samples

variable {env : Environment} {m n : Machine} {loc : Loc} {t r : Fraction} {w w' : World} {j : Nat}

/-- The machine on which a machine samples the stack at a location. -/
def sampler (env : Environment) (limit : Nat) (n : Machine) (loc : Loc) (t : Fraction) (w : World) :
    Machine :=
  trial env limit n.workspace n.active.bindings [.ofFraction t] (n.heap.get loc) w

theorem sampler_maxSteps (env : Environment) (limit : Nat) (n : Machine) (loc : Loc) (t : Fraction)
    (w : World) : (sampler env limit n loc t w).maxSteps = limit :=
  trial_maxSteps ..

/-- Samplers with different limits differ in nothing else. -/
theorem retimed_sampler (env : Environment) (limit limit' : Nat) (n : Machine) (loc : Loc)
    (t : Fraction) (w : World) :
    Retimed (sampler env limit n loc t w) (sampler env limit' n loc t w) := by
  have hR := retimed_inStep env
  have hmake : Retimed (make limit n.workspace w) (make limit' n.workspace w) := rfl
  exact hR.insert (hR.assignEach true _ (hR.pushAll _ hmake)) _

theorem sampleFraction_probe (env : Environment) (n : Machine) (loc : Loc) (message : Message)
    (t : Fraction) (w : World) :
    (n.probe (run env) env loc message).sampleFraction t w =
      (reading (message.block env.localizer) ((sampler env n.nestedBudget n loc t w).run env).1,
        ((sampler env n.nestedBudget n loc t w).run env).2.world) :=
  sampleFraction_eq _ _ _

theorem reading_eq_ok_iff {complaint : Block} {bs : List Block} :
    reading complaint bs = .ok r ↔ ∃ b, bs = [b] ∧ b.fraction? = some r := by
  match bs with
  | [] | _ :: _ :: _ => simp [reading]
  | [b] =>
    simp only [reading, List.cons.injEq, and_true, exists_eq_left']
    cases b.fraction? with
    | none => simp
    | some s => simp

/-- A sample gives a number if and only if its run finishes within the limit, with that number
alone. -/
theorem sampleFraction_ok_iff (env : Environment) (n : Machine) (loc : Loc) (message : Message)
    (t : Fraction) (w : World) (r : Fraction) :
    ((n.probe (run env) env loc message).sampleFraction t w).1 = .ok r ↔
      ∃ j y b, j ≤ n.nestedBudget ∧ Finishes env (sampler env n.nestedBudget n loc t w) j y ∧
        y.result = [b] ∧ b.fraction? = some r := by
  rw [sampleFraction_probe, reading_eq_ok_iff]
  constructor
  · rintro ⟨b, hresult, hb⟩
    rcases finishes_or_limited env (sampler env n.nestedBudget n loc t w) with
      ⟨j, y, hj, hfin, hrun⟩ | hlimit
    · rw [sampler_maxSteps] at hj
      rw [hrun] at hresult
      exact ⟨j, y, b, hj, hfin, hresult, hb⟩
    · -- the error that ends a run at its limit is no number
      rw [hlimit] at hresult
      obtain ⟨rfl, -⟩ := List.cons.inj hresult
      cases hb
  · rintro ⟨j, y, b, hj, hfin, hresult, hb⟩
    rw [run_of_finishes hfin (by rwa [sampler_maxSteps])]
    exact ⟨b, hresult, hb⟩

/-- On a fresh machine with room for it, the function takes `j` steps for a number, asks for no
nested machine, and leaves one number, and the world `w'`. -/
def Measures (env : Environment) (n : Machine) (loc : Loc) (t : Fraction) (w : World) (j : Nat)
    (r : Fraction) (w' : World) : Prop :=
  ∃ limit k y b, j = k + 1 ∧ RunsDirectly env (sampler env limit n loc t w) k y ∧ y.result = [b] ∧
    b.fraction? = some r ∧ y.world = w'

/-- It can be sampled if and only if the limit allows for its steps. -/
theorem sampleFraction_of_measures (h : Measures env n loc t w j r w') (message : Message) :
    (j ≤ n.nestedBudget →
      (n.probe (run env) env loc message).sampleFraction t w = (.ok r, w')) ∧
    (n.nestedBudget < j → ∃ u,
      (n.probe (run env) env loc message).sampleFraction t w =
        (.error (message.block env.localizer), u)) := by
  obtain ⟨limit, k, y, b, rfl, hruns, hresult, hb, rfl⟩ := h
  have hstarted : Retimed (sampler env limit n loc t w).started
      (sampler env n.nestedBudget n loc t w).started :=
    retimed_sampler env limit n.nestedBudget n loc t w
  have hcounted : ∀ {m n : Machine}, Retimed m n → Retimed m.counted n.counted := fun h => h
  obtain ⟨z, hz, hyz⟩ := Retimed.directRun hruns.way hcounted hstarted
  rw [sampleFraction_probe]
  constructor
  · intro hk
    have hrun : (sampler env n.nestedBudget n loc t w).run env = (z.result, z) :=
      RunsDirectly.run ⟨by rw [sampler_maxSteps]; omega, hz⟩
    have hvalues : z.result = y.result := (hyz.congr Machine.result).symm
    have hworld : z.world = y.world := (hyz.congr Machine.world).symm
    rw [hrun, hvalues, hworld, reading_eq_ok_iff.2 ⟨b, hresult, hb⟩]
  · intro hk
    have hrun : ((sampler env n.nestedBudget n loc t w).run env).1 =
        [stepLimitExceeded env.localizer] := by
      rw [run_eq, sampler_maxSteps]
      exact hz.runSteps_short (by omega)
    rw [hrun]
    exact ⟨_, rfl⟩

end Samples

/-! ## Operators in a run -/

/-- A derivative takes two samples, one after the other. -/
theorem derivative_eq (p : Probe) (a : Float) (w : World) :
    Calculus.derivative p a w =
      match p.sampleFraction (Fraction.ofFloat (a - Calculus.twoTo (-12))) w with
      | (.error b, w) => (.error b, w)
      | (.ok r, w) =>
        match p.sampleFraction (Fraction.ofFloat (a + Calculus.twoTo (-12))) w with
        | (.error b, w) => (.error b, w)
        | (.ok s, w) => (.ok (.ofFloat ((s.value - r.value) / (2 * Calculus.twoTo (-12)))), w) := by
  change Sampling.bind (Sampling.bind _ _) _ w = _
  simp only [Sampling.bind]
  rcases p.sampleFraction (Fraction.ofFloat (a - Calculus.twoTo (-12))) w with ⟨b | r, w⟩
  · rfl
  · change Sampling.bind (Sampling.bind _ _) _ w = _
    simp only [Sampling.bind]
    rcases p.sampleFraction (Fraction.ofFloat (a + Calculus.twoTo (-12))) w with ⟨b | s, w⟩
    · rfl
    · rfl

/-- It is a number if both can be taken, else an error. -/
theorem derivative_of_measures {env : Environment} {n : Machine} {f t : Block} {loc : Loc}
    {a : Float} (hf : n.dataLoc? f = some loc) (ht : t.float? = some a) {i j : Nat}
    {r s : Fraction} {w w' : World}
    (hr : Measures env n loc (Fraction.ofFloat (a - Calculus.twoTo (-12))) n.world i r w)
    (hs : Measures env n loc (Fraction.ofFloat (a + Calculus.twoTo (-12))) w j s w') :
    (n.derivative (run env) env f t).1 = some
      (if i ≤ n.nestedBudget ∧ j ≤ n.nestedBudget then
        .ofFloat ((s.value - r.value) / (2 * Calculus.twoTo (-12)))
      else differentiateMessage.block env.localizer) := by
  obtain ⟨hrok, hrfail⟩ := sampleFraction_of_measures hr differentiateMessage
  obtain ⟨hsok, hsfail⟩ := sampleFraction_of_measures hs differentiateMessage
  simp only [derivative, hf, ht]
  rw [sampling_fst, derivative_eq]
  by_cases hi : i ≤ n.nestedBudget
  · by_cases hj : j ≤ n.nestedBudget
    · simp only [hrok hi, hsok hj, if_pos (And.intro hi hj)]
    · obtain ⟨u, hu⟩ := hsfail (Nat.lt_of_not_le hj)
      simp only [hrok hi, hu, if_neg fun h : i ≤ n.nestedBudget ∧ _ => hj h.2]
  · obtain ⟨u, hu⟩ := hrfail (Nat.lt_of_not_le hi)
    simp only [hu, if_neg fun h : _ ∧ j ≤ n.nestedBudget => hi h.1]

/-- An operator on functions takes its operands, which leaves alone what samples are made of, and
adds its result to the values below them; the stacks and the memory are as its samples leave them. -/
theorem evaluate_calculus {m : Machine} (op : Operator) {tags : List Tag}
    (operands : List Block) {vals : List Block} (hop : op.isCalculus = true)
    (hsig : op.info.signature = .fixed tags) (hfit : fits tags operands = true)
    (hv : m.values = operands.reverse ++ vals) (d : Discipline) (env : Environment) :
    ∃ n, Moved m vals m.active.program n ∧ Paced m n ∧
      (m.evaluate d env (.operator op)).values =
        (n.operate d env (.operator op) op 0 operands).1.toList ++ vals ∧
      (m.evaluate d env (.operator op)).world.store =
        (n.operate d env (.operator op) op 0 operands).2.world.store ∧
      (m.evaluate d env (.operator op)).world.memory =
        (n.operate d env (.operator op) op 0 operands).2.world.memory := by
  obtain ⟨n, hn, hmoved⟩ := popOperands_eq (.operator op) operands.reverse hv
  have hlen : tags.length = operands.length := (fits_iff.1 hfit).length_eq
  rw [List.length_reverse, List.reverse_reverse, ← hlen] at hn
  have htake : m.takeFor env (.operator op) op = (some (operands, 0), n) := by
    simp only [takeFor, hsig, takeOperands, hn, hfit, if_true, Option.map_some]
  have hself : Paced m m := ⟨rfl, rfl, rfl, rfl⟩
  have hpace := (paced_lasting env m).toKept
  obtain ⟨taken, n', _, hm, -, rfl, hpaced, -⟩ :=
    ((eq_congruent.and_kept hpace hpace).takeFor ⟨rfl, hself, hself⟩ env (.operator op) op).elim
  obtain ⟨-, rfl⟩ := Prod.mk.inj (htake.symm.trans hm)
  refine ⟨n, hmoved, hpaced, ?_⟩
  obtain ⟨w, hw⟩ := operate_calculus hop d env (.operator op) 0 operands n
  simp only [evaluate, evaluateOperator, htake]
  rcases hresult : n.operate d env (.operator op) op 0 operands with ⟨_ | b, n'⟩
  · rw [hresult] at hw
    rw [show n' = _ from hw]
    exact ⟨hmoved.values, rfl, rfl⟩
  · rw [hresult] at hw
    rw [show n' = _ from hw]
    have hpush := moved_push b { n with world := w }
    exact ⟨hpush.values.trans (congrArg (b :: ·) hmoved.values), hpush.same.store.symm,
      hpush.same.memory.symm⟩

/-- The operators on functions that are evaluated at `x`, in the step behind the first `k` ones of a
run with the limit `M`. -/
structure SamplesLimited (env : Environment) (M k : Nat) (x : Machine) : Prop where
  /-- The machines that they may run have half of the limit less the steps taken, -/
  limit : ∀ n, Spawns env x .sample n → n.maxSteps = M / 2 - (k + 1)
  /-- which is half of the steps left in the first step of a run with an even limit, or when neither
  leaves a step for a sample. -/
  half : M / 2 - (k + 1) = (M - (k + 1)) / 2 ↔ k = 0 ∧ M % 2 = 0 ∨ M ≤ k + 2
  /-- So a sample gives a number if and only if it finishes within so many steps, with that number
  alone; -/
  outcome : ∀ n, Paced x n → ∀ loc message t w r,
    ((n.probe (run env) env loc message).sampleFraction t w).1 = .ok r ↔
      ∃ j y b, j ≤ M / 2 - (k + 1) ∧ Finishes env (sampler env (M / 2 - (k + 1)) n loc t w) j y ∧
        y.result = [b] ∧ b.fraction? = some r
  /-- and a function that asks for no nested machine can be sampled if and only if it takes no more
  steps. -/
  sample : ∀ n, Paced x n → ∀ loc t w j r w', Measures env n loc t w j r w' → ∀ message,
    (j ≤ M / 2 - (k + 1) →
      (n.probe (run env) env loc message).sampleFraction t w = (.ok r, w')) ∧
    (M / 2 - (k + 1) < j → ∃ u,
      (n.probe (run env) env loc message).sampleFraction t w =
        (.error (message.block env.localizer), u))
  /-- A derivative is evaluated on such a machine, -/
  taken : ∀ f t vals, f.isA .data = true → t.isA .number = true → x.values = t :: f :: vals →
    ∃ n, Moved x vals x.active.program n ∧ Paced x n ∧
      (x.evaluate (splicing env (run env)) env (.operator .derivative)).values =
        (n.derivative (run env) env f t).1.toList ++ vals
  /-- and it is a difference quotient if both samples take no more steps, else an error. -/
  derivative : ∀ n, Paced x n → ∀ f t loc a, n.dataLoc? f = some loc → t.float? = some a →
    ∀ i j r s w w',
      Measures env n loc (Fraction.ofFloat (a - Calculus.twoTo (-12))) n.world i r w →
      Measures env n loc (Fraction.ofFloat (a + Calculus.twoTo (-12))) w j s w' →
      (n.derivative (run env) env f t).1 = some
        (if i ≤ M / 2 - (k + 1) ∧ j ≤ M / 2 - (k + 1) then
          .ofFloat ((s.value - r.value) / (2 * Calculus.twoTo (-12)))
        else differentiateMessage.block env.localizer)

/-- The steps for samples at each step of a run. -/
theorem Steps.nestedBudget {env : Environment} {m x : Machine} {k : Nat}
    (hx : Steps (splicing env (run env)) env m.started k x) {n : Machine} (hn : Paced x n) :
    n.nestedBudget = m.maxSteps / 2 - (k + 1) := by
  obtain ⟨hbudget, hsteps⟩ := hx.pace
  rw [hn.nestedBudget, Machine.nestedBudget, Machine.limit, hbudget, hsteps, Option.getD_some]

/-- **The limit of samples.** At each step of each run, samples get half of the limit of the run less
the steps taken, not half of the steps left; a function that takes more cannot be sampled. -/
theorem samples_limited (env : Environment) (m : Machine) {k : Nat} {x : Machine}
    (hx : Steps (splicing env (run env)) env m.started k x) :
    SamplesLimited env m.maxSteps k x where
  limit n hn := by
    cases hn with
    | sample bindings values s w _ _ => rw [trial_maxSteps, hx.nestedBudget ⟨rfl, rfl, rfl, rfl⟩]
  half := by omega
  outcome n hn loc message t w r := by
    rw [← hx.nestedBudget hn]
    exact sampleFraction_ok_iff env n loc message t w r
  sample n hn loc t w j r w' h message := by
    rw [← hx.nestedBudget hn]
    exact sampleFraction_of_measures h message
  taken f t vals hf ht hv := by
    obtain ⟨n, hmoved, hpaced, hvalues, -⟩ := evaluate_calculus .derivative [f, t] rfl rfl
      (fits_iff.2 (.cons hf (.cons ht .nil))) hv (splicing env (run env)) env
    exact ⟨n, hmoved, hpaced, hvalues⟩
  derivative n hn f t loc a hf ht i j r s w w' hr hs := by
    rw [← hx.nestedBudget hn]
    exact derivative_of_measures hf ht hr hs

/-- Stacks that call one another; the last one is empty. -/
def relay : Store :=
  ⟨⟨#[Stack.make "f" [.code "f" (some 1)], Stack.make "f" [.code "f" (some 2)],
    Stack.make "f" [.code "f" (some 3)], Stack.make "f" []]⟩, Dice.ofSeed 0⟩

/-- A machine with these stacks and a limit, so many steps into its run. -/
def relayed (limit steps : Nat) (values : List Block) (program : List Block) (log : List Event) :
    Machine :=
  { make limit ⟨[0], 0⟩ ⟨relay, [], log⟩ with
    steps := steps
    budget := some limit
    values := values
    active := ⟨program.map .block, [], "f"⟩ }

/-- The first of the stacks gives back its number after three steps. -/
theorem measures_relayed (t : Fraction) (log : List Event) (program : List Block) :
    Measures .standard (relayed 10 3 [] program []) 0 t ⟨relay, [], log⟩ 3 t ⟨relay, [], log⟩ := by
  refine ⟨3, 2, relayed 3 3 [.ofFraction t] [] log, .ofFraction t, rfl, ⟨?_, ?_⟩, rfl, rfl, rfl⟩
  · rw [sampler_maxSteps]
    decide
  · have hstart : (sampler .standard 3 (relayed 10 3 [] program []) 0 t ⟨relay, [], log⟩).started =
        relayed 3 1 [.ofFraction t] [.code "f" (some 1)] log := rfl
    rw [hstart]
    have hfirst : (relayed 3 1 [.ofFraction t] [.code "f" (some 1)] log).advance .standard =
        (.pending, relayed 3 1 [.ofFraction t] [.code "f" (some 2)] log) := rfl
    have hsecond : (relayed 3 2 [.ofFraction t] [.code "f" (some 2)] log).advance .standard =
        (.pending, relayed 3 2 [.ofFraction t] [.code "f" (some 3)] log) := rfl
    have hthird : (relayed 3 3 [.ofFraction t] [.code "f" (some 3)] log).advance .standard =
        (.finished, relayed 3 3 [.ofFraction t] [] log) := rfl
    exact .more rfl hfirst (.more rfl hsecond (.last rfl hthird))

/-- In the third step of a run with a limit of ten, half of the steps left would do for a function
that takes three, but samples get two. -/
theorem samples_limited_relayed :
    Steps (splicing .standard (run .standard)) .standard
        (relayed 10 0 [] [.data 0 true, .ofFloat 3, .operator .derivative] []).started 2
        (relayed 10 3 [.ofFloat 3, .data 0 true] [.operator .derivative] []) ∧
      3 ≤ (10 - (2 + 1)) / 2 ∧
      ((relayed 10 3 [] [.operator .derivative] []).derivative (run .standard) .standard
        (.data 0 true) (.ofFloat 3)).1 = some (differentiateMessage.block Localizer.plain) := by
  have hx : Steps (splicing .standard (run .standard)) .standard
      (relayed 10 0 [] [.data 0 true, .ofFloat 3, .operator .derivative] []).started 2
      (relayed 10 3 [.ofFloat 3, .data 0 true] [.operator .derivative] []) := by
    have hfirst : (relayed 10 1 [] [.data 0 true, .ofFloat 3, .operator .derivative] []).step
        (splicing .standard (run .standard)) .standard =
          (.pending, relayed 10 1 [.data 0 true] [.ofFloat 3, .operator .derivative] []) := rfl
    have hsecond : (relayed 10 2 [.data 0 true] [.ofFloat 3, .operator .derivative] []).step
        (splicing .standard (run .standard)) .standard =
          (.pending, relayed 10 2 [.ofFloat 3, .data 0 true] [.operator .derivative] []) := rfl
    exact .more (.more .start hfirst) hsecond
  refine ⟨hx, by decide, ?_⟩
  have hlimited := (samples_limited .standard _ hx).derivative
    (relayed 10 3 [] [.operator .derivative] []) ⟨rfl, rfl, rfl, rfl⟩ (.data 0 true) (.ofFloat 3) 0
    (3 / 1) rfl (Block.float?_ofFloat 3) 3 3 _ _ _ _ (measures_relayed _ _ _)
    (measures_relayed _ _ _)
  rw [hlimited]
  exact congrArg some (if_neg (by decide))

end BlockMachine.Machine
