import BlockMachine.Proofs.Machine.Budgets

/-!
# What sampled functions see

A calculus operator runs its function on nested machines of one frame, into which it has copied the
variables of the caller's *active* frame. The caller itself sees the variables of all its frames, so
what the function sees is what the caller sees only if the active frame shows all of it.

* `SampleStart` — the machines on which an operator starts its function; `ExpansionStart` — those
  without any variables, for the expansion beside a place;
* `evaluateOperator_congr` — an operator runs no other machines;
* `fetch_sampleStart` — a sampled function sees the variables of the caller's active frame, apart
  from its own parameters;
* `sampled_function_sees_iff` — when this is all that the caller sees.
-/

namespace BlockMachine

namespace Frame

/-- Binding parameters changes no other name. -/
theorem find?_bindEach {bound : List (String × Block)} {x : String} (h : ∀ p ∈ bound, p.1 ≠ x) :
    ∀ f : Frame, (bindEach bound f).bindings.find? x = f.bindings.find? x := by
  induction bound with
  | nil =>
    intro f
    rfl
  | cons p bound ih =>
    intro f
    obtain ⟨hp, hbound⟩ := List.forall_mem_cons.1 h
    have hmore := ih hbound (f.bind p.1 true p.2)
    rw [find?_bind_of_ne f true p.2 (Ne.symm hp)] at hmore
    exact hmore

end Frame

namespace Machine

/-! ## Loading -/

theorem popInputs_names (names : List String) :
    ∀ m : Machine, ∀ p ∈ (popInputs names m).1, p.1 ∈ names := by
  induction names with
  | nil =>
    intro m p hp
    cases hp
  | cons name names ih =>
    intro m p hp
    rw [popInputs] at hp
    rcases hm : m.pop none with ⟨_ | b, m'⟩
    · rw [hm] at hp
      exact List.mem_cons_of_mem name (ih m' p hp)
    · rw [hm] at hp
      rcases List.mem_cons.1 hp with rfl | hp
      · exact List.mem_cons_self
      · exact List.mem_cons_of_mem name (ih m' p hp)

/-- Loading a stack binds its parameters and no other name. -/
theorem find?_load (env : Environment) (s : Stack) (m : Machine) {x : String} (hx : x ∉ s.inputs) :
    (m.load env s).active.bindings.find? x = m.active.bindings.find? x := by
  rw [load]
  split
  · simp
  · have hactive := (popInputs_frames s.inputs.reverse m).1
    have hnames : ∀ p ∈ (popInputs s.inputs.reverse m).1, p.1 ≠ x := by
      rintro p hp rfl
      exact hx (List.mem_reverse.1 (popInputs_names _ m p hp))
    simp only [notify_rest]
    split
    · rw [hactive]
    · refine (Frame.find?_bindEach hnames _).trans ?_
      rw [hactive]

/-! ## The machines of an operator -/

section Samples

variable (env : Environment) (m : Machine)

/-- The machines on which a calculus operator starts a function: with a number for it to take, the
variables of the active frame, half of the steps, and some state of the shared world. -/
inductive SampleStart (s : Stack) : Machine → Prop where
  | at (t : Fraction) (w : World) :
    SampleStart s (trial env m.nestedBudget m.workspace m.active.bindings [.ofFraction t] s w)

/-- The machines on which a limit from one side starts a function beside the place in question. -/
inductive ExpansionStart (op : Operator) (s : Stack) : Machine → Prop where
  | at (t : Fraction) (w : World) : op = .positiveLimit ∨ op = .negativeLimit →
    ExpansionStart op s (trial env m.nestedBudget m.workspace [] [.ofFraction t] s w)

variable {env m}

/-- Runs of one machine are alike if they are equal. -/
theorem alike_tried {run run' : Runner} {start : World → Machine}
    (h : ∀ w, run (start w) = run' (start w)) :
    Sampling.Alike Eq (tried run start) (tried run' start) := by
  rintro w _ rfl
  rw [tried, tried, h w]
  exact ⟨rfl, rfl⟩

/-- **No other machines are run.** Runners that agree on these machines evaluate an operator on
functions alike, unless it is the limit from both sides. -/
theorem evaluateOperator_congr {op : Operator} (hop : op.isCalculus = true) (hlimit : op ≠ .limit)
    (insert : Inserter) {run run' : Runner}
    (h : ∀ s n, SampleStart env m s n ∨ ExpansionStart env m op s n → run n = run' n) :
    m.evaluateOperator ⟨insert, run⟩ env (.operator op) op
      = m.evaluateOperator ⟨insert, run'⟩ env (.operator op) op := by
  -- taking the operands leaves alone what the nested machines are made of
  have hself : Paced m m := ⟨rfl, rfl, rfl, rfl⟩
  have hframes := kept_frames m.active m.outer
  have hpace := (paced_lasting env m).toKept
  have hR := (eq_congruent.and_kept hframes hframes).and_kept hpace hpace
  obtain ⟨taken, m', _, hm, -, ⟨rfl, ⟨hactive, -⟩, -⟩, hpaced, -⟩ :=
    (hR.takeFor ⟨⟨rfl, ⟨rfl, rfl⟩, rfl, rfl⟩, hself, hself⟩ env (.operator op) op).elim
  simp only [evaluateOperator, hm]
  cases taken with
  | none => rfl
  | some taken =>
    obtain ⟨operands, overload⟩ := taken
    have halike := operate_alike_of_probes (W := Eq) (m := m') (n := m') hop ⟨insert, run⟩
      ⟨insert, run'⟩ env (.operator op) overload operands (fun _ => rfl) rfl ?_ ?_
      fun hlim => absurd hlim hlimit
    · obtain ⟨w, hw⟩ := operate_calculus hop ⟨insert, run⟩ env (.operator op) overload operands m'
      obtain ⟨w', hw'⟩ :=
        operate_calculus hop ⟨insert, run'⟩ env (.operator op) overload operands m'
      have hsame : m'.operate ⟨insert, run⟩ env (.operator op) op overload operands
          = m'.operate ⟨insert, run'⟩ env (.operator op) op overload operands := by
        obtain ⟨hfst, hworld⟩ := halike
        rw [hw, hw'] at hworld
        refine Prod.ext hfst ?_
        rw [hw, hw']
        exact congrArg (fun w => { m' with world := w }) hworld
      simp only [hsame]
    · intro loc message
      refine alike_probe (fun t => alike_tried fun w => ?_) message
      rw [hactive, hpaced.nestedBudget, hpaced.workspace]
      exact h _ _ (.inl (.at t w))
    · intro hside loc message message'
      refine alike_probe (fun t => alike_tried fun w => ?_) message'
      simp only [probe, hpaced.nestedBudget, hpaced.workspace]
      exact h _ _ (.inr (.at t w hside))

/-- **The scope of a sample.** Apart from its own parameters, a sampled function sees what the
caller's active frame shows by itself. -/
theorem fetch_sampleStart (hkeys : (m.active.bindings.map Prod.fst).Nodup) {s : Stack}
    {n : Machine} (hn : SampleStart env m s n) {x : String} (hx : x ∉ s.inputs) :
    n.fetch x = m.alone.fetch x := by
  obtain ⟨t, w⟩ := hn
  let start := (make m.nestedBudget m.workspace w).pushAll [.ofFraction t]
  let fresh := start.assignEach true m.active.bindings
  obtain ⟨g, hg, hprogram, hfetch⟩ := bindAll_singleton m.active.bindings hkeys Frame.empty
  have hstart : start.frames = [Frame.empty] := by simp [start, pushAll, frames, make]
  have hfresh : fresh.frames = [g] := by
    rw [assignEach_frames, hstart, hg]
  obtain ⟨hactive, houter⟩ := List.cons.inj hfresh
  have hfinished : fresh.active.isFinished = true := by
    rw [hactive, Frame.isFinished, hprogram]
    rfl
  have hload := find?_load env s fresh hx
  rw [hactive] at hload
  change Frame.fetch (fresh.insert env s).frames x = Frame.fetch [m.active] x
  rw [insert_of_finished hfinished, frames, (load_cases env s fresh).1, houter, Frame.fetch_cons,
    hload, ← Frame.fetch_cons, hfetch x, Frame.fetch_cons m.active]
  rfl

end Samples

/-- **Which of the caller's variables a sampled function sees.** An operator on functions, other
than the limit from both sides, runs no machines but those that `SampleStart` and `ExpansionStart`
list. When a function starts on one of the former sort, a name that is none of its parameters is
bound as in the caller's active frame alone; so the function sees all that the caller sees if and
only if the active frame shows it. -/
theorem sampled_function_sees_iff (env : Environment) (m : Machine)
    (hkeys : (m.active.bindings.map Prod.fst).Nodup) (op : Operator) (hop : op.isCalculus = true)
    (hlimit : op ≠ .limit) :
    (∀ (insert : Inserter) (run run' : Runner),
      (∀ s n, SampleStart env m s n ∨ ExpansionStart env m op s n → run n = run' n) →
      m.evaluate ⟨insert, run⟩ env (.operator op) = m.evaluate ⟨insert, run'⟩ env (.operator op)) ∧
    ∀ s n, SampleStart env m s n →
      (∀ x ∉ s.inputs, n.fetch x = m.alone.fetch x) ∧
      ((∀ x v, m.fetch x = some v → x ∉ s.inputs → n.fetch x = some v) ↔
        ∀ x v, m.fetch x = some v → x ∉ s.inputs → m.alone.fetch x = some v) := by
  refine ⟨fun insert run run' h => evaluateOperator_congr hop hlimit insert h, fun s n hn => ?_⟩
  have hscope : ∀ x ∉ s.inputs, n.fetch x = m.alone.fetch x :=
    fun x hx => fetch_sampleStart hkeys hn hx
  refine ⟨hscope, ?_, ?_⟩
  · intro h x v hv hx
    rw [← hscope x hx]
    exact h x v hv hx
  · intro h x v hv hx
    rw [hscope x hx]
    exact h x v hv hx

/-- From a child frame that binds nothing, a function that is summed up does not see what the parent
frame binds. -/
theorem sampled_function_sees_iff_nestedCaller :
    (nestedCaller.active.bindings.map Prod.fst).Nodup ∧ Operator.sum.isCalculus = true ∧
      nestedCaller.fetch "x" = some (.string "a") ∧
      ∀ n, SampleStart Environment.standard nestedCaller (Stack.make "f" []) n →
        n.fetch "x" = none := by
  have hkeys : (nestedCaller.active.bindings.map Prod.fst).Nodup := List.nodup_nil
  refine ⟨hkeys, rfl, rfl, fun n hn => ?_⟩
  have hsees :=
    sampled_function_sees_iff Environment.standard nestedCaller hkeys .sum rfl (by decide)
  exact (hsees.2 _ n hn).1 "x" List.not_mem_nil

end Machine

end BlockMachine
