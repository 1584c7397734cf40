import BlockMachine.Proofs.Machine.Observers

/-!
# Runs on stacks in other places

A machine takes no notice of where its stacks stand. If the stacks of one machine stand in other
places of a second one, both take the same steps and come to corresponding ends, as long as no dice
are rolled: then each of them has its own.

* `World.Relocated σ d d'`, `Machine.Relocated σ d d' watched` — the second world or machine is the
  first one with its stacks moved by `σ`, and their dice are still `d` and `d'`; the observers count
  alike if `watched`;
* `Environment.Uniform σ` — the modules take no notice of it either;
* `Shadowed` — two outcomes that correspond, unless the first machine has rolled;
* `relocated_inStep` — what machines do to themselves keeps it; `Shadows run` — and what a runner
  does;
* `operate_shadowed`, `callIsolated_tracked` — then nested machines keep it, `evaluate_tracked`,
  `step_shadowed` — and so do blocks and steps;
* `runAt_shadows` — so runs do, by induction on the nesting.
-/

namespace BlockMachine

/-- How many numbers were rolled. -/
def World.rolled (w : World) : Nat :=
  w.store.dice.rolled

/-- The modules take no notice of it when stacks are moved. -/
def Environment.Uniform (env : Environment) (σ : Loc → Loc) : Prop :=
  ∀ e ∈ env.grammar.modules, ∀ name values,
    e.afterFrame name (values.map (Block.relocate σ)) =
      (e.afterFrame name values).map (Block.relocate σ)

/-- The modules take no notice of places at all. -/
def Environment.Impartial (env : Environment) : Prop :=
  ∀ σ : Loc → Loc, Function.Injective σ → env.Uniform σ

theorem Environment.uniform_id (env : Environment) : env.Uniform id := by
  intro e _ name values
  simp

/-- Modules that leave the value stack alone take no notice of anything. -/
theorem Environment.Quiet.uniform {env : Environment} (hq : env.Quiet) (σ : Loc → Loc) :
    env.Uniform σ := by
  intro e he name values
  rw [hq e he, hq e he]

/-- The second world is the first one with its stacks moved, and in both no dice were rolled. -/
structure World.Relocated (σ : Loc → Loc) (d d' : Dice) (w w' : World) : Prop where
  heap : Heap.Relocates σ w.store.heap w'.store.heap
  memory : w'.memory = w.memory.relocate σ
  dice : w.store.dice = d
  dice' : w'.store.dice = d'

theorem World.Relocated.of_eq {σ : Loc → Loc} {d d' : Dice} {w w' u u' : World}
    (h : World.Relocated σ d d' w w') (hs : u.store = w.store) (hm : u.memory = w.memory)
    (hs' : u'.store = w'.store) (hm' : u'.memory = w'.memory) : World.Relocated σ d d' u u' := by
  obtain ⟨heap, memory, dice, dice'⟩ := h
  refine ⟨?_, ?_, ?_, ?_⟩
  · rwa [hs, hs']
  · rwa [hm, hm']
  · rwa [hs]
  · rwa [hs']

namespace Machine

/-! ## Dice -/

section Rolled

variable {env : Environment} {run : Runner} {k : Nat}

/-- At least so many numbers were rolled. -/
def Rolled (k : Nat) (m : Machine) : Prop :=
  k ≤ m.world.rolled

theorem Rolled.of_eq {m n : Machine} (h : Rolled k m)
    (hs : n.world.store.dice = m.world.store.dice) : Rolled k n := by
  rw [Rolled, World.rolled, hs]
  exact h

/-- A roll is counted, unless the mode of the operator settles its outcome. -/
theorem rolled_roll (m : Machine) :
    m.roll.2.world.store.dice = m.world.store.dice ∨ m.world.rolled < m.roll.2.world.rolled := by
  rw [roll]
  rcases hmode : m.nextRandMode with ⟨mode, n⟩
  have hworld : n.world = m.world := by
    rw [nextRandMode] at hmode
    split at hmode
    · cases hmode
      rfl
    · cases hmode
      rfl
  cases mode with
  | min => exact .inl (by rw [hworld])
  | max => exact .inl (by rw [hworld])
  | random =>
    refine .inr ?_
    simp only [withStore, World.rolled, Dice.unit, Dice.next, hworld]
    exact Nat.lt_succ_self _

/-- What was rolled stays so. -/
theorem rolled_lasting (env : Environment) (k : Nat) : Lasting env (Rolled k) where
  push b h := h.of_eq (by simp)
  pop c h := h.of_eq (by simp)
  alloc s h := h.of_eq rfl
  roll {m} h := by
    rcases rolled_roll m with heq | hlt
    · exact h.of_eq heq
    · exact Nat.le_trans h (Nat.le_of_lt hlt)
  nextAnonymous h := h.of_eq rfl
  setVariable h hs := by
    obtain ⟨memory, changed, log, -, rfl⟩ := setVariable_eq hs
    exact h.of_eq rfl
  frames a o h := h.of_eq rfl
  notify e _ h := h.of_eq (by simp)
  afterFrame h := h.of_eq rfl

/-- A runner that takes no roll back. -/
def Rolls (run : Runner) : Prop :=
  ∀ {k : Nat} {m : Machine}, Rolled k m → Rolled k (run m).2

/-- The caller of an isolated call has rolled what the nested machine has. -/
theorem rolled_adopted (env : Environment) {sub : Machine} (h : Rolled k sub) (m : Machine)
    (loc : Loc) (result : List Block) :
    Rolled k (((({ m with world := sub.world } : Machine).assignEach false
      sub.mainFrame.bindings).adopt result sub).obfuscate loc true) := by
  have hP := rolled_lasting env k
  have hadopt := hP.adopt (hP.assignEach (m := { m with world := sub.world }) h false
    sub.mainFrame.bindings) result sub
  exact hadopt.of_eq rfl

theorem rolled_sheltered (hrun : Rolls run) (env : Environment) (k : Nat) :
    Sheltered (Rolled k) env run where
  sample {m} h bindings values s := by
    have hstart : Rolled k (make m.nestedBudget m.workspace m.world) := h
    exact hrun ((rolled_lasting env k).trial hstart bindings values s)
  isolate {m} loc h _ := by
    have hP := rolled_lasting env k
    have hfresh := hP.assignEach
      (m := { (m.obfuscate loc false).nested (m.obfuscate loc false).remainingBudget with
        values := (m.obfuscate loc false).values })
      h true (m.obfuscate loc false).active.bindings
    have hstart : Rolled k ((m.obfuscate loc false).isolated env
        ((m.obfuscate loc false).heap.get loc)) := by
      apply hP.insert
      exact hfresh.of_eq rfl
    exact rolled_adopted env (hrun hstart) _ loc _

theorem runAt_rolls (env : Environment) (depth : Nat) : Rolls (runAt env depth) := by
  induction depth with
  | zero =>
    intro k m h
    exact h
  | succ depth ih =>
    intro k m h
    exact (rolled_lasting env k).runSteps (rolled_sheltered ih env k) (fun h => h) m.maxSteps
      (m := m.started) h

end Rolled

/-! ## Corresponding machines -/

/-- The second machine is the first one with its stacks moved, and on both no dice were rolled; the
observers count alike if `watched`. -/
structure Relocated (σ : Loc → Loc) (d d' : Dice) (watched : Prop) (m n : Machine) : Prop where
  values : n.values = m.values.map (Block.relocate σ)
  workspace : n.workspace = m.workspace.relocate σ
  active : n.active = m.active.relocate σ
  outer : n.outer = m.outer.map (Frame.relocate σ)
  world : World.Relocated σ d d' m.world n.world
  anonymous : m.anonymous = n.anonymous
  randModes : m.randModes = n.randModes
  randIndex : m.randIndex = n.randIndex
  maxSteps : n.maxSteps = m.maxSteps
  steps : n.steps = m.steps
  budget : n.budget = m.budget
  counts : watched → m.view.counts = n.view.counts

/-- Two outcomes of which the answers correspond by `f` and the machines by a relocation, unless the
first machine has rolled. -/
def Shadowed {α : Type} (σ : Loc → Loc) (d d' : Dice) (watched : Prop) (f : α → α)
    (x y : α × Machine) : Prop :=
  Rolled (d.rolled + 1) x.2 ∨ RelatedBy f (Relocated σ d d' watched) x y

/-- Two machines that correspond by a relocation, unless the first one has rolled. -/
def Tracked (σ : Loc → Loc) (d d' : Dice) (watched : Prop) (m n : Machine) : Prop :=
  Rolled (d.rolled + 1) m ∨ Relocated σ d d' watched m n

/-- A runner that takes corresponding machines to corresponding ends. -/
def Shadows (σ : Loc → Loc) (d d' : Dice) (run : Runner) : Prop :=
  ∀ {watched : Prop} {m n : Machine}, Relocated σ d d' watched m n →
    Shadowed σ d d' watched (List.map (Block.relocate σ)) (run m) (run n)

section Relocated

variable {σ : Loc → Loc} {d d' : Dice} {watched : Prop} {env : Environment} {m n : Machine}

/-- Events leave no trace that a program sees. -/
theorem Relocated.heard (h : Relocated σ d d' watched m n) (e e' : Event) :
    Relocated σ d d' watched (m.notify e) (n.notify e') := by
  have hworld := h.world.of_eq (notify_world m e).1 (notify_world m e).2 (notify_world n e').1
    (notify_world n e').2
  rw [notify_eq m, notify_eq n]
  exact { h with world := hworld }

theorem Relocated.pushed (h : Relocated σ d d' watched m n) (b : Block) :
    Relocated σ d d' watched (m.push b) (n.push (b.relocate σ)) := by
  have hheard := h.heard (.pushed b) (.pushed (b.relocate σ))
  refine { hheard with values := ?_, counts := fun hw => ?_ }
  · simp [h.values]
  · rw [push_view, push_view, View.counts_pushed, View.counts_pushed, h.counts hw]

theorem Relocated.popped (h : Relocated σ d d' watched m n) (c : Option Block) :
    Relocated σ d d' watched (m.pop c).2 (n.pop (c.map (Block.relocate σ))).2 := by
  have hcounts : watched → (m.pop c).2.view.counts =
      (n.pop (c.map (Block.relocate σ))).2.view.counts := by
    intro hw
    rw [pop_view, pop_view, h.values, List.isEmpty_map]
    split
    · exact h.counts hw
    · rw [View.counts_popped, View.counts_popped, h.counts hw]
  have hvalues : (n.pop (c.map (Block.relocate σ))).2.values =
      (m.pop c).2.values.map (Block.relocate σ) := by
    rw [pop_values, pop_values, h.values, List.map_tail]
  rcases hv : m.values with _ | ⟨b, rest⟩
  · have hv' : n.values = [] := by rw [h.values, hv]; rfl
    rw [pop, pop, hv, hv']
    exact h
  · have hv' : n.values = b.relocate σ :: rest.map (Block.relocate σ) := by rw [h.values, hv]; rfl
    rw [pop, pop, hv, hv'] at hcounts hvalues ⊢
    have hpop := h.heard (.popped b) (.popped (b.relocate σ))
    cases c with
    | none => exact { hpop with values := hvalues, counts := hcounts }
    | some c =>
      exact { hpop.heard (.consumed b c) (.consumed (b.relocate σ) (c.relocate σ)) with
        values := hvalues, counts := hcounts }

theorem Relocated.allocated (h : Relocated σ d d' watched m n) (s : Stack) :
    Relocated σ d d' watched (m.alloc s).2 (n.alloc (s.relocate σ)).2 :=
  { h with world := ⟨(h.world.heap.alloc s).2, h.world.memory, h.world.dice, h.world.dice'⟩ }

theorem Relocated.remembered (h : Relocated σ d d' watched m n) {m' n' : Machine}
    {id name : String} {b : Block} (hm : m.setVariable id name (some b) = .ok m')
    (hn : n.setVariable id name (some (b.relocate σ)) = .ok n') :
    Relocated σ d d' watched m' n' := by
  obtain ⟨memory, changed, log, hset, rfl⟩ := setVariable_eq hm
  obtain ⟨memory', changed', log', hset', rfl⟩ := setVariable_eq hn
  have hmove := h.world.heap.setVariable σ m.world.memory id name b
  rw [← h.world.memory] at hmove
  rw [show m.world.store.heap = m.heap from rfl, show n.world.store.heap = n.heap from rfl, hset,
    hset'] at hmove
  obtain ⟨rfl, -⟩ := Prod.mk.inj (Except.ok.inj hmove)
  exact { h with world := ⟨h.world.heap, rfl, h.world.dice, h.world.dice'⟩ }

/-- Uniform modules look at corresponding value stacks alike. -/
theorem Relocated.lookedAt (hu : env.Uniform σ) (h : Relocated σ d d' watched m n) :
    Relocated σ d d' watched (m.afterFrame env) (n.afterFrame env) := by
  have hfold : ∀ es : List Module, (∀ e ∈ es, e ∈ env.grammar.modules) → ∀ values : List Block,
      es.foldl (fun values e => e.afterFrame m.active.name values) (values.map (Block.relocate σ)) =
        (es.foldl (fun values e => e.afterFrame m.active.name values) values).map
          (Block.relocate σ) := by
    intro es
    induction es with
    | nil =>
      intro _ values
      rfl
    | cons e es ih =>
      intro hes values
      rw [List.foldl_cons, List.foldl_cons,
        hu e (hes e List.mem_cons_self)]
      exact ih (fun e he => hes e (List.mem_cons_of_mem _ he)) _
  have hname : n.active.name = m.active.name := by
    rw [h.active]
    rfl
  refine { h with values := ?_ }
  simp only [afterFrame, hname, h.values]
  exact hfold _ (fun _ he => he) m.values

/-- **What machines do to themselves keeps them in correspondence**, apart from rolling dice. -/
theorem relocated_inStep (hu : env.Uniform σ) (d d' : Dice) (watched : Prop) :
    InStepAlong σ env (Relocated σ d d' watched) where
  values h := h.values
  workspace h := h.workspace
  heap h := h.world.heap
  memory h := h.world.memory
  push b h := h.pushed b
  pop c h := h.popped c
  alloc s h := h.allocated s
  setVariable h hm hn := h.remembered hm hn
  anonymous h := h.anonymous
  nextAnonymous h := { h with anonymous := congrArg (· + 1) h.anonymous }
  active h := h.active
  outer h := h.outer
  frames _ _ h := { h with active := rfl, outer := rfl }
  notify e _ h := h.heard e _
  afterFrame h := h.lookedAt hu

/-- Random operators whose mode settles the outcome give corresponding numbers. -/
theorem Relocated.rolls (h : Relocated σ d d' watched m n) :
    Shadowed σ d d' watched (fun b => b) m.roll n.roll := by
  have hmodes : n.randModes[n.randIndex]? = m.randModes[m.randIndex]? := by
    rw [← h.randModes, ← h.randIndex]
  have hdice : d.rolled + 1 ≤ m.world.store.dice.rolled + 1 := by rw [h.world.dice]
  simp only [roll, nextRandMode, hmodes]
  rcases m.randModes[m.randIndex]? with _ | ⟨_ | _ | _⟩
  · exact .inl hdice
  · exact .inr ⟨rfl, { h with randIndex := congrArg (· + 1) h.randIndex }⟩
  · exact .inr ⟨rfl, { h with randIndex := congrArg (· + 1) h.randIndex }⟩
  · exact .inl hdice

end Relocated

end Machine

/-! ## Sampling -/

namespace Sampling

variable {σ : Loc → Loc} {d d' : Dice} {α β : Type}

/-- Two computations that take corresponding worlds to corresponding worlds and whose answers
correspond by `f`, unless the first one rolls; it takes no roll back. -/
def Follows (σ : Loc → Loc) (d d' : Dice) (f : Except Block α → Except Block α)
    (x y : Sampling α) : Prop :=
  (∀ w, d.rolled < w.rolled → d.rolled < (x w).2.rolled) ∧
    ∀ w w', World.Relocated σ d d' w w' →
      d.rolled < (x w).2.rolled ∨ (y w').1 = f (x w).1 ∧ World.Relocated σ d d' (x w).2 (y w').2

theorem follows_pure {f : Except Block α → Except Block α} {a : α} (hf : f (.ok a) = .ok a) :
    Follows σ d d' f (Sampling.pure a) (Sampling.pure a) :=
  ⟨fun _ h => h, fun _ _ h => .inr ⟨hf.symm, h⟩⟩

/-- One computation after the other. -/
theorem Follows.bind {f : Except Block β → Except Block β}
    (hf : ∀ b, f (.error b) = .error (b.relocate σ)) {x y : Sampling α} {g g' : α → Sampling β}
    (h : Follows σ d d' (Except.mapError (Block.relocate σ)) x y)
    (hg : ∀ a, Follows σ d d' f (g a) (g' a)) : Follows σ d d' f (x >>= g) (y >>= g') := by
  refine ⟨?_, ?_⟩
  · intro w hw
    have hx := h.1 w hw
    change d.rolled < (Sampling.bind x g w).2.rolled
    simp only [Sampling.bind]
    rcases hxw : x w with ⟨b | a, u⟩
    all_goals rw [hxw] at hx
    · exact hx
    · exact (hg a).1 u hx
  · intro w w' hw
    change d.rolled < (Sampling.bind x g w).2.rolled ∨
      (Sampling.bind y g' w').1 = f (Sampling.bind x g w).1 ∧
        World.Relocated σ d d' (Sampling.bind x g w).2 (Sampling.bind y g' w').2
    have hxy := h.2 w w' hw
    simp only [Sampling.bind]
    rcases hxw : x w with ⟨b | a, u⟩
    all_goals
      rcases hyw : y w' with ⟨c, u'⟩
      rw [hxw, hyw] at hxy
      rcases hxy with hrolled | ⟨rfl, hu⟩
    · exact .inl hrolled
    · exact .inr ⟨(hf b).symm, hu⟩
    · exact .inl ((hg a).1 u hrolled)
    · exact (hg a).2 u u' hu

/-- Numbers refer to no stack, so the operators of calculus answer alike. -/
theorem follows_congruence (σ : Loc → Loc) (d d' : Dice) :
    Congruence (fun _ => Follows σ d d' (Except.mapError (Block.relocate σ)))
      (Follows σ d d' fun r => (r.mapError (Block.relocate σ)).map (Block.relocate σ)) where
  pure _ := follows_pure rfl
  fail _ := ⟨fun _ h => h, fun _ _ h => .inr ⟨rfl, h⟩⟩
  bind h hf := h.bind (fun _ => rfl) hf
  answer _ := follows_pure rfl
  conclude h hf := h.bind (fun _ => rfl) hf

end Sampling

namespace Machine

section Nested

variable {σ : Loc → Loc} {d d' : Dice} {watched : Prop} {env : Environment} {m n : Machine}
  {run : Runner}

/-- Trials on corresponding worlds start alike. -/
theorem relocated_trial (hu : env.Uniform σ) {w w' : World} (hw : World.Relocated σ d d' w w')
    (limit : Nat) (workspace : Workspace) (bindings : Keyed Binding) (values : List Block)
    (s : Stack) :
    Relocated σ d d' True (trial env limit workspace bindings values s w)
      (trial env limit (workspace.relocate σ) (Keyed.mapValues (Binding.relocate σ) bindings)
        (values.map (Block.relocate σ)) (s.relocate σ) w') := by
  have hR := relocated_inStep hu d d' True
  have hmake : Relocated σ d d' True (make limit workspace w)
      (make limit (workspace.relocate σ) w') :=
    ⟨rfl, rfl, rfl, rfl, hw, rfl, rfl, rfl, rfl, rfl, rfl, fun _ => rfl⟩
  exact hR.insert (hR.assignEach true bindings (hR.pushAll values hmake)) s

/-- What a sample makes of the values that its trial leaves. -/
def reading (complaint : Block) : List Block → Except Block Fraction
  | [b] =>
    match b.fraction? with
    | some r => .ok r
    | none => .error complaint
  | _ => .error complaint

theorem sampleFraction_eq (p : Probe) (t : Fraction) (w : World) :
    p.sampleFraction t w =
      (reading (p.message.block p.env.localizer) (p.run
          (trial p.env p.budget p.workspace p.bindings [.ofFraction t] p.function w)).1,
        (p.run
          (trial p.env p.budget p.workspace p.bindings [.ofFraction t] p.function w)).2.world) := by
  obtain ⟨run, env, workspace, function, bindings, budget, message⟩ := p
  simp only [Probe.sampleFraction, trial, pushAll, List.foldl_cons, List.foldl_nil]
  rcases run ((((make budget workspace w).push (.ofFraction t)).assignEach true bindings).insert env
    function) with ⟨_ | ⟨b, _ | _⟩, sub⟩
  · rfl
  · simp only [reading]
    cases b.fraction? <;> rfl
  · rfl

theorem reading_relocate (message : Message) (l : Localizer) (bs : List Block) :
    reading (message.block l) (bs.map (Block.relocate σ)) =
      (reading (message.block l) bs).mapError (Block.relocate σ) := by
  match bs with
  | [] | _ :: _ :: _ => rfl
  | [b] =>
    simp only [reading, List.map_cons, List.map_nil, Block.fraction?_relocate]
    cases b.fraction? <;> rfl

/-- Corresponding probes. -/
theorem follows_probe (hu : env.Uniform σ) (hrun : Shadows σ d d' run) (hrolls : Rolls run)
    (workspace : Workspace) (function : Stack) (bindings : Keyed Binding) (limit : Nat)
    (message : Message) (t : Fraction) :
    Sampling.Follows σ d d' (Except.mapError (Block.relocate σ))
      ((Probe.mk run env workspace function bindings limit message).sampleFraction t)
      ((Probe.mk run env (workspace.relocate σ) (function.relocate σ)
        (Keyed.mapValues (Binding.relocate σ) bindings) limit message).sampleFraction t) := by
  refine ⟨?_, ?_⟩
  · intro w hw
    rw [sampleFraction_eq]
    exact hrolls ((rolled_lasting env _).trial (P := Rolled (d.rolled + 1)) hw _ _ _)
  · intro w w' hw
    have hsub := hrun (relocated_trial hu hw limit workspace bindings [.ofFraction t] function)
    rw [sampleFraction_eq, sampleFraction_eq]
    rcases hsub with hrolled | ⟨hresult, hrel⟩
    · exact .inl hrolled
    · refine .inr ⟨?_, hrel.world⟩
      rw [← reading_relocate, ← hresult]
      rfl

/-- A computation done on corresponding machines. -/
theorem Relocated.sampling (h : Relocated σ d d' watched m n) {x y : Sampling Block}
    (hxy : Sampling.Follows σ d d'
      (fun r => (r.mapError (Block.relocate σ)).map (Block.relocate σ)) x y) :
    Shadowed σ d d' watched (Option.map (Block.relocate σ)) (m.sampling x) (n.sampling y) := by
  rcases hxy.2 _ _ h.world with hrolled | ⟨hanswer, hworld⟩
  · refine .inl ?_
    rw [sampling_eq]
    exact hrolled
  · refine .inr ⟨?_, ?_⟩
    · rw [sampling_fst, sampling_fst, hanswer]
      rcases (x m.world).1 with b | b <;> rfl
    · rw [sampling_eq, sampling_eq]
      exact { h with world := hworld }

/-- One of the two runs that a limit from both sides asks for is a trial. -/
theorem approach_eq (run : Runner) (env : Environment) (name : String) (op : Operator) (f x : Block)
    (m : Machine) :
    m.approach run env name op f x =
      ((run (trial env m.nestedBudget m.workspace m.active.bindings []
          (Stack.make name [f, x, .operator op]) m.world)).1.head?,
        { m with
          world := (run (trial env m.nestedBudget m.workspace m.active.bindings []
            (Stack.make name [f, x, .operator op]) m.world)).2.world }) := rfl

theorem Relocated.nestedBudget (h : Relocated σ d d' watched m n) :
    n.nestedBudget = m.nestedBudget := by
  rw [Machine.nestedBudget, Machine.nestedBudget, limit, limit, h.maxSteps, h.budget, h.steps]

theorem Relocated.bindings (h : Relocated σ d d' watched m n) :
    n.active.bindings = Keyed.mapValues (Binding.relocate σ) m.active.bindings := by
  rw [h.active]
  rfl

theorem Relocated.approach (hu : env.Uniform σ) (hrun : Shadows σ d d' run)
    (h : Relocated σ d d' watched m n) (name : String) (op : Operator) (f x : Block) :
    Shadowed σ d d' watched (Option.map (Block.relocate σ)) (m.approach run env name op f x)
      (n.approach run env name op (f.relocate σ) (x.relocate σ)) := by
  have hsub := hrun (relocated_trial hu h.world m.nestedBudget m.workspace m.active.bindings []
    (Stack.make name [f, x, .operator op]))
  rw [approach_eq, approach_eq, h.nestedBudget, h.workspace, h.bindings]
  rcases hsub with hrolled | ⟨hresult, hrel⟩
  · exact .inl hrolled
  · refine .inr ⟨?_, { h with world := hrel.world, workspace := rfl }⟩
    refine (congrArg List.head? hresult).trans ?_
    exact List.head?_map

theorem rolled_approach (hrolls : Rolls run) {k : Nat} (h : Rolled k m) (name : String)
    (op : Operator) (f x : Block) : Rolled k (m.approach run env name op f x).2 := by
  rw [approach_eq]
  exact hrolls ((rolled_lasting env k).trial (P := Rolled k) h _ _ _)

theorem bothSides_relocate (σ : Loc → Loc) (l : Localizer) (message : Message)
    (left right : Option Block) :
    Calculus.bothSides l message (left.map (Block.relocate σ)) (right.map (Block.relocate σ)) =
      (Calculus.bothSides l message left right).relocate σ := by
  cases left with
  | none =>
    cases right with
    | none => rfl
    | some b =>
      simp only [Calculus.bothSides, Option.map_none, Option.map_some, Block.isError_relocate]
      split
      · rfl
      · rfl
  | some a =>
    simp only [Calculus.bothSides, Option.map_some, Block.isError_relocate]
    split
    · rfl
    · cases right with
      | none => rfl
      | some b =>
        simp only [Option.map_some, Block.isError_relocate, Block.float?_relocate]
        split
        · rfl
        · cases a.float? with
          | none => rfl
          | some x =>
            cases b.float? with
            | none => rfl
            | some y =>
              simp only
              split <;> rfl

/-- The limit from both sides: the second run goes on from the world that the first one left. -/
theorem Relocated.bothLimits (hu : env.Uniform σ) (hrun : Shadows σ d d' run) (hrolls : Rolls run)
    (h : Relocated σ d d' watched m n) (f x : Block) :
    Shadowed σ d d' watched (Option.map (Block.relocate σ)) (m.bothLimits run env f x)
      (n.bothLimits run env (f.relocate σ) (x.relocate σ)) := by
  have hR := relocated_inStep hu d d' watched
  rw [Machine.bothLimits, Machine.bothLimits, hR.resolve h]
  rcases h.approach hu hrun "negative" .negativeLimit (m.resolve f) x with hrolled | hleft
  · -- the second run takes no roll back
    exact .inl (rolled_approach hrolls hrolled _ _ _ _)
  · obtain ⟨left, m', n', hm, hn, h'⟩ := hleft.elim
    rw [hm, hn]
    rcases h'.approach hu hrun "positive" .positiveLimit (m.resolve f) x with hrolled | hright
    · exact .inl hrolled
    · obtain ⟨right, m'', n'', hm', hn', h''⟩ := hright.elim
      simp only [hm', hn']
      exact .inr ⟨congrArg some (bothSides_relocate σ _ _ left right), h''⟩

/-- Computations on corresponding machines settle what operators that sample do. -/
theorem Relocated.settles (hu : env.Uniform σ) (h : Relocated σ d d' watched m n) :
    Settles σ
      (Sampling.Follows σ d d' fun r => (r.mapError (Block.relocate σ)).map (Block.relocate σ))
      (Shadowed σ d d' watched (Option.map (Block.relocate σ))) m n where
  loc := (relocated_inStep hu d d' watched).dataLoc? h
  stay b hb := by
    refine .inr ⟨?_, h⟩
    cases b with
    | none => rfl
    | some c => exact congrArg some (Block.relocate_of_none σ (hb c rfl)).symm
  sampling hxy := h.sampling hxy

/-- An operator that samples, on corresponding machines. -/
theorem operate_shadowed (hu : env.Uniform σ) (hrun : Shadows σ d d' run) (hrolls : Rolls run)
    (h : Relocated σ d d' watched m n) (this : Block) {op : Operator} (hop : op.isCalculus = true)
    (overload : Nat) (operands : List Block) :
    Shadowed σ d d' watched (Option.map (Block.relocate σ))
      (m.operate (splicing env run) env this op overload operands)
      (n.operate (splicing env run) env (this.relocate σ) op overload
        (operands.map (Block.relocate σ))) := by
  have hR := relocated_inStep hu d d' watched
  have hprobe : ∀ loc bindings message t,
      Sampling.Follows σ d d' (Except.mapError (Block.relocate σ))
      ((Probe.mk run env m.workspace (m.heap.get loc) bindings m.nestedBudget
        message).sampleFraction t)
      ((Probe.mk run env n.workspace (n.heap.get (σ loc))
        (Keyed.mapValues (Binding.relocate σ) bindings) n.nestedBudget
          message).sampleFraction t) := by
    intro loc bindings message t
    rw [h.workspace, (hR.heap h).get, h.nestedBudget]
    exact follows_probe hu hrun hrolls _ _ _ _ _ t
  apply operate_of_probes (Sampling.follows_congruence σ d d') ?_ hop
  · intro loc message t
    rw [probe, probe, h.bindings]
    exact hprobe loc m.active.bindings message t
  · intro _ loc message message' t
    exact hprobe loc [] message' t
  · intro _ f x
    exact h.bothLimits hu hrun hrolls f x
  · exact h.settles hu

/-- An operator on corresponding machines, if its answers correspond. -/
theorem evaluateOperator_tracked (hu : env.Uniform σ) (h : Relocated σ d d' watched m n)
    (run : Runner) (this : Block) (op : Operator)
    (hanswer : ∀ {m n : Machine} (overload : Nat) (operands : List Block),
      Relocated σ d d' watched m n → Shadowed σ d d' watched (Option.map (Block.relocate σ))
        (m.operate (splicing env run) env this op overload operands)
        (n.operate (splicing env run) env (this.relocate σ) op overload
          (operands.map (Block.relocate σ)))) :
    Tracked σ d d' watched (m.evaluateOperator (splicing env run) env this op)
      (n.evaluateOperator (splicing env run) env (this.relocate σ) op) := by
  have hR := relocated_inStep hu d d' watched
  obtain ⟨taken, m', n', hm, hn, h'⟩ := (hR.takeFor h env this op).elim
  rw [Machine.evaluateOperator, Machine.evaluateOperator, hm, hn]
  cases taken with
  | none => exact .inr h'
  | some taken =>
    obtain ⟨operands, overload⟩ := taken
    simp only [Option.map_some, Prod.map, id]
    rcases hanswer overload operands h' with hrolled | hrel
    · refine .inl ?_
      generalize m'.operate (splicing env run) env this op overload operands = x at hrolled ⊢
      obtain ⟨_ | b, x⟩ := x
      · exact hrolled
      · exact (rolled_lasting env _).push b hrolled
    · obtain ⟨b, m'', n'', hm', hn', h''⟩ := hrel.elim
      rw [hm', hn']
      cases b with
      | none => exact .inr h''
      | some b => exact .inr (h''.pushed b)

/-- The nested machines of corresponding isolated calls start alike. -/
theorem Relocated.isolated (hu : env.Uniform σ) (h : Relocated σ d d' watched m n) (s : Stack) :
    Relocated σ d d' True (m.isolated env s) (n.isolated env (s.relocate σ)) := by
  have hR := relocated_inStep hu d d' True
  have hlimit : n.remainingBudget = m.remainingBudget := by
    rw [remainingBudget, remainingBudget, limit, limit, h.maxSteps, h.budget, h.steps]
  have hstart : Relocated σ d d' True { m.nested m.remainingBudget with values := m.values }
      { n.nested n.remainingBudget with values := n.values } :=
    ⟨h.values, h.workspace, rfl, rfl, h.world, rfl, rfl, rfl, hlimit, rfl, rfl, fun _ => rfl⟩
  have hbound := hR.assignEach true m.active.bindings hstart
  rw [← h.bindings] at hbound
  apply hR.insert
  refine { hbound with counts := fun _ => ?_ }
  rw [View.counts, View.counts, h.values, List.length_map]

theorem Relocated.obfuscate (h : Relocated σ d d' watched m n) (loc : Loc) (mark : Bool) :
    Relocated σ d d' watched (m.obfuscate loc mark) (n.obfuscate (σ loc) mark) :=
  { h with
    world := ⟨h.world.heap.modify loc fun _ => rfl, h.world.memory, h.world.dice, h.world.dice'⟩ }

/-- An isolated call on corresponding machines. -/
theorem callIsolated_tracked (hu : env.Uniform σ) (hrun : Shadows σ d d' run)
    (h : Relocated σ d d' watched m n) (loc : Loc) :
    Tracked σ d d' watched (m.callIsolated run env loc) (n.callIsolated run env (σ loc)) := by
  have hR := relocated_inStep hu d d' watched
  have hS := relocated_inStep hu d d' True
  have hopen := h.obfuscate loc false
  have hsub := hrun (hopen.isolated hu ((m.obfuscate loc false).heap.get loc))
  rw [← (hR.heap hopen).get] at hsub
  rw [callIsolated, callIsolated]
  rcases hsub with hrolled | hsub
  · exact .inl (rolled_adopted env hrolled _ loc _)
  · obtain ⟨result, sub, sub', hm, hn, hrel⟩ := hsub.elim
    simp only [hm, hn]
    refine .inr (Relocated.obfuscate ?_ loc true)
    have hworld : Relocated σ d d' watched
        { (m.obfuscate loc false).withoutWorld with world := sub.world }
        { (n.obfuscate (σ loc) false).withoutWorld with world := sub'.world } :=
      { hopen with world := hrel.world }
    have hmain := hS.mainFrame hrel
    have hassigned := hR.assignEach false sub.mainFrame.bindings hworld
    refine hR.adopt ?_ result ?_ ?_
    · rw [hmain]
      exact hassigned
    · rw [hmain, Frame.isFinished_relocate]
    · rw [View.untouched_eq, View.untouched_eq, hrel.counts trivial]

/-! ## Blocks, steps and runs -/

/-- **One block on corresponding machines.** -/
theorem evaluate_tracked (hu : env.Uniform σ) (hrun : Shadows σ d d' run) (hrolls : Rolls run)
    (h : Relocated σ d d' watched m n) (this : Block) :
    Tracked σ d d' watched (m.evaluate (splicing env run) env this)
      (n.evaluate (splicing env run) env (this.relocate σ)) := by
  have hR := relocated_inStep hu d d' watched
  cases hloc : m.isolates? this with
  | some loc =>
    cases this with
    | code name target =>
      have hloc' := hR.isolates? h (.code name target)
      rw [hloc] at hloc'
      simp only [Machine.evaluate, Block.relocate]
      rw [call_of_isolates? hloc, call_of_isolates? hloc']
      exact callIsolated_tracked hu hrun h loc
    | _ => cases hloc
  | none =>
    by_cases hroll : this.rolls = true
    · obtain rfl : this = .operator .random := by
        unfold Block.rolls at hroll
        split at hroll
        · rfl
        · cases hroll
      refine evaluateOperator_tracked hu h run (.operator .random) .random ?_
      intro m n overload operands h
      rcases h.rolls with hrolled | ⟨hb, hrel⟩
      · exact .inl hrolled
      · exact .inr ⟨congrArg some (hb.trans (relocate_roll σ m).symm), hrel⟩
    by_cases hsample : this.samples = true
    · cases this with
      | operator op =>
        exact evaluateOperator_tracked hu h run _ op
          fun overload operands h => operate_shadowed hu hrun hrolls h _ hsample overload operands
      | _ => cases hsample
    · exact .inr (hR.evaluate h this (fun hr => absurd hr hroll) (fun hs => absurd hs hsample)
        fun loc hl => by rw [hloc] at hl; cases hl)

/-- **One step of corresponding machines.** -/
theorem step_shadowed (hu : env.Uniform σ) (hrun : Shadows σ d d' run) (hrolls : Rolls run)
    (h : Relocated σ d d' watched m n) :
    Shadowed σ d d' watched (fun p => p) (m.step (splicing env run) env)
      (n.step (splicing env run) env) := by
  have hR := relocated_inStep hu d d' watched
  by_cases hrel : ∀ b rest, m.active.program = .block b :: rest →
      Relocated σ d d' watched (m.afterBlock (splicing env run) env b rest)
        (n.afterBlock (splicing env run) env (b.relocate σ) (rest.map (Pending.relocate σ)))
  · obtain ⟨hp, h'⟩ := hR.step h hrel
    exact .inr ⟨hp.symm, h'⟩
  · -- the next block rolls, unless there is nothing left to do
    simp only [not_forall] at hrel
    obtain ⟨b, rest, hp, hnot⟩ := hrel
    cases hmain : m.mainFrame.isFinished with
    | true =>
      have hmain' : n.mainFrame.isFinished = true := by
        rw [hR.mainFrame h, Frame.isFinished_relocate, hmain]
      rw [step, step, hmain, hmain']
      exact .inr ⟨rfl, h⟩
    | false =>
      have hP := rolled_lasting env (d.rolled + 1)
      rcases evaluate_tracked hu hrun hrolls (hR.withProgram h rest) b with hrolled | hrel
      · exact .inl (hP.of_afterBlock hmain hp (hP.notify _ rfl hrolled))
      · exact absurd (hrel.heard _ _) hnot

/-- **Runs of corresponding machines**, up to a number of steps. -/
theorem runSteps_shadowed (hu : env.Uniform σ) (hrun : Shadows σ d d' run) (hrolls : Rolls run)
    (left : Nat) : ∀ {m n : Machine}, Relocated σ d d' watched m n →
      Shadowed σ d d' watched (List.map (Block.relocate σ))
        (m.runSteps (splicing env run) env left) (n.runSteps (splicing env run) env left) := by
  induction left with
  | zero =>
    intro m n h
    exact .inr ⟨rfl, h⟩
  | succ left ih =>
    intro m n h
    rw [runSteps, runSteps]
    rcases step_shadowed hu hrun hrolls h with hrolled | hrel
    · -- the rest of the run takes no roll back
      refine .inl ?_
      rcases hm : m.step (splicing env run) env with ⟨_ | _, m'⟩
      all_goals rw [hm] at hrolled
      · exact (rolled_lasting env _).runSteps (rolled_sheltered hrolls env _) (fun h => h) left
          (m := { m' with steps := m'.steps + 1 }) hrolled
      · exact hrolled
    · obtain ⟨p, m', n', hm, hn, h'⟩ := hrel.elim
      rw [hm, hn]
      cases p with
      | finished =>
        refine .inr ⟨?_, h'⟩
        simp only [result, h'.values, List.map_reverse]
      | pending => exact ih { h' with steps := congrArg (· + 1) h'.steps }

theorem Relocated.started (h : Relocated σ d d' watched m n) :
    Relocated σ d d' watched m.started n.started :=
  { h with budget := congrArg some h.maxSteps, steps := rfl }

/-- **Runs take no notice of places**, however deep machines are nested in them. -/
theorem runAt_shadows (hu : env.Uniform σ) (d d' : Dice) (depth : Nat) :
    Shadows σ d d' (runAt env depth) := by
  induction depth with
  | zero =>
    intro watched m n h
    exact .inr ⟨rfl, h.started⟩
  | succ depth ih =>
    intro watched m n h
    have hsteps := runSteps_shadowed hu ih (runAt_rolls env depth) m.maxSteps h.started
    rw [runAt, runAt, h.maxSteps]
    exact hsteps

end Nested

end Machine

end BlockMachine
