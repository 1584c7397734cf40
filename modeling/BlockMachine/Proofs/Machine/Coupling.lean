import BlockMachine.Proofs.Machine.Runs
import BlockMachine.Proofs.Machine.Sampling

/-!
# Machines with the same frames

Two machines that have the same frames and differ in what no block reads, such as their observers or
the places of their stacks, take the same steps. This covers every block, also one that asks for
nested machines, as long as the nested machines of the two come to related ends. With one machine on
both sides it is a way to prove what all steps keep, whatever nested machines do to the world.

* `InStepAlong σ env R` — the relation `R` holds between machines whose frames are the same up to a
  relocation `σ` of stacks, and is kept by what machines do to themselves;
* `InStepAlong.insert`, `InStepAlong.assignEach`, `InStepAlong.evaluate`, `InStepAlong.step` — then
  running stacks, binding names, blocks and steps keep it, up to what they ask nested machines for;
* `InStep env R` — the same with all stacks in the same places;
* `Nesting R env run run'` — and by what the runners `run` and `run'` do to nested machines;
* `InStep.evaluate`, `InStep.step`, `InStep.runSteps` — then blocks, steps and runs keep it, and end
  alike;
* `Lasting`, `Lasting.step`, `Lasting.runSteps` — the same for one machine and a property of it.
-/

namespace BlockMachine

/-- Whether an event is a change of the value stack. -/
def Event.moves : Event → Bool
  | .pushed _ | .popped _ => true
  | _ => false

/-- Whether a block samples a function when it is evaluated. -/
def Block.samples : Block → Bool
  | .operator op => op.isCalculus
  | _ => false

namespace Machine

/-- The stack that a block calls in isolation when it is evaluated. -/
def isolates? (m : Machine) : Block → Option Loc
  | .code name target =>
    match m.resolve (.code name target) with
    | .code _ (some loc) => if (m.heap.get loc).obfuscated then some loc else none
    | _ => none
  | _ => none

theorem obfuscated_of_isolates? {m : Machine} {b : Block} {loc : Loc}
    (h : m.isolates? b = some loc) : (m.heap.get loc).obfuscated = true := by
  cases b with
  | code name target =>
    rw [isolates?] at h
    split at h
    · split at h
      · rename_i hmark
        obtain rfl := Option.some.inj h
        exact hmark
      · cases h
    · cases h
  | _ => cases h

/-- A block that is not plain samples a function, calls a stack in isolation or belongs to a
module. -/
theorem cases_of_not_plain {m : Machine} {b : Block} (h : m.isPlain b = false) :
    (∃ op, b = .operator op ∧ op.isCalculus = true) ∨
      (∃ name target loc, b = .code name target ∧ m.isolates? b = some loc) ∨
      ∃ ext, b = .extension ext := by
  cases b with
  | operator op => exact .inl ⟨op, rfl, by simpa [isPlain] using h⟩
  | code name target =>
    refine .inr (.inl ?_)
    simp only [isPlain] at h
    split at h
    · rename_i name' loc hres
      have hmark : (m.heap.get loc).obfuscated = true := by simpa using h
      exact ⟨name, target, loc, rfl, by simp [isolates?, hres, hmark]⟩
    · cases h
  | extension ext => exact .inr (.inr ⟨ext, rfl⟩)
  | _ => cases h

/-- What an isolated call is made of. -/
theorem call_of_isolates? {m : Machine} {name : String} {target : Option Loc} {loc : Loc}
    (h : m.isolates? (.code name target) = some loc) (d : Discipline) (env : Environment) :
    m.call d env name target = m.callIsolated d.run env loc := by
  rw [isolates?] at h
  split at h
  · rename_i name' loc' hres
    split at h
    · rename_i hmark
      obtain rfl := Option.some.inj h
      simp only [call, hres, hmark, if_true]
    · cases h
  · cases h

/-- A relation between machines with corresponding frames that is kept by what machines do to
themselves. -/
structure InStepAlong (σ : Loc → Loc) (env : Environment) (R : Machine → Machine → Prop) : Prop
    extends CongruentAlong σ R, Naming R where
  active : ∀ {m n}, R m n → n.active = m.active.relocate σ
  outer : ∀ {m n}, R m n → n.outer = m.outer.map (Frame.relocate σ)
  frames : ∀ {m n} (a : Frame) (o : List Frame), R m n →
    R { m with active := a, outer := o }
      { n with active := a.relocate σ, outer := o.map (Frame.relocate σ) }
  notify : ∀ {m n} (e : Event), e.moves = false → R m n → R (m.notify e) (n.notify (e.relocate σ))
  afterFrame : ∀ {m n}, R m n → R (m.afterFrame env) (n.afterFrame env)

/-- A relation between machines with the same frames that is kept by what machines do to
themselves. -/
structure InStep (env : Environment) (R : Machine → Machine → Prop) : Prop
    extends Congruent R, Rolling R, Naming R where
  active : ∀ {m n}, R m n → m.active = n.active
  outer : ∀ {m n}, R m n → m.outer = n.outer
  frames : ∀ {m n} (a : Frame) (o : List Frame), R m n →
    R { m with active := a, outer := o } { n with active := a, outer := o }
  notify : ∀ {m n} (e : Event), e.moves = false → R m n → R (m.notify e) (n.notify e)
  afterFrame : ∀ {m n}, R m n → R (m.afterFrame env) (n.afterFrame env)

/-- Trials of related machines answer the same and leave related worlds. -/
def Samples (R : Machine → Machine → Prop) (env : Environment) (run run' : Runner) : Prop :=
  ∀ {m n}, R m n → ∀ bindings values s,
    (run (trial env m.nestedBudget m.workspace bindings values s m.world)).1 =
        (run' (trial env n.nestedBudget n.workspace bindings values s n.world)).1 ∧
      R { m with
          world := (run (trial env m.nestedBudget m.workspace bindings values s m.world)).2.world }
        { n with
          world := (run' (trial env n.nestedBudget n.workspace bindings values s n.world)).2.world }

/-- Nested machines of related machines leave them related. -/
structure Nesting (R : Machine → Machine → Prop) (env : Environment) (run run' : Runner) :
    Prop where
  sample : Samples R env run run'
  isolate : ∀ {m n} (loc : Loc), R m n → (m.heap.get loc).obfuscated = true →
    R (m.callIsolated run env loc) (n.callIsolated run' env loc)

/-- The step of a frame that finds a mark where it looks for a block. -/
theorem stepFrame_child {m : Machine} {rest : List Pending} (hp : m.active.program = .child :: rest)
    (d : Discipline) (env : Environment) :
    m.stepFrame d env =
      if ((m.withProgram rest).push (missingChild env.localizer)).outer.length = m.outer.length ∧
          ((m.withProgram rest).push (missingChild env.localizer)).active.isFinished then
        (.finished, ((m.withProgram rest).push (missingChild env.localizer)).afterFrame env)
      else (.pending, (m.withProgram rest).push (missingChild env.localizer)) := by
  simp only [stepFrame, hp]
  rfl

/-- A call that is isolated on one machine is so on the other. -/
theorem CongruentAlong.isolates? {σ : Loc → Loc} {R : Machine → Machine → Prop} {m n : Machine}
    (hR : CongruentAlong σ R) (h : R m n) (b : Block) :
    n.isolates? (b.relocate σ) = (m.isolates? b).map σ := by
  cases b with
  | code name target =>
    have hres := hR.resolve h (.code name target)
    simp only [Block.relocate] at hres
    simp only [Machine.isolates?, Block.relocate]
    rw [hres]
    cases m.resolve (.code name target) with
    | code name' found =>
      cases found with
      | none => rfl
      | some loc =>
        simp only [Option.map_some, (hR.heap h).get, Stack.relocate]
        split <;> rfl
    | _ => rfl
  | _ => rfl

namespace InStepAlong

variable {σ : Loc → Loc} {env : Environment} {R : Machine → Machine → Prop} {m n : Machine}
  {run run' : Runner}

/-! ## Frames -/

theorem chain (hR : InStepAlong σ env R) (h : R m n) :
    n.frames = m.frames.map (Frame.relocate σ) := by
  rw [Machine.frames, Machine.frames, hR.active h, hR.outer h, List.map_cons]

theorem recalled (hR : InStepAlong σ env R) (h : R m n) (name : String) :
    n.recalled env name = (m.recalled env name).relocate σ := by
  have hshown := (hR.heap h).shown env.localizer (.fetch name)
  simp only [Block.relocate] at hshown
  rw [Machine.recalled, Machine.recalled, unassigned, unassigned, fetch, fetch, hR.chain h,
    Frame.fetch_relocate, hshown]
  cases Frame.fetch m.frames name <;> rfl

theorem withProgram (hR : InStepAlong σ env R) (h : R m n) (program : List Pending) :
    R (m.withProgram program) (n.withProgram (program.map (Pending.relocate σ))) := by
  have h' := hR.frames { m.active with program } m.outer h
  rw [← hR.outer h] at h'
  rw [Machine.withProgram, Machine.withProgram, hR.active h]
  exact h'

theorem notifyEach (hR : InStepAlong σ env R) (name : String) (b : Block) (news : List Bool) :
    ∀ {m n : Machine}, R m n → R (news.foldl (fun m p => m.notify (.assigned name b p)) m)
      (news.foldl (fun m p => m.notify (.assigned name (b.relocate σ) p)) n) := by
  induction news with
  | nil =>
    intro m n h
    exact h
  | cons p news ih =>
    intro m n h
    exact ih (hR.notify _ rfl h)

theorem assign (hR : InStepAlong σ env R) (h : R m n) (name : String) (b : Block)
    (parameter : Bool) :
    R (m.assign name b parameter) (n.assign name (b.relocate σ) parameter) := by
  have hall := @Frame.assignAll_relocate σ (fun old => !m.heap.equals b old)
    (fun old => !n.heap.equals (b.relocate σ) old) (fun old => by rw [(hR.heap h).equals])
    name b m.frames parameter
  rw [Machine.assign, Machine.assign, hR.chain h, hall]
  rcases Frame.assignAll (fun old => !m.heap.equals b old) name b parameter m.frames with
    ⟨_ | ⟨active, outer⟩, news⟩
  · exact hR.notifyEach name b news h
  · exact hR.notifyEach name b news (hR.frames active outer h)

theorem assignEach (hR : InStepAlong σ env R) (withParameters : Bool) (bindings : Keyed Binding) :
    ∀ {m n : Machine}, R m n → R (m.assignEach withParameters bindings)
      (n.assignEach withParameters (Keyed.mapValues (Binding.relocate σ) bindings)) := by
  induction bindings with
  | nil =>
    intro m n h
    exact h
  | cons p bindings ih =>
    intro m n h
    obtain ⟨name, v⟩ := p
    apply ih
    simp only [Binding.relocate]
    by_cases hassign : (withParameters || !v.parameter) = true
    · simp only [hassign, if_true]
      exact hR.assign h _ _ _
    · simp only [hassign]
      exact h

theorem load (hR : InStepAlong σ env R) (h : R m n) (s : Stack) :
    R (m.load env s) (n.load env (s.relocate σ)) := by
  obtain ⟨bound, m', n', hm, hn, h'⟩ := (hR.popInputs s.inputs.reverse h).elim
  have hinputs : (s.relocate σ).inputs = s.inputs := rfl
  have hempty : (s.relocate σ).blocks.isEmpty = s.blocks.isEmpty := List.isEmpty_map
  simp only [Machine.load]
  rw [hinputs, hempty, hR.values h, List.length_map, hm, hn]
  simp only
  split
  · exact hR.push _ h
  · split
    · rw [hR.active h']
      exact hR.notify _ rfl h'
    · have hf := hR.frames (Frame.loaded s bound m'.active) m'.outer h'
      rw [Frame.relocate_loaded, ← hR.active h', ← hR.outer h'] at hf
      have hnotify := hR.notify (.spliced (Frame.loaded s bound m'.active)) rfl hf
      rw [Event.relocate, Frame.relocate_loaded, ← hR.active h'] at hnotify
      exact hnotify

/-- A stack run from the same frame. -/
theorem insert (hR : InStepAlong σ env R) (h : R m n) (s : Stack) :
    R (m.insert env s) (n.insert env (s.relocate σ)) := by
  have ha : n.active.isFinished = m.active.isFinished := by
    rw [hR.active h, Frame.isFinished_relocate]
  cases hfin : m.active.isFinished with
  | true =>
    rw [insert_of_finished hfin, insert_of_finished (by rw [ha]; exact hfin)]
    exact hR.load h s
  | false =>
    rw [insert_of_unfinished hfin, insert_of_unfinished (by rw [ha]; exact hfin)]
    have hload := hR.load (hR.frames Frame.empty (waiting m.active :: m.outer) h) s
    have hwait : waiting n.active :: n.outer =
        (waiting m.active :: m.outer).map (Frame.relocate σ) := by
      rw [hR.active h, hR.outer h]
      rfl
    rw [insertChild, insertChild, hwait]
    have hnotify := hR.notify (.opened (Machine.load env s
      { m with active := Frame.empty, outer := waiting m.active :: m.outer }).active) rfl hload
    rw [Event.relocate, ← hR.active hload] at hnotify
    exact hnotify

/-! ## Blocks -/

theorem of_joint (hR : InStepAlong σ env R) {x y : Machine}
    (h : JointAlong σ R (Machine.insert env) (Machine.insert env) x y) : R x y := by
  cases h with
  | stay h => exact h
  | enter s h => exact hR.insert h s
  | bind name b h => exact hR.assign h name b false

/-- **Every block keeps the relation**, if it does that rolls dice, samples a function or calls a
stack in isolation. -/
theorem evaluate (hR : InStepAlong σ env R) (h : R m n) (this : Block)
    (hroll : this.rolls = true → Rolling R)
    (hs : this.samples = true → R (m.evaluate (splicing env run) env this)
      (n.evaluate (splicing env run') env (this.relocate σ)))
    (hi : ∀ loc, m.isolates? this = some loc →
      R (m.callIsolated run env loc) (n.callIsolated run' env (σ loc))) :
    R (m.evaluate (splicing env run) env this)
      (n.evaluate (splicing env run') env (this.relocate σ)) := by
  cases hp : m.isPlain this with
  | true =>
    exact hR.of_joint (hR.evaluate_joint h (splicing env run) (splicing env run') env
      (hR.recalled h) this hp hroll (fun _ => hR.toNaming))
  | false =>
    rcases cases_of_not_plain hp with ⟨op, rfl, hop⟩ | ⟨name, target, loc, rfl, hloc⟩ | ⟨ext, rfl⟩
    · exact hs hop
    · have hres := hR.isolates? h (.code name target)
      rw [hloc] at hres
      simp only [Machine.evaluate, Block.relocate]
      rw [call_of_isolates? hloc, call_of_isolates? hres]
      exact hi loc hloc
    · simp only [Machine.evaluate, Block.relocate]
      split
      · exact hR.push (.extension ext) h
      · exact hR.respread h (.extension ext) _ _

/-- What isolated calls left is taken over alike. -/
theorem adopt (hR : InStepAlong σ env R) (h : R m n) (result : List Block) {sub sub' : Machine}
    (hmain : sub'.mainFrame.isFinished = sub.mainFrame.isFinished)
    (hview : sub.view.untouched = sub'.view.untouched) :
    R (m.adopt result sub) (n.adopt (result.map (Block.relocate σ)) sub') := by
  rw [Machine.adopt, Machine.adopt, hmain, hview, hR.values h, List.length_map]
  split
  · simp only [← List.map_drop]
    exact hR.pushAll _ (hR.drop _ h)
  · exact hR.pushAll _ h

/-! ## Steps -/

theorem mainFrame (hR : InStepAlong σ env R) (h : R m n) :
    n.mainFrame = m.mainFrame.relocate σ := by
  rw [Machine.mainFrame, Machine.mainFrame, hR.outer h, hR.active h, List.getLast?_map]
  cases m.outer.getLast? <;> rfl

theorem closeFrame (hR : InStepAlong σ env R) (h : R m n) : R m.closeFrame n.closeFrame := by
  rw [Machine.closeFrame, Machine.closeFrame, hR.outer h, hR.active h]
  cases m.outer with
  | nil => exact h
  | cons parent outer =>
    have hf := hR.frames { parent with program := parent.program.tail } outer h
    have hnotify := hR.notify (.closed m.active) rfl hf
    simp only [Frame.relocate, List.map_tail] at hnotify
    exact hnotify

/-- One step of both machines, if the block that is next keeps the relation. -/
theorem step (hR : InStepAlong σ env R) (h : R m n)
    (hb : ∀ b rest, m.active.program = .block b :: rest →
      R (m.afterBlock (splicing env run) env b rest)
        (n.afterBlock (splicing env run') env (b.relocate σ) (rest.map (Pending.relocate σ)))) :
    Related R (m.step (splicing env run) env) (n.step (splicing env run') env) := by
  have hlength : ∀ {x y : Machine}, R x y → y.outer.length = x.outer.length := by
    intro x y hxy
    rw [hR.outer hxy, List.length_map]
  have hfinished : ∀ {x y : Machine}, R x y → y.active.isFinished = x.active.isFinished := by
    intro x y hxy
    rw [hR.active hxy, Frame.isFinished_relocate]
  have hprogram : n.active.program = m.active.program.map (Pending.relocate σ) := by
    rw [hR.active h]
    rfl
  have hmain : n.mainFrame.isFinished = m.mainFrame.isFinished := by
    rw [hR.mainFrame h, Frame.isFinished_relocate]
  -- the active frame, whether it is the main program's or not
  have hframe : Related R (m.stepFrame (splicing env run) env)
      (n.stepFrame (splicing env run') env) := by
    rcases hp : m.active.program with _ | ⟨b | _, rest⟩
    all_goals rw [hp] at hprogram
    · rw [stepFrame_nil hp, stepFrame_nil hprogram]
      exact ⟨rfl, h⟩
    · have h' := hb b rest hp
      rw [stepFrame_block hp, stepFrame_block hprogram, hlength h, hlength h', hfinished h']
      split
      · exact ⟨rfl, hR.afterFrame h'⟩
      · exact ⟨rfl, h'⟩
    · have h' := hR.push (missingChild env.localizer) (hR.withProgram h rest)
      rw [show (missingChild env.localizer).relocate σ = missingChild env.localizer from rfl] at h'
      rw [stepFrame_child hp, stepFrame_child hprogram, hlength h, hlength h', hfinished h']
      split
      · exact ⟨rfl, hR.afterFrame h'⟩
      · exact ⟨rfl, h'⟩
  obtain ⟨p, m', n', hm, hn, h'⟩ := hframe.elim
  have hempty : n.outer.isEmpty = m.outer.isEmpty := by rw [hR.outer h, List.isEmpty_map]
  rw [Machine.step, Machine.step, hmain, hm, hn, hempty]
  split
  · exact ⟨rfl, h⟩
  · split
    · exact ⟨rfl, h'⟩
    · cases p with
      | pending => exact ⟨rfl, h'⟩
      | finished => exact ⟨rfl, hR.closeFrame h'⟩

end InStepAlong

/-! ## Stacks in the same places -/

namespace InStep

variable {env : Environment} {R : Machine → Machine → Prop} {m n : Machine} {run run' : Runner}

theorem along (hR : InStep env R) : InStepAlong id env R where
  toCongruentAlong := hR.toCongruent.along
  toNaming := hR.toNaming
  active h := by simp [hR.active h]
  outer h := by simp [hR.outer h]
  frames a o h := by simpa using hR.frames a o h
  notify e he h := by simpa using hR.notify e he h
  afterFrame h := hR.afterFrame h

theorem withProgram (hR : InStep env R) (h : R m n) (program : List Pending) :
    R (m.withProgram program) (n.withProgram program) := by
  simpa using hR.along.withProgram h program

theorem assignEach (hR : InStep env R) (withParameters : Bool) (bindings : Keyed Binding)
    (h : R m n) :
    R (m.assignEach withParameters bindings) (n.assignEach withParameters bindings) := by
  simpa using hR.along.assignEach withParameters bindings h

/-- A stack run from the same frame. -/
theorem insert (hR : InStep env R) (h : R m n) (s : Stack) :
    R (m.insert env s) (n.insert env s) := by
  simpa using hR.along.insert h s

/-! ## Blocks -/

/-- An operator that samples, on related machines. -/
theorem evaluateOperator (hR : InStep env R) (h : R m n) (hs : Samples R env run run')
    (this : Block) {op : Operator} (hop : op.isCalculus = true) :
    R (m.evaluateOperator (splicing env run) env this op)
      (n.evaluateOperator (splicing env run') env this op) := by
  obtain ⟨taken, m', n', hm, hn, h'⟩ := (hR.takeFor h env this op).elim
  rw [Machine.evaluateOperator, Machine.evaluateOperator, hm, hn]
  cases taken with
  | none => exact h'
  | some taken =>
    obtain ⟨operands, overload⟩ := taken
    have htry : Tries (fun w w' => R { m' with world := w } { n' with world := w' }) env
        (splicing env run).run (splicing env run').run m' n' :=
      fun bindings values s w w' hw => hs hw bindings values s
    obtain ⟨hfst, hsnd⟩ := operate_alike hop (splicing env run) (splicing env run') env this
      overload operands (hR.workspace h') (hR.store h') (by rw [hR.active h']) h' htry
    -- such an operator changes nothing but the world
    obtain ⟨w, hw⟩ := operate_calculus hop (splicing env run) env this overload operands m'
    obtain ⟨w', hw'⟩ := operate_calculus hop (splicing env run') env this overload operands n'
    simp only
    generalize m'.operate (splicing env run) env this op overload operands = x at hfst hsnd hw ⊢
    generalize n'.operate (splicing env run') env this op overload operands = y at hfst hsnd hw' ⊢
    obtain ⟨b, x⟩ := x
    obtain ⟨c, y⟩ := y
    simp only at hfst hw hw' hsnd
    subst hfst hw hw'
    cases b with
    | none => exact hsnd
    | some b => exact hR.push b hsnd

/-- **Every block keeps the relation**, if what nested machines do keeps it. -/
theorem evaluate (hR : InStep env R) (h : R m n) (this : Block)
    (hs : this.samples = true → Samples R env run run')
    (hi : ∀ loc, m.isolates? this = some loc →
      R (m.callIsolated run env loc) (n.callIsolated run' env loc)) :
    R (m.evaluate (splicing env run) env this) (n.evaluate (splicing env run') env this) := by
  have hsample : this.samples = true →
      R (m.evaluate (splicing env run) env this) (n.evaluate (splicing env run') env this) := by
    intro hop
    cases this with
    | operator op => exact hR.evaluateOperator h (hs hop) _ hop
    | _ => cases hop
  simpa using hR.along.evaluate h this (fun _ => hR.toRolling) (by simpa using hsample) hi

/-! ## Steps and runs -/

/-- One step of both machines, if the block that is next keeps the relation. -/
theorem step (hR : InStep env R) (h : R m n)
    (hb : ∀ b rest, m.active.program = .block b :: rest →
      R (m.afterBlock (splicing env run) env b rest)
        (n.afterBlock (splicing env run') env b rest)) :
    (m.step (splicing env run) env).1 = (n.step (splicing env run') env).1 ∧
      R (m.step (splicing env run) env).2 (n.step (splicing env run') env).2 :=
  hR.along.step h (by simpa using hb)

theorem afterBlock (hR : InStep env R) (hN : Nesting R env run run') (h : R m n) (b : Block)
    (rest : List Pending) :
    R (m.afterBlock (splicing env run) env b rest)
      (n.afterBlock (splicing env run') env b rest) := by
  apply hR.notify _ rfl
  have h' := hR.withProgram h rest
  exact hR.evaluate h' b (fun _ => hN.sample)
    (fun loc hloc => hN.isolate loc h' (obfuscated_of_isolates? hloc))

/-- **Runs keep the relation** and end alike. -/
theorem runSteps (hR : InStep env R) (hN : Nesting R env run run')
    (hcounted : ∀ {m n : Machine}, R m n → R m.counted n.counted) (left : Nat) :
    ∀ {m n : Machine}, R m n →
      (m.runSteps (splicing env run) env left).1 = (n.runSteps (splicing env run') env left).1 ∧
        R (m.runSteps (splicing env run) env left).2
          (n.runSteps (splicing env run') env left).2 := by
  induction left with
  | zero =>
    intro m n h
    exact ⟨rfl, h⟩
  | succ left ih =>
    intro m n h
    obtain ⟨p, m', n', hm, hn, h'⟩ :=
      Related.elim (hR.step h fun b rest _ => hR.afterBlock hN h b rest)
    rw [Machine.runSteps, Machine.runSteps, hm, hn]
    cases p with
    | finished =>
      simp only [result]
      rw [hR.values h']
      exact ⟨rfl, h'⟩
    | pending => exact ih (hcounted h')

end InStep

/-! ## One machine -/

/-- A property that is kept by what a machine does to itself. -/
structure Lasting (env : Environment) (P : Machine → Prop) : Prop extends Kept P where
  frames : ∀ {m} (a : Frame) (o : List Frame), P m → P { m with active := a, outer := o }
  notify : ∀ {m} (e : Event), e.moves = false → P m → P (m.notify e)
  afterFrame : ∀ {m}, P m → P (m.afterFrame env)

/-- A machine beside itself. -/
theorem Lasting.inStep {env : Environment} {P : Machine → Prop} (hP : Lasting env P) :
    InStep env fun m n => m = n ∧ P m where
  values h := by rw [h.1]
  workspace h := by rw [h.1]
  store h := by rw [h.1]
  memory h := by rw [h.1]
  push b h := ⟨by rw [h.1], hP.push b h.2⟩
  pop c h := ⟨by rw [h.1], hP.pop c h.2⟩
  alloc s h := ⟨by rw [h.1], hP.alloc s h.2⟩
  setVariable h hm hn := by
    obtain ⟨rfl, hm'⟩ := h
    exact ⟨Except.ok.inj (hm.symm.trans hn), hP.setVariable hm' hm⟩
  roll h := ⟨by rw [h.1], by rw [h.1], hP.roll h.2⟩
  anonymous h := by rw [h.1]
  nextAnonymous h := ⟨by rw [h.1], hP.nextAnonymous h.2⟩
  active h := by rw [h.1]
  outer h := by rw [h.1]
  frames a o h := ⟨by rw [h.1], hP.frames a o h.2⟩
  notify e he h := ⟨by rw [h.1], hP.notify e he h.2⟩
  afterFrame h := ⟨by rw [h.1], hP.afterFrame h.2⟩

/-- Nested machines keep a property of the machine that asks for them. -/
structure Sheltered (P : Machine → Prop) (env : Environment) (run : Runner) : Prop where
  sample : ∀ {m}, P m → ∀ bindings values s,
    P { m with
      world := (run (trial env m.nestedBudget m.workspace bindings values s m.world)).2.world }
  isolate : ∀ {m} (loc : Loc), P m → (m.heap.get loc).obfuscated = true →
    P (m.callIsolated run env loc)

namespace Lasting

variable {env : Environment} {P : Machine → Prop} {run : Runner} {m : Machine}

theorem insert (hP : Lasting env P) (h : P m) (s : Stack) : P (m.insert env s) :=
  (hP.inStep.insert ⟨rfl, h⟩ s).2

theorem assignEach (hP : Lasting env P) (h : P m) (withParameters : Bool)
    (bindings : Keyed Binding) : P (m.assignEach withParameters bindings) :=
  (hP.inStep.assignEach withParameters bindings ⟨rfl, h⟩).2

/-- A trial starts with a property that an empty machine on its world has. -/
theorem trial (hP : Lasting env P) {limit : Nat} {workspace : Workspace} {w : World}
    (h : P (make limit workspace w)) (bindings : Keyed Binding) (values : List Block) (s : Stack) :
    P (Machine.trial env limit workspace bindings values s w) :=
  hP.insert (hP.assignEach (hP.pushAll values h) true bindings) s

theorem nesting (hS : Sheltered P env run) : Nesting (fun m n => m = n ∧ P m) env run run where
  sample h bindings values s := by
    obtain ⟨rfl, hm⟩ := h
    exact ⟨rfl, rfl, hS.sample hm bindings values s⟩
  isolate loc h hmark := by
    obtain ⟨rfl, hm⟩ := h
    exact ⟨rfl, hS.isolate loc hm hmark⟩

/-- What a block has led to is not lost before the step ends. -/
theorem of_afterBlock (hP : Lasting env P) {d : Discipline} {b : Block} {rest : List Pending}
    (hmain : m.mainFrame.isFinished = false) (hp : m.active.program = .block b :: rest)
    (h : P (m.afterBlock d env b rest)) : P (m.step d env).2 := by
  rw [Machine.step, hmain, stepFrame_block hp]
  simp only [Bool.false_eq_true, if_false]
  by_cases hdone : (m.afterBlock d env b rest).outer.length = m.outer.length ∧
      (m.afterBlock d env b rest).active.isFinished = true
  · simp only [if_pos hdone]
    split
    · exact hP.afterFrame h
    · exact (hP.inStep.along.closeFrame ⟨rfl, hP.afterFrame h⟩).2
  · simp only [if_neg hdone, ite_self]
    exact h

/-- A step keeps a lasting property, whatever it asks nested machines for. -/
theorem step (hP : Lasting env P) (hS : Sheltered P env run) (h : P m) :
    P (m.step (splicing env run) env).2 :=
  (hP.inStep.step ⟨rfl, h⟩ fun b rest _ =>
    hP.inStep.afterBlock (nesting hS) ⟨rfl, h⟩ b rest).2.2

/-- A run does. -/
theorem runSteps (hP : Lasting env P) (hS : Sheltered P env run)
    (hcounted : ∀ {m : Machine}, P m → P m.counted) (left : Nat) (h : P m) :
    P (m.runSteps (splicing env run) env left).2 :=
  (hP.inStep.runSteps (nesting hS) (fun h => ⟨congrArg Machine.counted h.1, hcounted h.2⟩) left
    ⟨rfl, h⟩).2.2

/-- A property that takes no notice of the world is kept by nested machines. -/
theorem sheltered (hP : Lasting env P)
    (hworld : ∀ {m : Machine} (w : World), P m → P { m with world := w }) (run : Runner) :
    Sheltered P env run where
  sample h bindings values s := hworld _ h
  isolate {m} loc h hmark := by
    rw [callIsolated]
    rcases run ((m.obfuscate loc false).isolated env ((m.obfuscate loc false).heap.get loc)) with
      ⟨result, sub⟩
    exact hworld _ (hP.adopt (hP.assignEach (hworld _ (hworld _ (hworld _ h))) false _) result sub)

end Lasting

end Machine

end BlockMachine
