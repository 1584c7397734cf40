import BlockMachine.Proofs.Machine.MergedFrames

/-!
# Two machines in lockstep

One machine runs a stack on top of the frames of its caller; another one runs it on a single frame
that shows the same variables. As long as the stack runs, the two take the same steps.

* `Frame.seen` — what a name stands for in a chain of frames;
* `Based B fs gs` — the frames `fs` and `gs` agree down to a frame that is the last of `gs`; there, the
  relation `B` holds, `Footing` — which sees to it that both show the same variables;
* `Shows` — the weakest such relation;
* `isOver k m` — the frame with `k` frames around it has nothing left to run; `Returns` — the run from a
  machine to that point;
* `AtRest` — both are at that end, with the same values, memory and heap, and `B` still holds at the
  base;
* `Lockstep.step`, `Lockstep.finishes` — a step of the first machine is answered by one of the second;
  so the second finishes when the first is over.
-/

namespace BlockMachine

namespace Frame

/-! ## Frames -/

/-- What a name stands for in a chain of frames. -/
def seen (unbound : String → Block) (fs : List Frame) (name : String) : Block :=
  (fetch fs name).getD (unbound name)

theorem seen_cons (unbound : String → Block) (f : Frame) (fs : List Frame) (name : String) :
    seen unbound (f :: fs) name =
      ((f.bindings.find? name).map Binding.block).getD (seen unbound fs name) := by
  rw [seen]
  rw [fetch_cons]
  cases f.bindings.find? name <;> rfl

/-- The frames agree down to the last one of `gs`, and `B` relates what is left of `fs` to that
one. -/
inductive Based (B : List Frame → Frame → Prop) : List Frame → List Frame → Prop where
  | base {fs : List Frame} {g : Frame} : B fs g → Based B fs [g]
  | above (f : Frame) {fs gs : List Frame} : Based B fs gs → Based B (f :: fs) (f :: gs)

/-- What is asked of such a relation: a frame with `k` frames below it, and a single one, run the same
program and show the same variables, and go on to do so. -/
structure Footing (unbound : String → Block) (k : Nat) (B : List Frame → Frame → Prop) : Prop where
  length : ∀ {fs g}, B fs g → fs.length = k + 1
  program : ∀ {f fs g}, B (f :: fs) g → f.program = g.program
  seen : ∀ {fs g}, B fs g → ∀ name, Frame.seen unbound fs name = Frame.seen unbound [g] name
  reload : ∀ {f f' fs g g'}, B (f :: fs) g → f'.bindings = f.bindings → g'.bindings = g.bindings →
    f'.program = g'.program → B (f' :: fs) g'
  bindUp : ∀ {fs g}, B fs g → ∀ name b,
    B (Frame.bindUp name b false fs) (g.bind name (g.isParameter name) b)
  bind : ∀ {f fs g}, B (f :: fs) g → ∀ name b, B (f.bind name true b :: fs) (g.bind name true b)

/-- An assignment to a single frame. -/
theorem bindUp_singleton (name : String) (b : Block) (f : Frame) :
    Frame.bindUp name b false [f] = [f.bind name (f.isParameter name) b] := by
  rw [bindUp_cons]
  split <;> rfl

section Based

variable {unbound : String → Block} {k : Nat} {B : List Frame → Frame → Prop} {f g : Frame}
  {fs gs : List Frame}

theorem Based.length (hB : Footing unbound k B) (h : Based B fs gs) :
    fs.length = gs.length + k := by
  induction h with
  | base h =>
    rw [hB.length h, List.length_singleton]
    omega
  | above f _ ih =>
    simp [ih]
    omega

theorem Based.program (hB : Footing unbound k B) (h : Based B (f :: fs) (g :: gs)) :
    f.program = g.program := by
  cases h with
  | base h => exact hB.program h
  | above => rfl

theorem Based.seen (hB : Footing unbound k B) (h : Based B fs gs) (name : String) :
    Frame.seen unbound fs name = Frame.seen unbound gs name := by
  induction h with
  | base h => exact hB.seen h name
  | above f _ ih => rw [seen_cons, seen_cons, ih]

/-- Both active frames get the same program. -/
theorem Based.withProgram (hB : Footing unbound k B) (h : Based B (f :: fs) (g :: gs))
    (program : List Pending) :
    Based B ({ f with program := program } :: fs) ({ g with program := program } :: gs) := by
  cases h with
  | base h => exact .base (hB.reload h rfl rfl rfl)
  | above _ h => exact .above _ h

/-- Both bind the same name to the same block. -/
theorem Based.bindUp (hB : Footing unbound k B) (h : Based B fs gs) (name : String) (b : Block) :
    Based B (Frame.bindUp name b false fs) (Frame.bindUp name b false gs) := by
  induction h with
  | base h =>
    rw [bindUp_singleton]
    exact .base (hB.bindUp h name b)
  | above f h ih =>
    rw [bindUp_cons, bindUp_cons]
    cases hp : f.isParameter name with
    | true => exact .above _ h
    | false => exact .above _ ih

/-- Both active frames get the same parameters. -/
theorem Based.bindEach (hB : Footing unbound k B) (bound : List (String × Block)) :
    ∀ {f g : Frame}, Based B (f :: fs) (g :: gs) →
      Based B (Frame.bindEach bound f :: fs) (Frame.bindEach bound g :: gs) := by
  induction bound with
  | nil =>
    intro f g h
    exact h
  | cons p bound ih =>
    intro f g h
    apply ih
    cases h with
    | base h => exact .base (hB.bind h p.1 p.2)
    | above _ h => exact .above _ h

/-- The same stack is loaded into both active frames. -/
theorem Based.loaded (hB : Footing unbound k B) (h : Based B (f :: fs) (g :: gs)) (s : Stack)
    (bound : List (String × Block)) :
    Based B (Frame.loaded s bound f :: fs) (Frame.loaded s bound g :: gs) := by
  apply Based.bindEach hB
  cases h with
  | base h => exact .base (hB.reload h rfl rfl rfl)
  | above _ h => exact .above _ h

/-- Both active frames wait for the same child. -/
theorem Based.child (hB : Footing unbound k B) (h : Based B (f :: fs) (g :: gs)) (c : Frame) :
    Based B (c :: Machine.waiting f :: fs) (c :: Machine.waiting g :: gs) := by
  refine .above c ?_
  cases h with
  | base h => exact .base (hB.reload h rfl rfl (congrArg (Pending.child :: ·) (hB.program h)))
  | above _ h => exact .above _ h

/-- Above the base, both active frames have the same frames around them. -/
theorem Based.tail {p : Frame} {ps : List Frame} (h : Based B (f :: fs) (g :: p :: ps)) :
    Based B fs (p :: ps) := by
  cases h with
  | above _ h => exact h

/-- At the base, what is left of the frames is related to the single one. -/
theorem Based.bottom (h : Based B fs [g]) : B fs g := by
  cases h with
  | base h => exact h
  | above _ h => cases h

end Based

/-- The first of the frames, with `k` frames below it, and the single one run the same program, and
all of them show what the single one shows. -/
inductive Shows (unbound : String → Block) (k : Nat) : List Frame → Frame → Prop where
  | intro {f g : Frame} {fs : List Frame} : fs.length = k → f.program = g.program →
    (∀ name, seen unbound (f :: fs) name = seen unbound [g] name) → Shows unbound k (f :: fs) g

theorem shows_footing (unbound : String → Block) (k : Nat) : Footing unbound k (Shows unbound k) where
  length h := by
    obtain ⟨hk, -, -⟩ := h
    rw [List.length_cons, hk]
  program h := by
    obtain ⟨-, hp, -⟩ := h
    exact hp
  seen h := by
    obtain ⟨-, -, hs⟩ := h
    exact hs
  reload {f f' fs g g'} h hf hg hp := by
    obtain ⟨hk, -, hs⟩ := h
    refine ⟨hk, hp, ?_⟩
    intro name
    have hs' := hs name
    rw [seen_cons, seen_cons] at hs' ⊢
    rw [hf, hg]
    exact hs'
  bindUp {fs g} h name b := by
    obtain @⟨f, _, fs, hk, hp, hs⟩ := h
    have hlen := congrArg List.length (bindUp_programs name b false (f :: fs))
    have hseen : ∀ other, Frame.seen unbound (Frame.bindUp name b false (f :: fs)) other =
        Frame.seen unbound [g.bind name (g.isParameter name) b] other := by
      intro other
      rw [← bindUp_singleton]
      simp only [Frame.seen]
      by_cases hne : other = name
      · rw [hne, fetch_bindUp_self, fetch_bindUp_self]
      · rw [(bindUp_of_ne b hne _).1, (bindUp_of_ne b hne _).1]
        exact hs other
    rw [bindUp_cons] at hseen hlen ⊢
    simp only [List.length_map, List.length_cons, Nat.add_right_cancel_iff] at hlen
    exact ⟨hlen.trans hk, hp, hseen⟩
  bind {f fs g} h name b := by
    obtain ⟨hk, hp, hs⟩ := h
    refine ⟨hk, hp, ?_⟩
    intro other
    have hs' := hs other
    rw [seen_cons, seen_cons] at hs' ⊢
    by_cases hne : other = name
    · rw [hne, find?_bind_self, find?_bind_self]
      rfl
    · rw [find?_bind_of_ne _ _ _ hne, find?_bind_of_ne _ _ _ hne]
      exact hs'

end Frame

namespace Machine

open BlockMachine.Frame (Based Footing seen)

/-! ## Machines -/

/-- What a name stands for that no frame binds. -/
def unbound (env : Environment) (name : String) : Block :=
  unassigned env (.fetch name) (make 0 Workspace.empty (World.ofSeed 0))

theorem recalled_eq_seen (env : Environment) (m : Machine) (name : String) :
    m.recalled env name = seen (unbound env) m.frames name := rfl

/-- Whether the next block, if there is one, is plain, rolls no dice and, unless `naming`, names no
anonymous stack. -/
def isCalm (naming : Bool) (m : Machine) : Bool :=
  match m.active.program with
  | .block b :: _ => m.isPlain b && !b.rolls && (naming || !b.names)
  | _ => true

/-- Whether the frame with `k` frames around it has nothing left to run. -/
def isOver (k : Nat) (m : Machine) : Bool :=
  m.outer.length < k || m.outer.length == k && m.active.isFinished

/-- The run from a machine to the point at which the frame with `k` frames around it has nothing left
to run. -/
inductive Returns (d : Discipline) (env : Environment) (naming : Bool) (k : Nat) :
    Machine → Machine → Prop where
  | ended {m : Machine} : m.isOver k = true → Returns d env naming k m m
  | next {m m' m'' : Machine} {p : Progress} : m.isOver k = false → m.isCalm naming = true →
    m.step d env = (p, m') → Returns d env naming k m'.counted m'' → Returns d env naming k m m''

/-- Two machines that run the same stack, the first on top of frames that `B` relates to the only
frame below it in the second. -/
structure Lockstep (naming : Bool) (B : List Frame → Frame → Prop) (m n : Machine) : Prop where
  alike : Alike (naming = true) False m n
  based : Based B m.frames n.frames
  left : Chained m
  right : Chained n

namespace Lockstep

variable {env : Environment} {naming : Bool} {k : Nat} {B : List Frame → Frame → Prop}
  {unbound : String → Block} {m n : Machine}

theorem length (hB : Footing unbound k B) (h : Lockstep naming B m n) :
    m.outer.length = n.outer.length + k := by
  have := h.based.length hB
  simp only [frames, List.length_cons] at this
  omega

theorem program (hB : Footing unbound k B) (h : Lockstep naming B m n) :
    m.active.program = n.active.program :=
  h.based.program hB

theorem counted (h : Lockstep naming B m n) : Lockstep naming B m.counted n.counted :=
  ⟨((alike_counted m).symm.trans h.alike).trans (alike_counted n), h.based,
    ⟨h.left.active, h.left.outer⟩, ⟨h.right.active, h.right.outer⟩⟩

/-- A stack run from both active frames. -/
theorem based_insert (hB : Footing unbound k B) (env : Environment) (s : Stack) {named rolled : Prop}
    (ha : Alike named rolled m n) (hb : Based B m.frames n.frames) :
    Alike named rolled (m.insert env s) (n.insert env s) ∧
      Based B (m.insert env s).frames (n.insert env s).frames := by
  have hp : m.active.isFinished = n.active.isFinished := by
    simp only [Frame.isFinished]
    rw [hb.program hB]
  cases hfin : m.active.isFinished with
  | true =>
    rw [insert_of_finished hfin, insert_of_finished (hp.symm.trans hfin)]
    obtain ⟨hl, hframes⟩ := alike_blind.load ha env s
    refine ⟨hl, ?_⟩
    simp only [frames]
    rw [(load_cases env s m).1, (load_cases env s n).1]
    rcases hframes with ⟨h₁, h₂⟩ | ⟨-, bound, h₁, h₂⟩
    · rw [h₁, h₂]
      exact hb
    · rw [h₁, h₂]
      exact hb.loaded hB s bound
  | false =>
    rw [insert_of_unfinished hfin, insert_of_unfinished (hp.symm.trans hfin)]
    obtain ⟨hl, hframes⟩ := alike_blind.load (alike_blind.frames Frame.empty Frame.empty
      (waiting m.active :: m.outer) (waiting n.active :: n.outer) ha) env s
    refine ⟨alike_blind.notify _ _ hl, ?_⟩
    have hsame : (insertChild env s m).active = (insertChild env s n).active := by
      rw [insertChild_active, insertChild_active]
      rcases hframes with ⟨h₁, h₂⟩ | ⟨-, bound, h₁, h₂⟩
      · rw [h₁, h₂]
      · rw [h₁, h₂]
    simp only [frames]
    rw [(insertChild_cases env s m).1, (insertChild_cases env s n).1, hsame]
    exact hb.child hB _

/-- The last move of a block. -/
theorem based_joint (hB : Footing unbound k B) {named rolled : Prop} {x y : Machine}
    (hb : Based B m.frames n.frames)
    (hj : Joint (fun x y => Alike named rolled x y ∧ (x.active = m.active ∧ x.outer = m.outer) ∧
      y.active = n.active ∧ y.outer = n.outer) (Machine.insert env) (Machine.insert env) x y) :
    Alike named rolled x y ∧ Based B x.frames y.frames := by
  cases hj with
  | stay h =>
    obtain ⟨ha, ⟨hma, hmo⟩, hna, hno⟩ := h
    rw [frames_eq hma hmo, frames_eq hna hno]
    exact ⟨ha, hb⟩
  | bind name b h =>
    obtain ⟨ha, ⟨hma, hmo⟩, hna, hno⟩ := h
    rw [assign_frames, assign_frames, frames_eq hma hmo, frames_eq hna hno]
    exact ⟨alike_assign ha name b, hb.bindUp hB name b⟩
  | enter s h =>
    obtain ⟨ha, ⟨hma, hmo⟩, hna, hno⟩ := h
    refine based_insert hB env s ha ?_
    rw [frames_eq hma hmo, frames_eq hna hno]
    exact hb

/-- **One block.** After a calm block the machines are in lockstep again. -/
theorem afterBlock (hB : Footing (Machine.unbound env) k B) (h : Lockstep naming B m n) {b : Block}
    {rest : List Pending} (hp : m.active.program = .block b :: rest)
    (hcalm : m.isCalm naming = true) (run run' : Runner) :
    Lockstep naming B (m.afterBlock (splicing env run) env b rest)
      (n.afterBlock (splicing env run') env b rest) := by
  simp only [isCalm, hp, Bool.and_eq_true, Bool.or_eq_true, Bool.not_eq_true'] at hcalm
  obtain ⟨⟨hplain, hroll⟩, hname⟩ := hcalm
  have hbased : Based B (m.withProgram rest).frames (n.withProgram rest).frames :=
    h.based.withProgram hB rest
  have halike : Alike (naming = true) False (m.withProgram rest) (n.withProgram rest) :=
    alike_blind.frames _ _ _ _ h.alike
  have hj := halike.evaluate (splicing env run) (splicing env run') env
    (fun name => by rw [recalled_eq_seen, recalled_eq_seen, hbased.seen hB]) b hplain
    (fun hb => by rw [hroll] at hb; cases hb)
    (fun hb => hname.resolve_right (by rw [hb]; decide))
  obtain ⟨ha, hb⟩ := based_joint hB hbased hj
  refine ⟨alike_blind.notify _ _ ha, ?_, h.left.afterBlock env run hp,
    h.right.afterBlock env run' ((h.program hB).symm.trans hp)⟩
  simpa [Machine.afterBlock, frames] using hb

/-- Where the second machine has a frame around its active one, the first has one too. -/
theorem outer_ne_nil (hB : Footing unbound k B) (h : Lockstep naming B m n) (ho : n.outer ≠ []) :
    m.outer ≠ [] := by
  intro hnil
  have hlen := h.length hB
  rw [hnil, List.length_nil] at hlen
  exact ho (List.eq_nil_of_length_eq_zero (by omega))

/-- Both active frames, which are not the base, are closed. -/
theorem close (hB : Footing unbound k B) (h : Lockstep naming B m n) (ho : n.outer ≠ []) :
    Lockstep naming B m.closeFrame n.closeFrame := by
  obtain ⟨q, qs, hno⟩ := List.exists_cons_of_ne_nil ho
  obtain ⟨p, ps, hmo⟩ := List.exists_cons_of_ne_nil (h.outer_ne_nil hB ho)
  have hb := h.based
  simp only [frames] at hb
  rw [hmo, hno] at hb
  obtain ⟨hma, hmo'⟩ := closeFrame_cons hmo
  obtain ⟨hna, hno'⟩ := closeFrame_cons hno
  have ha := ((alike_closeFrame m).symm.trans h.alike).trans (alike_closeFrame n)
  refine ⟨ha, ?_, (h.left.closeFrame hmo).1,
    (h.right.closeFrame hno).1⟩
  simp only [frames]
  rw [hma, hmo', hna, hno', hb.tail.program hB]
  exact hb.tail.withProgram hB _

/-- The first machine is not over as long as the second has a frame around its active one or
something to run. -/
theorem isOver (hB : Footing unbound k B) (h : Lockstep naming B m n) :
    m.isOver k = (n.outer.isEmpty && n.active.isFinished) := by
  have hlen := h.length hB
  have hp : m.active.isFinished = n.active.isFinished := by
    simp only [Frame.isFinished]
    rw [h.program hB]
  rw [Machine.isOver]
  rw [hp, hlen]
  cases n.outer with
  | nil => simp
  | cons q qs => simp

end Lockstep

/-! ## Runs -/

/-- Whether the main program finishes within so many steps. -/
def completes (d : Discipline) (env : Environment) : Nat → Machine → Bool
  | 0, _ => false
  | left + 1, m =>
    match m.step d env with
    | (.finished, _) => true
    | (.pending, m') => completes d env left m'.counted

section Runs

variable {d : Discipline} {env : Environment} {m m' : Machine}

/-- The last step of a run. -/
theorem runSteps_of_finished {left : Nat} (hs : m.step d env = (.finished, m'))
    (hc : m.completes d env left = true) : m.runSteps d env left = (m'.result, m') := by
  cases left with
  | zero => cases hc
  | succ left =>
    rw [Machine.runSteps]
    rw [hs]

/-- A step of a run that goes on. -/
theorem runSteps_of_pending {left : Nat} (hs : m.step d env = (.pending, m'))
    (hc : m.completes d env left = true) :
    ∃ left', m'.counted.completes d env left' = true ∧
      m.runSteps d env left = m'.counted.runSteps d env left' := by
  cases left with
  | zero => cases hc
  | succ left =>
    rw [completes] at hc
    rw [hs] at hc
    refine ⟨left, hc, ?_⟩
    rw [Machine.runSteps, hs]
    rfl

theorem Returns.eq_of_isOver {naming : Bool} {k : Nat} (h : Returns d env naming k m m')
    (hover : m.isOver k = true) : m' = m := by
  cases h with
  | ended _ => rfl
  | next hnot _ _ _ =>
    rw [hover] at hnot
    cases hnot

end Runs

/-- The frames of a machine that has run a stack to its end: the frame of the stack may be closed or
not. -/
def Leaves (fs : List Frame) (m : Machine) : Prop :=
  m.frames = fs ∨
    ∃ f p ps, fs = f :: p :: ps ∧ m.frames = { p with program := p.program.tail } :: ps

theorem leaves_closeFrame {m : Machine} (h : m.outer ≠ []) : Leaves m.frames m.closeFrame := by
  obtain ⟨p, ps, ho⟩ := List.exists_cons_of_ne_nil h
  obtain ⟨hactive, houter⟩ := closeFrame_cons ho
  refine .inr ⟨m.active, p, ps, by rw [frames, ho], ?_⟩
  rw [frames, hactive, houter]

/-- The second machine has finished, with the values, memory and heap that the first one has when it
is over, and the frames at the base are still related. -/
structure AtRest (naming : Bool) (k : Nat) (B : List Frame → Frame → Prop) (m n : Machine) :
    Prop where
  alike : Alike (naming = true) False m n
  main : n.mainFrame.isFinished = true
  alone : n.outer = []
  isOver : m.isOver k = true
  frames : ∃ fs, B fs n.active ∧ Leaves fs m

namespace Lockstep

variable {env : Environment} {naming : Bool} {k : Nat} {B : List Frame → Frame → Prop}
  {unbound : String → Block} {m n : Machine}

/-- The base has nothing left to run, so both machines are at their end, whether the frame of the
first one is closed or not. -/
theorem atRest (hB : Footing unbound k B) (h : Lockstep naming B m n) (hn : n.outer = [])
    (hfin : n.active.isFinished = true) :
    AtRest naming k B m n ∧ (m.outer ≠ [] → AtRest naming k B m.closeFrame n) := by
  have hmain : n.mainFrame.isFinished = true := by
    rw [h.right.busy.mainFrame_isFinished, hn, hfin]
    rfl
  have hb := h.based
  rw [frames, frames, hn] at hb
  refine ⟨⟨h.alike, hmain, hn, ?_, m.frames, hb.bottom, .inl rfl⟩, fun ho =>
    ⟨(alike_closeFrame m).symm.trans h.alike, hmain, hn, ?_, m.frames, hb.bottom,
      leaves_closeFrame ho⟩⟩
  · rw [h.isOver hB, hn, hfin]
    rfl
  · obtain ⟨p, ps, hmo⟩ := List.exists_cons_of_ne_nil ho
    have hlen := h.length hB
    rw [hmo, hn, List.length_cons, List.length_nil] at hlen
    rw [Machine.isOver, (closeFrame_cons hmo).2, decide_eq_true (show ps.length < k by omega)]
    rfl

/-- **One step.** As long as the first machine is not over, a step of it is answered by a step of the
second one, which leaves them in lockstep or at their end. -/
theorem step (hq : env.Quiet) (hB : Footing (Machine.unbound env) k B) (h : Lockstep naming B m n)
    (hover : m.isOver k = false) (hcalm : m.isCalm naming = true) {run : Runner} {p : Progress}
    {m' : Machine} (hs : m.step (splicing env run) env = (p, m')) (run' : Runner) :
    (∃ n', n.step (splicing env run') env = (.pending, n') ∧ Lockstep naming B m' n') ∨
      ∃ n', n.step (splicing env run') env = (.finished, n') ∧ AtRest naming k B m' n' := by
  rw [h.isOver hB] at hover
  rcases hp : m.active.program with _ | ⟨b | _, rest⟩
  · -- both close a frame in which nothing is left
    have hp' := (h.program hB).symm.trans hp
    have ho : n.outer ≠ [] := by
      simpa [Frame.isFinished, hp'] using hover
    rw [step_nil h.left.busy hp, if_neg (by simpa using h.outer_ne_nil hB ho)] at hs
    cases hs
    refine .inl ⟨n.closeFrame, ?_, h.close hB ho⟩
    rw [step_nil h.right.busy hp', if_neg (by simpa using ho)]
  · have hp' := (h.program hB).symm.trans hp
    have h₁ := h.afterBlock hB hp hcalm run run'
    have hs' := step_block h.right.busy hp' (splicing env run') env
    rw [step_block h.left.busy hp, afterFrame_of_quiet hq] at hs
    rw [afterFrame_of_quiet hq] at hs'
    have hlen := h.length hB
    have hlen₁ := h₁.length hB
    have hfin : (m.afterBlock (splicing env run) env b rest).active.isFinished =
        (n.afterBlock (splicing env run') env b rest).active.isFinished := by
      simp only [Frame.isFinished]
      rw [h₁.program hB]
    by_cases hdone : (n.afterBlock (splicing env run') env b rest).outer.length = n.outer.length ∧
        (n.afterBlock (splicing env run') env b rest).active.isFinished = true
    · rw [if_pos hdone] at hs'
      rw [hfin, if_pos ⟨by omega, hdone.2⟩] at hs
      by_cases ho : n.outer = []
      · -- the base has nothing left to run
        rw [if_pos (by simp [ho])] at hs'
        have ho₁ : (n.afterBlock (splicing env run') env b rest).outer = [] := by
          refine List.eq_nil_of_length_eq_zero (hdone.1.trans ?_)
          rw [ho]
          rfl
        obtain ⟨hend, hclosed⟩ := h₁.atRest hB ho₁ hdone.2
        refine .inr ⟨_, hs', ?_⟩
        split at hs
        · cases hs
          exact hend
        · rename_i hmo
          cases hs
          refine hclosed fun hnil => hmo ?_
          rw [hnil, List.length_nil] at hlen₁
          simpa using List.eq_nil_of_length_eq_zero (by omega : m.outer.length = 0)
      · -- both close a frame above the base
        have ho₁ : (n.afterBlock (splicing env run') env b rest).outer ≠ [] := by
          intro hnil
          rw [hnil] at hdone
          exact ho (List.eq_nil_of_length_eq_zero hdone.1.symm)
        rw [if_neg (by simpa using ho)] at hs'
        rw [if_neg (by simpa using h.outer_ne_nil hB ho)] at hs
        cases hs
        exact .inl ⟨_, hs', h₁.close hB ho₁⟩
    · rw [if_neg hdone] at hs'
      rw [hfin, if_neg (fun hboth => hdone ⟨by omega, hboth.2⟩)] at hs
      cases hs
      exact .inl ⟨_, hs', h₁⟩
  · exact absurd (by rw [hp]; exact List.mem_cons_self) h.left.active

/-- **Lockstep to the end.** When the first machine is over, the second has finished, unless it was
stopped before. -/
theorem finishes (hq : env.Quiet) (hB : Footing (Machine.unbound env) k B) {run run' : Runner}
    {m' : Machine} (hret : Returns (splicing env run) env naming k m m') :
    ∀ {n : Machine} {left : Nat}, Lockstep naming B m n →
      n.completes (splicing env run') env left = true →
      ∃ n', n.runSteps (splicing env run') env left = (n'.result, n') ∧
        AtRest naming k B m' n' := by
  induction hret with
  | ended hover =>
    intro n left h hc
    rw [h.isOver hB, Bool.and_eq_true] at hover
    have ho : n.outer = [] := by simpa using hover.1
    have hs : n.step (splicing env run') env = (.finished, n) := by
      rw [step_nil h.right.busy (by simpa [Frame.isFinished] using hover.2), if_pos hover.1]
    exact ⟨n, runSteps_of_finished hs hc, (h.atRest hB ho hover.2).1⟩
  | next hover hcalm hs hret ih =>
    intro n left h hc
    rcases h.step hq hB hover hcalm hs run' with ⟨n', hs', h'⟩ | ⟨n', hs', hend⟩
    · obtain ⟨left', hc', hrun⟩ := runSteps_of_pending hs' hc
      obtain ⟨x, hx, hend⟩ := ih h'.counted hc'
      exact ⟨x, hrun.trans hx, hend⟩
    · -- the step counter is all that the first machine still changes
      rw [hret.eq_of_isOver hend.isOver]
      exact ⟨n', runSteps_of_finished hs' hc, (alike_counted _).symm.trans hend.alike, hend.main,
        hend.alone, hend.isOver, hend.frames⟩

end Lockstep

end Machine

end BlockMachine
