import BlockMachine.Proofs.Machine.Observers

/-!
# Mirroring a machine

A recorder hears enough to keep a copy of the value stack and to count the frames, whatever the
machine does: nothing is pushed or popped, opened or closed behind its back, and nothing is reported
that did not happen.

* `reenact` — the copy of the value stack that a log leads to; unlike `replay` it fails where the
  log pops what is not on top;
* `Attributed` — operands are reported as consumed right after they are popped;
* `Mirrors events m n` — between `m` and `n` a recorder has heard `events`, and can tell `n` by
  them; `Mirrors.trans`;
* `Follows m n` — it can do so by some events; `follows_kept`, `Follows.insert`, `Follows.evaluate`,
  `Follows.step` — every operation, block and step is followed;
* `Driven` — what a host does with a machine, one call after the other; `Driven.mirrors`.
-/

namespace BlockMachine

/-! ## Logs -/

/-- Whether a child frame was opened. -/
def Event.opens : Event → Bool
  | .opened _ => true
  | _ => false

/-- Whether a child frame was closed. -/
def Event.closes : Event → Bool
  | .closed _ => true
  | _ => false

/-- Whether an event is about neither the value stack nor the number of frames. -/
def Event.isRemark : Event → Bool
  | .evaluated _ | .spliced _ | .assigned .. | .stored .. => true
  | _ => false

theorem Event.isRemark_of_isAside {e : Event} (h : e.isAside = true) : e.isRemark = true := by
  cases e with
  | assigned name b parameter => rfl
  | stored object name b => rfl
  | _ => cases h

/-- The stack that pushes and pops of a log lead to from the stack at its start, if every popped
block is on top when it is popped. The latest event comes first. -/
def reenact (start : List Block) : List Event → Option (List Block)
  | [] => some start
  | .pushed b :: earlier => (reenact start earlier).map (b :: ·)
  | .popped b :: earlier =>
    match reenact start earlier with
    | some (top :: rest) => if top = b then some rest else none
    | _ => none
  | _ :: earlier => reenact start earlier

/-- Every block that is reported as consumed was popped by the event before. -/
def Attributed : List Event → Prop
  | [] => True
  | .consumed b _ :: earlier => earlier.head? = some (.popped b) ∧ Attributed earlier
  | _ :: earlier => Attributed earlier

section Logs

variable {events later earlier : List Event}

/-- A log is reenacted part by part. -/
theorem reenact_append (start : List Block) (later earlier : List Event) :
    reenact start (later ++ earlier) = (reenact start earlier).bind (reenact · later) := by
  induction later with
  | nil => simp [reenact]
  | cons e later ih =>
    cases e with
    | pushed b =>
      simp only [List.cons_append, reenact, ih]
      cases reenact start earlier with
      | none => rfl
      | some values => rfl
    | popped b =>
      simp only [List.cons_append, reenact, ih]
      cases reenact start earlier with
      | none => rfl
      | some values => rfl
    | _ => exact ih

theorem Attributed.append (hl : Attributed later) (he : Attributed earlier) :
    Attributed (later ++ earlier) := by
  induction later with
  | nil => exact he
  | cons e later ih =>
    cases e with
    | consumed b consumer =>
      obtain ⟨hhead, hl⟩ := hl
      refine ⟨?_, ih hl⟩
      change (later ++ earlier).head? = _
      rw [List.head?_append, hhead]
      rfl
    | _ => exact ih hl

/-- Remarks change nothing of what a log tells. -/
theorem reenact_remarks (start : List Block) (h : ∀ e ∈ events, e.isRemark = true) :
    reenact start events = some start ∧ events.countP Event.opens = 0 ∧
      events.countP Event.closes = 0 ∧ Attributed events := by
  induction events with
  | nil => exact ⟨rfl, rfl, rfl, trivial⟩
  | cons e events ih =>
    obtain ⟨he, h⟩ := List.forall_mem_cons.1 h
    obtain ⟨hvalues, hopened, hclosed, hconsumed⟩ := ih h
    cases e with
    | evaluated b => exact ⟨hvalues, hopened, hclosed, hconsumed⟩
    | spliced f => exact ⟨hvalues, hopened, hclosed, hconsumed⟩
    | assigned name b parameter => exact ⟨hvalues, hopened, hclosed, hconsumed⟩
    | stored object name b => exact ⟨hvalues, hopened, hclosed, hconsumed⟩
    | _ => cases he

end Logs

namespace Machine

/-! ## Mirrors -/

/-- What a recorder hears between two states of a machine, and what it can tell from it. -/
structure Mirrors (events : List Event) (m n : Machine) : Prop where
  heard : n.world.log = events ++ m.world.log
  /-- The pushes and pops, done in order on a copy of the first value stack, never pop an empty
  stack, pop what they say they pop, and give the second value stack. -/
  values : reenact m.values events = some n.values
  /-- The opened frames less the closed ones are those by which the chain has grown. -/
  frames : (events.countP Event.opens : Int) - events.countP Event.closes =
    n.frames.length - m.frames.length
  /-- What is consumed has just been popped. -/
  consumed : Attributed events

/-- One state comes after another, all the way heard by a recorder. -/
def Follows (m n : Machine) : Prop :=
  n.view = .recorder ∧ ∃ events, Mirrors events m n

section Mirrors

variable {env : Environment} {run : Runner} {a l m n : Machine} {events later earlier : List Event}

theorem Mirrors.trans (h : Mirrors earlier l m) (h' : Mirrors later m n) :
    Mirrors (later ++ earlier) l n where
  heard := by rw [h'.heard, h.heard, List.append_assoc]
  values := by rw [reenact_append, h.values, Option.bind_some, h'.values]
  frames := by
    have hf := h.frames
    have hf' := h'.frames
    rw [List.countP_append, List.countP_append]
    omega
  consumed := h'.consumed.append h.consumed

theorem Follows.trans (h : Follows a m) (hview : n.view = .recorder) (events : List Event)
    (h' : Mirrors events m n) : Follows a n := by
  obtain ⟨-, earlier, hm⟩ := h
  exact ⟨hview, events ++ earlier, hm.trans h'⟩

theorem frames_length (m : Machine) : m.frames.length = m.outer.length + 1 := rfl

/-- Remarks are all that is heard of what changes neither the value stack nor the number of
frames. -/
theorem Follows.remarks (h : Follows a m) (hview : n.view = m.view) (hvalues : n.values = m.values)
    (hdepth : n.outer.length = m.outer.length)
    (hlog : Longer (fun e => e.isRemark = true) m.world.log n.world.log) : Follows a n := by
  obtain ⟨events, hremarks, hlog⟩ := hlog
  obtain ⟨hreenact, hopened, hclosed, hconsumed⟩ := reenact_remarks m.values hremarks
  refine h.trans (hview.trans h.1) events ⟨hlog, ?_, ?_, hconsumed⟩
  · rw [hreenact, hvalues]
  · rw [hopened, hclosed, frames_length, frames_length, hdepth]
    omega

theorem Follows.of_eq (h : Follows a m) (hview : n.view = m.view) (hvalues : n.values = m.values)
    (hdepth : n.outer.length = m.outer.length) (hlog : n.world.log = m.world.log) : Follows a n :=
  h.remarks hview hvalues hdepth (hlog ▸ .refl _)

/-- What a recorder hears. -/
theorem recorder_log (h : m.view = .recorder) (e : Event) :
    (m.notify e).world.log = e :: m.world.log := by
  rw [notify_log, h]
  rfl

theorem Follows.notify (h : Follows a m) {e : Event} (he : e.isRemark = true) :
    Follows a (m.notify e) := by
  refine h.remarks (by simp) (by simp) (by simp) ?_
  rw [recorder_log h.1]
  exact (Longer.refl _).cons he

theorem Follows.push (h : Follows a m) (b : Block) : Follows a (m.push b) := by
  refine h.trans (by rw [push_view, h.1]; rfl) [.pushed b] ⟨?_, ?_, ?_, trivial⟩
  · exact recorder_log h.1 (.pushed b)
  · simp [reenact]
  · rw [frames_length, frames_length, (push_rest m b).2.1]
    simp [Event.opens, Event.closes]

/-- A pop is heard, and with it who takes the block. -/
theorem Follows.pop (h : Follows a m) (c : Option Block) : Follows a (m.pop c).2 := by
  cases hv : m.values with
  | nil =>
    rw [pop_nil hv]
    exact h
  | cons b rest =>
    -- the one or two events of a pop
    have hpop : ∀ events : List Event, (m.pop c).2.world.log = events ++ m.world.log →
        reenact m.values events = some rest →
        (events.countP Event.opens = 0 ∧ events.countP Event.closes = 0) → Attributed events →
        Follows a (m.pop c).2 := by
      rintro events hlog hreenact ⟨hopened, hclosed⟩ hconsumed
      refine h.trans ?_ events ⟨hlog, ?_, ?_, hconsumed⟩
      · rw [pop_view, h.1]
        split <;> rfl
      · rw [hreenact, pop_values, hv]
        rfl
      · rw [hopened, hclosed, frames_length, frames_length, (pop_rest m c).2.1]
        omega
    have hfirst := recorder_log h.1 (.popped b)
    have hsecond : ∀ e, ((m.notify (.popped b)).notify e).world.log =
        e :: .popped b :: m.world.log := by
      intro e
      rw [recorder_log (by simp [h.1]), hfirst]
    cases c with
    | none =>
      refine hpop [.popped b] ?_ (by simp [reenact, hv]) ⟨rfl, rfl⟩ trivial
      simp only [Machine.pop, hv]
      exact hfirst
    | some c =>
      refine hpop [.consumed b c, .popped b] ?_ (by simp [reenact, hv]) ⟨rfl, rfl⟩ ⟨rfl, trivial⟩
      simp only [Machine.pop, hv]
      exact hsecond _

/-! ## Operations -/

/-- The primitives are followed. -/
theorem follows_kept (a : Machine) : Kept (Follows a) where
  push b h := h.push b
  pop c h := h.pop c
  alloc s h := h.of_eq rfl rfl rfl rfl
  roll h := by
    rw [roll_eq]
    exact h.of_eq rfl rfl rfl rfl
  nextAnonymous h := h.of_eq rfl rfl rfl rfl
  setVariable h hs := by
    obtain ⟨n, memory, rfl | rfl, rfl⟩ := setVariable_cases hs
    · exact h.of_eq rfl rfl rfl rfl
    · exact (h.notify rfl).of_eq rfl rfl rfl rfl

theorem Follows.assign (h : Follows a m) (name : String) (b : Block) (parameter : Bool) :
    Follows a (m.assign name b parameter) := by
  have hnews : ∀ (news : List Bool) {m : Machine}, Follows a m →
      Follows a (news.foldl (fun m p => m.notify (.assigned name b p)) m) := by
    intro news
    induction news with
    | nil =>
      intro m h
      exact h
    | cons p news ih =>
      intro m h
      exact ih (h.notify rfl)
  have hlength : (Frame.assignAll (fun old => !m.heap.equals b old) name b parameter
      m.frames).1.length = m.frames.length := by
    rw [Frame.assignAll_fst]
    simpa using congrArg List.length (Frame.bindUp_programs name b parameter m.frames)
  rw [Machine.assign]
  generalize Frame.assignAll (fun old => !m.heap.equals b old) name b parameter m.frames = x
    at hlength ⊢
  obtain ⟨_ | ⟨active, outer⟩, news⟩ := x
  · exact hnews news h
  · exact hnews news (h.of_eq rfl rfl (by simpa [frames_length] using hlength) rfl)

theorem Follows.assignEach (withParameters : Bool) (bindings : Keyed Binding) :
    ∀ {m : Machine}, Follows a m → Follows a (m.assignEach withParameters bindings) := by
  induction bindings with
  | nil =>
    intro m h
    exact h
  | cons p bindings ih =>
    intro m h
    obtain ⟨name, v⟩ := p
    apply ih
    simp only
    split
    · exact h.assign name v.block false
    · exact h

/-- Parameters are popped, and the load is remarked on. -/
theorem Follows.load (h : Follows a m) (env : Environment) (s : Stack) :
    Follows a (m.load env s) := by
  have hR := eq_congruent.and_kept (follows_kept a) (follows_kept a)
  obtain ⟨bound, m', n', hm, -, -, h', -⟩ := (hR.popInputs ⟨rfl, h, h⟩ s.inputs.reverse).elim
  rw [Machine.load, hm]
  split
  · exact h.push _
  · refine Follows.notify ?_ rfl
    split
    · exact h'
    · exact h'.of_eq rfl rfl rfl rfl

/-- A child that is opened is heard of when it has its program. -/
theorem Mirrors.opened (h : Mirrors events m n) (hview : n.view = .recorder)
    (hvalues : l.values = m.values) (hlog : l.world.log = m.world.log)
    (hdepth : m.outer.length = l.outer.length + 1) (f : Frame) :
    Mirrors (.opened f :: events) l (n.notify (.opened f)) where
  heard := by rw [recorder_log hview, h.heard, hlog, List.cons_append]
  values := by simpa [reenact, hvalues] using h.values
  frames := by
    have hf := h.frames
    rw [frames_length, frames_length] at hf ⊢
    simp only [List.countP_cons, Event.opens, Event.closes, notify_rest, if_true,
      Bool.false_eq_true, if_false]
    omega
  consumed := h.consumed

theorem Follows.insert (h : Follows a m) (env : Environment) (s : Stack) :
    Follows a (m.insert env s) := by
  cases hfin : m.active.isFinished with
  | true =>
    rw [insert_of_finished hfin]
    exact h.load env s
  | false =>
    rw [insert_of_unfinished hfin, insertChild]
    -- the load is followed from the machine that has the child
    have hchild : Follows { m with active := Frame.empty, outer := waiting m.active :: m.outer }
        { m with active := Frame.empty, outer := waiting m.active :: m.outer } :=
      ⟨h.1, [], rfl, rfl, by simp, trivial⟩
    obtain ⟨hview, events, hload⟩ := hchild.load env s
    exact h.trans (by simpa using hview) _ (hload.opened (l := m) hview rfl rfl rfl _)

/-! ## Blocks -/

/-- What nested machines do to the world is followed, as far as it is heard. -/
theorem Follows.world (h : Follows a m) {w : World} (hw : Asides m.world.log w.log) :
    Follows a { m with world := w } :=
  h.remarks rfl rfl rfl (hw.mono fun _ => Event.isRemark_of_isAside)

theorem follows_sheltered (hrun : Hushes run) (a : Machine) : Sheltered (Follows a) env run where
  sample h bindings values s := h.world (hrun (hushed_trial env _ _ bindings values s _)).log
  isolate {m} loc h _ := by
    have hstart : Follows a (m.obfuscate loc false) := h.of_eq rfl rfl rfl rfl
    have hsub := hrun (hushed_isolated env ((m.obfuscate loc false).heap.get loc)
      (m.obfuscate loc false))
    rw [callIsolated]
    rcases hr : run ((m.obfuscate loc false).isolated env ((m.obfuscate loc false).heap.get loc))
      with ⟨result, sub⟩
    rw [hr] at hsub
    have hback := (hstart.world hsub.log).assignEach false sub.mainFrame.bindings
    exact ((follows_kept a).adopt hback result sub).of_eq rfl rfl rfl rfl

/-- An operator that samples keeps a property that its trials keep. -/
theorem Sheltered.operate {P : Machine → Prop} (hS : Sheltered P env run) {op : Operator}
    (hop : op.isCalculus = true) (this : Block) (overload : Nat) (operands : List Block) (h : P m) :
    P (m.operate (splicing env run) env this op overload operands).2 := by
  have htry : Tries (fun w w' => w = w' ∧ P { m with world := w }) env run run m m := by
    rintro bindings values s w w' ⟨rfl, hw⟩
    exact ⟨rfl, rfl, hS.sample hw bindings values s⟩
  obtain ⟨-, -, hworld⟩ := operate_alike hop (splicing env run) (splicing env run) env this overload
    operands rfl rfl rfl ⟨rfl, h⟩ htry
  obtain ⟨w, hw⟩ := operate_calculus hop (splicing env run) env this overload operands m
  rw [hw] at hworld ⊢
  exact hworld

/-- Every block keeps a property that the primitives keep, if assignments, stacks that are run and
nested machines do. -/
theorem Sheltered.evaluate {P : Machine → Prop} (hS : Sheltered P env run) (hP : Kept P)
    (hassign : ∀ {m} (name : String) (b : Block), P m → P (m.assign name b false))
    (hinsert : ∀ {m} (s : Stack), P m → P (m.insert env s)) (this : Block) (h : P m) :
    P (m.evaluate (splicing env run) env this) := by
  have hR := eq_congruent.and_kept hP hP
  have hmove : ∀ {x y : Machine}, Joint (fun m n => m = n ∧ P m ∧ P n) (Machine.insert env)
      (Machine.insert env) x y → P x := by
    intro x y hjoint
    cases hjoint with
    | stay h => exact h.2.1
    | enter s h => exact hinsert s h.2.1
    | bind name b h => exact hassign name b h.2.1
  cases hp : m.isPlain this with
  | true =>
    have hjoint := hR.evaluate_joint ⟨rfl, h, h⟩ (splicing env run) (splicing env run) env
      (fun _ => rfl) this hp (fun _ => eq_rolling.and_kept hP hP)
      (fun _ => eq_naming.and_kept hP hP)
    exact hmove hjoint
  | false =>
    rcases cases_of_not_plain hp with ⟨op, rfl, hop⟩ | ⟨name, target, loc, rfl, hloc⟩ | ⟨ext, rfl⟩
    · obtain ⟨taken, m', n', hm, -, -, h', -⟩ :=
        (hR.takeFor ⟨rfl, h, h⟩ env (.operator op) op).elim
      simp only [Machine.evaluate, evaluateOperator, hm]
      cases taken with
      | none => exact h'
      | some taken =>
        obtain ⟨operands, overload⟩ := taken
        have hworld := hS.operate hop (.operator op) overload operands h'
        simp only
        generalize m'.operate (splicing env run) env (.operator op) op overload operands = x
          at hworld ⊢
        obtain ⟨_ | b, m''⟩ := x
        · exact hworld
        · exact hP.push b hworld
    · simp only [Machine.evaluate]
      rw [call_of_isolates? hloc]
      exact hS.isolate loc h (obfuscated_of_isolates? hloc)
    · simp only [Machine.evaluate]
      split
      · exact hP.push _ h
      · exact (hR.respread ⟨rfl, h, h⟩ _ _ _).2.1

theorem Follows.evaluate (h : Follows a m) (hrun : Hushes run) (this : Block) :
    Follows a (m.evaluate (splicing env run) env this) :=
  (follows_sheltered hrun a).evaluate (follows_kept a) (fun name b h => h.assign name b false)
    (fun s h => h.insert env s) this h

/-! ## Steps -/

theorem Follows.closeFrame (h : Follows a m) : Follows a m.closeFrame := by
  rw [Machine.closeFrame]
  split
  · exact h
  · rename_i parent outer ho
    refine h.trans (by simpa using h.1) [.closed m.active] ⟨?_, ?_, ?_, trivial⟩
    · exact recorder_log (m := { m with
        active := { parent with program := parent.program.tail }, outer := outer }) h.1 _
    · simp [reenact]
    · rw [frames_length, frames_length, ho]
      simp [Event.opens, Event.closes]

theorem Follows.stepFrame (h : Follows a m) (hq : env.Quiet) (hrun : Hushes run) :
    Follows a (m.stepFrame (splicing env run) env).2 := by
  have hdone : ∀ {x : Machine} (finished : Prop) [Decidable finished], Follows a x →
      Follows a (if finished then (Progress.finished, x.afterFrame env)
        else (Progress.pending, x)).2 := by
    intro x finished _ hx
    rw [afterFrame_of_quiet hq]
    split <;> exact hx
  rcases hp : m.active.program with _ | ⟨b | _, rest⟩
  · rw [stepFrame_nil hp]
    exact h
  · rw [stepFrame_block hp]
    have hrest : Follows a (m.withProgram rest) := h.of_eq rfl rfl rfl rfl
    exact hdone _ ((hrest.evaluate hrun b).notify rfl)
  · rw [stepFrame_child hp]
    have hrest : Follows a (m.withProgram rest) := h.of_eq rfl rfl rfl rfl
    exact hdone _ (hrest.push _)

theorem Follows.step (h : Follows a m) (hq : env.Quiet) (hrun : Hushes run) :
    Follows a (m.step (splicing env run) env).2 := by
  have hframe := h.stepFrame hq hrun
  rw [Machine.step]
  generalize m.stepFrame (splicing env run) env = x at hframe ⊢
  obtain ⟨p, n⟩ := x
  split
  · exact h
  · split
    · exact hframe
    · cases p with
      | finished => exact hframe.closeFrame
      | pending => exact hframe

end Mirrors

/-! ## Hosts -/

/-- A state that a host brings a machine into by running stacks and taking steps. -/
inductive Driven (env : Environment) (m : Machine) : Machine → Prop where
  | start : Driven env m m
  | insert {n : Machine} (s : Stack) : Driven env m n → Driven env m (n.insert env s)
  | advance {n : Machine} : Driven env m n → Driven env m (n.advance env).2

/-- **A machine can be mirrored.** After every call of a host, what a recorder has heard tells the
value stack and the number of frames, and who took which operand. -/
theorem Driven.mirrors {env : Environment} (hq : env.Quiet) {m n : Machine}
    (hview : m.view = .recorder) (h : Driven env m n) : ∃ events, Mirrors events m n := by
  have hfollows : Follows m n := by
    induction h with
    | start => exact ⟨hview, [], rfl, rfl, by simp, trivial⟩
    | insert s _ ih => exact ih.insert env s
    | advance _ ih => exact ih.step hq (fun h => runAt_hushes env _ h)
  exact hfollows.2

/-- A machine with a recorder, which is about to call a marked stack and then to add. -/
def overheard : Machine :=
  { swapper with view := .recorder }.insert Environment.standard
    (Stack.make "main" [.code "f" (some 0), .operator .plus, .string "c"])

/-- The call takes a block and gives one, the sum fails, and a child is opened and closed. -/
theorem mirrors_overheard :
    let n := ((((overheard.advance Environment.standard).2.advance Environment.standard).2.insert
      Environment.standard (Stack.make "g" [.string "d"])).advance Environment.standard).2
    Environment.standard.Quiet ∧ overheard.view = .recorder ∧
      Driven Environment.standard overheard n ∧
      n.world.log.countP (fun e => !e.isRemark) = 10 ∧ n.values.length = 2 ∧
      ∃ events, Mirrors events overheard n := by
  have hq : Environment.standard.Quiet := fun e he => absurd he List.not_mem_nil
  have hstart : Driven Environment.standard overheard overheard := .start
  have hdriven := (hstart.advance.advance.insert (Stack.make "g" [.string "d"])).advance
  exact ⟨hq, by rfl, hdriven, by decide +kernel, by decide +kernel, hdriven.mirrors hq (by rfl)⟩

end Machine

end BlockMachine
