import BlockMachine.Proofs.Heap.Update
import BlockMachine.Proofs.Machine.Lockstep

/-!
# Isolated calls

A call of a marked stack runs on a nested machine, of which only the net effect comes back. Compared
with an inline call of the same stack, the nested machine lacks one thing: it starts from the
variables of the caller's active frame and sees none of the frames around it.

* `Intact` — the observer of an isolated call counts right, and the blocks that it takes for untouched
  are the caller's; `adopt_values` — so the value stack is put together again;
* `lockstep_isolated` — if the active frame shows all variables, nested machine and inline call start
  in lockstep;
* `isolated_call_agrees_iff` — isolated and inline calls agree for all stacks exactly then.
-/

namespace BlockMachine.Machine

/-! ## The observer -/

/-- The observer of the machine has counted right: its `untouched` lowest values are those that were
there at the start. -/
def Intact (start : List Block) (m : Machine) : Prop :=
  ∃ parent parameters untouched,
    m.view = .isolated parent parameters m.values.length untouched ∧ untouched ≤ m.values.length ∧
      untouched ≤ start.length ∧ m.values.reverse.take untouched = start.reverse.take untouched

section Intact

variable {start : List Block} {m n : Machine}

theorem Intact.of_eq (h : Intact start m) (hv : n.values = m.values) (hw : n.view = m.view) :
    Intact start n := by
  rw [Intact] at h ⊢
  rw [hv, hw]
  exact h

theorem Intact.push (h : Intact start m) (b : Block) : Intact start (m.push b) := by
  obtain ⟨parent, parameters, u, hview, hu, hstart, htake⟩ := h
  refine ⟨parent, parameters, u, ?_, ?_, hstart, ?_⟩
  · simp [hview, View.pushed]
  · simp
    omega
  · rw [push_values, List.reverse_cons, List.take_append_of_le_length (by simpa using hu), htake]

theorem Intact.pop (h : Intact start m) (c : Option Block) : Intact start (m.pop c).2 := by
  cases hv : m.values with
  | nil =>
    refine h.of_eq ?_ ?_
    · simp [hv]
    · simp [hv]
  | cons b rest =>
    obtain ⟨parent, parameters, u, hview, hu, hstart, htake⟩ := h
    rw [hv] at htake hview hu
    refine ⟨parent, parameters, min u rest.length, ?_, ?_, ?_, ?_⟩
    · simp [hv, hview, View.popped]
    · rw [pop_values, hv]
      exact Nat.min_le_right _ _
    · omega
    · have hcut := congrArg (List.take rest.length) htake
      rw [List.take_take, List.take_take, List.reverse_cons] at hcut
      rw [pop_values, hv, List.tail_cons, Nat.min_comm, ← hcut,
        List.take_append_of_le_length (by rw [List.length_reverse]; exact Nat.min_le_left _ _)]

/-- Running a stack keeps it, as it takes no notice of frames. -/
theorem Intact.insert (h : Intact start m) (env : Environment) (s : Stack) :
    Intact start (m.insert env s) :=
  insert_keeps (fun h b => h.push b) (fun h c => h.pop c) (fun h _ _ => h.of_eq rfl rfl)
    (fun h _ => h.of_eq rfl rfl) env s h

/-- Every block keeps the observer right, also one that runs nested machines. -/
theorem intact_stable (start : List Block) (env : Environment) (run : Runner) :
    Stable (splicing env run) (Intact start) where
  push b h := h.push b
  pop c h := h.pop c
  alloc s h := h.of_eq rfl rfl
  roll {m} h := by
    rw [roll_eq]
    exact h.of_eq rfl rfl
  nextAnonymous h := h.of_eq rfl rfl
  setVariable h hs := by
    obtain ⟨memory, changed, log, -, rfl⟩ := setVariable_eq hs
    exact h.of_eq rfl rfl
  assign name b h := by
    obtain ⟨a, o, log, -, ha⟩ := assign_eq name b false _
    rw [ha]
    exact h.of_eq rfl rfl
  insert s h := h.insert env s
  nested w h := h.of_eq rfl rfl

/-- A step keeps the observer right. -/
theorem Intact.step (h : Intact start m) {env : Environment} (hq : env.Quiet) (run : Runner) :
    Intact start (m.step (splicing env run) env).2 := by
  have hclose : ∀ {m : Machine}, Intact start m → Intact start m.closeFrame := by
    intro m h
    rw [closeFrame]
    split
    · exact h
    · exact h.of_eq (by simp) (by simp)
  have hP := intact_stable start env run
  have hframe : Intact start (m.stepFrame (splicing env run) env).2 := by
    rcases hp : m.active.program with _ | ⟨b | _, rest⟩
    · rw [stepFrame_nil hp]
      exact h
    · have hb : Intact start (m.afterBlock (splicing env run) env b rest) := by
        have hrest : Intact start (m.withProgram rest) := h.of_eq rfl rfl
        exact hP.notify (.evaluated b) (hP.evaluate env b hrest)
      rw [stepFrame_block hp, afterFrame_of_quiet hq]
      split
      · exact hb
      · exact hb
    · have hb : Intact start ((m.withProgram rest).push (missingChild env.localizer)) := by
        have hrest : Intact start (m.withProgram rest) := h.of_eq rfl rfl
        exact hrest.push _
      simp only [stepFrame, hp, afterFrame_of_quiet hq]
      split
      · exact hb
      · exact hb
  rw [Machine.step]
  split
  · exact h
  · split
    · exact hframe
    · generalize m.stepFrame (splicing env run) env = x at hframe
      obtain ⟨_ | _, m'⟩ := x
      · exact hframe
      · exact hclose hframe

/-- A run keeps the observer right. -/
theorem Intact.runSteps {env : Environment} (hq : env.Quiet) (run : Runner) (left : Nat) :
    ∀ {m : Machine}, Intact start m → Intact start (m.runSteps (splicing env run) env left).2 := by
  induction left with
  | zero =>
    intro m h
    exact h
  | succ left ih =>
    intro m h
    have hs := h.step hq run
    rw [Machine.runSteps]
    rcases hm : m.step (splicing env run) env with ⟨_ | _, m'⟩
    · rw [hm] at hs
      exact ih (hs.of_eq rfl rfl)
    · rw [hm] at hs
      exact hs

end Intact

/-! ## What comes back -/

/-- Pushing blocks reaches the value stack, the log and the observer. -/
theorem pushAll_eq (bs : List Block) :
    ∀ m : Machine, (m.pushAll bs).values = bs.reverse ++ m.values ∧
      (m.pushAll bs).world.store = m.world.store ∧
      (m.pushAll bs).world.memory = m.world.memory := by
  induction bs with
  | nil =>
    intro m
    exact ⟨rfl, rfl, rfl⟩
  | cons b bs ih =>
    intro m
    obtain ⟨hv, hs, hm⟩ := ih (m.push b)
    refine ⟨?_, ?_, ?_⟩
    · change ((m.push b).pushAll bs).values = _
      rw [hv]
      simp
    · exact hs.trans (by simp)
    · exact hm.trans (by simp)

theorem drop_eq (k : Nat) :
    ∀ m : Machine, (m.drop k).values = m.values.drop k ∧ (m.drop k).world.store = m.world.store ∧
      (m.drop k).world.memory = m.world.memory := by
  induction k with
  | zero =>
    intro m
    exact ⟨rfl, rfl, rfl⟩
  | succ k ih =>
    intro m
    obtain ⟨hv, hs, hm⟩ := ih (m.pop none).2
    refine ⟨?_, ?_, ?_⟩
    · change ((m.pop none).2.drop k).values = _
      rw [hv, pop_values, List.drop_tail]
    · exact hs.trans (by simp)
    · exact hm.trans (by simp)

/-- **The net effect.** A caller that takes over what its isolated call left has the values of the
nested machine. -/
theorem adopt_eq {m sub : Machine} (h : Intact m.values sub)
    (hfin : sub.mainFrame.isFinished = true) :
    (m.adopt sub.result sub).values = sub.values ∧
      (m.adopt sub.result sub).world.store = m.world.store ∧
      (m.adopt sub.result sub).world.memory = m.world.memory := by
  obtain ⟨parent, parameters, u, hview, hu, hstart, htake⟩ := h
  have hkept : min sub.view.untouched m.values.length = u := by
    rw [hview]
    exact Nat.min_eq_left hstart
  rw [adopt]
  rw [if_pos hfin, hkept]
  obtain ⟨hpv, hps, hpm⟩ := pushAll_eq (sub.result.drop u) (m.drop (m.values.length - u))
  obtain ⟨hdv, hds, hdm⟩ := drop_eq (m.values.length - u) m
  refine ⟨?_, hps.trans hds, hpm.trans hdm⟩
  have hlow : m.values.drop (m.values.length - u) = (sub.values.reverse.take u).reverse := by
    rw [htake, List.take_reverse, List.reverse_reverse]
  rw [hpv, hdv, hlow, result, ← List.reverse_append, List.take_append_drop, List.reverse_reverse]

/-! ## The nested machine -/

/-- Assignments change the frames and are heard of. -/
theorem assignEach_eq (withParameters : Bool) (bindings : Keyed Binding) :
    ∀ m : Machine, ∃ active outer log, m.assignEach withParameters bindings =
      { m with active := active, outer := outer, world := { m.world with log } } := by
  induction bindings with
  | nil =>
    intro m
    exact ⟨m.active, m.outer, m.world.log, rfl⟩
  | cons p bindings ih =>
    intro m
    obtain ⟨name, v⟩ := p
    have hassign : ∃ active outer log,
        (if withParameters || !v.parameter then m.assign name v.block false else m) =
          { m with active := active, outer := outer, world := { m.world with log } } := by
      split
      · obtain ⟨active, outer, log, -, ha⟩ := assign_eq name v.block false m
        exact ⟨active, outer, log, ha⟩
      · exact ⟨m.active, m.outer, m.world.log, rfl⟩
    obtain ⟨active, outer, log, ha⟩ := hassign
    obtain ⟨active', outer', log', ha'⟩ := ih
      { m with active := active, outer := outer, world := { m.world with log } }
    refine ⟨active', outer', log', ?_⟩
    rw [assignEach] at ha' ⊢
    rw [List.foldl_cons]
    simp only [ha]
    exact ha'

/-- Binds all names of a map in a chain of frames. -/
def bindAll (bindings : Keyed Binding) (fs : List Frame) : List Frame :=
  bindings.foldl (fun fs p => Frame.bindUp p.1 p.2.block false fs) fs

/-- The frames after all variables of a frame are assigned. -/
theorem assignEach_frames (bindings : Keyed Binding) :
    ∀ m : Machine, (m.assignEach true bindings).frames = bindAll bindings m.frames := by
  induction bindings with
  | nil =>
    intro m
    rfl
  | cons p bindings ih =>
    intro m
    have := ih (m.assign p.1 p.2.block false)
    rw [assign_frames] at this
    exact this

/-- A frame into which all variables of a map are assigned shows them, and has the program that it
had. -/
theorem bindAll_singleton (bindings : Keyed Binding) (hkeys : (bindings.map Prod.fst).Nodup) :
    ∀ f : Frame, ∃ g : Frame, bindAll bindings [f] = [g] ∧ g.program = f.program ∧
      ∀ name, Frame.fetch [g] name =
        ((bindings.find? name).map Binding.block).or (Frame.fetch [f] name) := by
  induction bindings with
  | nil =>
    intro f
    exact ⟨f, rfl, rfl, fun name => rfl⟩
  | cons p bindings ih =>
    intro f
    obtain ⟨key, v⟩ := p
    rw [List.map_cons, List.nodup_cons] at hkeys
    obtain ⟨g, hg, hp, hfetch⟩ := ih hkeys.2 (f.bind key (f.isParameter key) v.block)
    refine ⟨g, ?_, hp, ?_⟩
    · rw [bindAll] at hg ⊢
      rw [List.foldl_cons, Frame.bindUp_singleton]
      exact hg
    · intro name
      rw [hfetch name, Frame.fetch_cons, Frame.fetch_cons]
      by_cases hne : name = key
      · rw [hne, Keyed.find?_eq_none hkeys.1, Frame.find?_bind_self]
        simp [Keyed.find?]
      · have hne' : (name == key) = false := by simpa using hne
        rw [Frame.find?_bind_of_ne f _ _ hne]
        simp only [Keyed.find?, List.lookup_cons, hne']

/-- The machine with its active frame as its only one. -/
def alone (m : Machine) : Machine :=
  { m with outer := [] }

/-- The nested machine of an isolated call before the called stack is loaded: it has the caller's
values and world, and one frame with nothing to run that shows what the caller's active frame
shows. -/
theorem isolated_start (env : Environment) (s : Stack) {m : Machine}
    (hkeys : (m.active.bindings.map Prod.fst).Nodup) :
    ∃ sub : Machine, m.isolated env s = sub.insert env s ∧ sub.maxSteps = m.remainingBudget ∧
      sub.anonymous = 0 ∧
      sub.values = m.values ∧ sub.workspace = m.workspace ∧ sub.world.store = m.world.store ∧
      sub.world.memory = m.world.memory ∧ Intact m.values sub ∧ sub.outer = [] ∧
      sub.active.program = [] ∧ ∀ name, sub.recalled env name = m.alone.recalled env name := by
  let fresh : Machine := { m.nested m.remainingBudget with values := m.values }
  have hframes := assignEach_frames m.active.bindings fresh
  obtain ⟨g, hg, hp, hfetch⟩ := bindAll_singleton m.active.bindings hkeys Frame.empty
  rw [show fresh.frames = [Frame.empty] from rfl, hg] at hframes
  obtain ⟨active, outer, log, ha⟩ := assignEach_eq true m.active.bindings fresh
  rw [ha] at hframes
  obtain ⟨rfl, rfl⟩ := List.cons.inj hframes
  refine ⟨{ fresh.assignEach true m.active.bindings with
    view := .isolated m.view m.active.parameters m.values.length m.values.length }, rfl, ?_⟩
  rw [ha]
  refine ⟨rfl, rfl, rfl, rfl, rfl, rfl, ⟨_, _, _, rfl, Nat.le_refl _, Nat.le_refl _, rfl⟩, rfl, hp, ?_⟩
  intro name
  rw [recalled_eq_seen, recalled_eq_seen]
  have hshown : Frame.fetch [active] name = Frame.fetch [m.active] name := by
    rw [hfetch name, Frame.fetch_cons m.active]
    rfl
  rw [Frame.seen]
  exact congrArg (fun b => b.getD (unbound env name)) hshown

theorem insert_maxSteps (env : Environment) (s : Stack) (m : Machine) :
    (m.insert env s).maxSteps = m.maxSteps := by
  have hnotify : ∀ (m : Machine) (e : Event), (m.notify e).maxSteps = m.maxSteps := by
    intro m e
    rw [notify_eq]
  refine insert_keeps (P := fun n => n.maxSteps = m.maxSteps) ?_ ?_ ?_ ?_ env s rfl
  · intro n h b
    exact (hnotify n _).trans h
  · intro n h c
    rw [pop]
    split
    · exact h
    · cases c with
      | none => exact (hnotify n _).trans h
      | some c => exact (hnotify _ _).trans ((hnotify n _).trans h)
  · exact fun h _ _ => h
  · exact fun h _ => h

/-- The frames into the first of which a stack is loaded that is run from the active one. -/
def entry (m : Machine) : List Frame :=
  if m.active.isFinished then m.frames else Frame.empty :: waiting m.active :: m.outer

theorem insert_outer_length (env : Environment) (s : Stack) (m : Machine) :
    (m.insert env s).outer.length + 1 = m.entry.length := by
  rw [entry]
  cases hfin : m.active.isFinished with
  | true =>
    rw [insert_of_finished hfin, (load_cases env s m).1]
    rfl
  | false =>
    rw [insert_of_unfinished hfin, (insertChild_cases env s m).1]
    rfl

/-- A stack that is run from the active frame of one machine, and on the only frame of another, starts
in lockstep if the frames are related there. -/
theorem lockstep_insert {unbound : String → Block} {k : Nat} {B : List Frame → Frame → Prop}
    (hB : Frame.Footing unbound k B) (env : Environment) (s : Stack) {m sub : Machine} {naming : Bool}
    (halike : Alike (naming = true) False m sub) (hc : Chained m) (ho : sub.outer = [])
    (hp : sub.active.program = []) (hbase : B m.entry sub.active) :
    Lockstep naming B (m.insert env s) (sub.insert env s) := by
  have hchained : Chained sub := by
    refine ⟨by rw [hp]; exact List.not_mem_nil, ?_⟩
    rw [ho]
    exact fun f hf => absurd hf List.not_mem_nil
  have hsub : sub.frames = [sub.active] := by rw [frames, ho]
  rw [entry] at hbase
  cases hfin : m.active.isFinished with
  | true =>
    rw [hfin, if_pos rfl] at hbase
    obtain ⟨ha, hb⟩ := Lockstep.based_insert hB env s halike (hsub ▸ .base hbase)
    exact ⟨ha, hb, hc.insert env s, hchained.insert env s⟩
  | false =>
    rw [hfin, if_neg Bool.false_ne_true] at hbase
    -- the child that the inline call opens is empty before the stack is loaded
    let opened : Machine := { m with active := Frame.empty, outer := waiting m.active :: m.outer }
    obtain ⟨ha, hb⟩ := Lockstep.based_insert hB env s (m := opened)
      (alike_blind.frames Frame.empty sub.active (waiting m.active :: m.outer) sub.outer halike)
      (hsub ▸ .base hbase)
    rw [insert_of_finished (show opened.active.isFinished = true from rfl)] at ha hb
    refine ⟨?_, ?_, hc.insert env s, hchained.insert env s⟩
    · rw [insert_of_unfinished hfin]
      exact (alike_notify _ _).symm.trans ha
    · rw [insert_of_unfinished hfin]
      have hframes : (insertChild env s m).frames = (opened.load env s).frames := by
        simp [insertChild, frames, opened]
      rw [hframes]
      exact hb

/-- **The start.** If the caller's active frame shows all variables, an inline call and the nested
machine of an isolated call start in lockstep. -/
theorem lockstep_isolated (env : Environment) (s : Stack) {m : Machine} (hc : Chained m)
    (hkeys : (m.active.bindings.map Prod.fst).Nodup) {naming : Bool}
    (hnaming : naming = true → m.anonymous = 0)
    (hshown : ∀ name, m.recalled env name = m.alone.recalled env name) :
    Lockstep naming (Frame.Shows (unbound env) (m.insert env s).outer.length) (m.insert env s)
      (m.isolated env s) := by
  obtain ⟨sub, hsub, -, hanon, hv, hw, hs, hm, -, ho, hp, hrecalled⟩ := isolated_start env s hkeys
  have halike : Alike (naming = true) False m sub :=
    ⟨hv.symm, hw.symm, hs.symm, hm.symm, fun h => (hnaming h).trans hanon.symm, False.elim,
      False.elim⟩
  have hseen : ∀ name, Frame.seen (unbound env) m.frames name =
      Frame.seen (unbound env) [sub.active] name := by
    intro name
    have := (hshown name).trans (hrecalled name).symm
    rw [recalled_eq_seen, recalled_eq_seen] at this
    simp only [frames] at this ⊢
    rw [ho] at this
    exact this
  rw [hsub]
  apply lockstep_insert (Frame.shows_footing _ _) env s halike hc ho hp
  have hlen := insert_outer_length env s m
  rw [entry] at hlen ⊢
  cases hfin : m.active.isFinished with
  | true =>
    have hpm : m.active.program = [] := by simpa [Frame.isFinished] using hfin
    rw [hfin, if_pos rfl] at hlen
    exact ⟨(Nat.add_right_cancel hlen).symm, hpm.trans hp.symm, hseen⟩
  | false =>
    rw [hfin, if_neg Bool.false_ne_true] at hlen
    exact ⟨(Nat.add_right_cancel hlen).symm, hp.symm, hseen⟩

/-! ## Both calls -/

section Calls

variable (env : Environment) (run : Runner) (name : String) (target : Option Loc) (loc : Loc)
  (m : Machine)

/-- The nested machine of an isolated call of the stack at a location. -/
def callee : Machine :=
  (m.obfuscate loc false).isolated env ((m.obfuscate loc false).heap.get loc)

/-- A call of the stack at a location, not marked, runs from `m` to its end in `p`. It evaluates
plain blocks only, rolls no dice and, unless `naming`, names no anonymous stack. -/
def InlineCall (naming : Bool) (p : Machine) : Prop :=
  let x := (m.obfuscate loc false).call (splicing env run) env name target
  Returns (splicing env run) env naming x.outer.length x p

/-- A call of the stack at a location, marked, finishes within the limit of its nested machine and
takes `m` to `q`. -/
def IsolatedCall (q : Machine) : Prop :=
  (∃ depth, run (m.callee env loc) = runAt env (depth + 1) (m.callee env loc) ∧
    (m.callee env loc).started.completes (splicing env (runAt env depth)) env
      (m.callee env loc).maxSteps = true) ∧
    q = (m.obfuscate loc true).call (splicing env run) env name target

variable {env run name target loc m}

theorem resolve_obfuscate (mark : Bool) (b : Block) :
    (m.obfuscate loc mark).resolve b = m.resolve b :=
  Workspace.resolve_modify m.workspace m.heap loc
    (f := fun s => { s with obfuscated := mark }) (fun _ => rfl) b

theorem obfuscate_obfuscate (mark mark' : Bool) :
    (m.obfuscate loc mark).obfuscate loc mark' = m.obfuscate loc mark' := by
  have hheap : (m.heap.modify loc fun s => { s with obfuscated := mark }).modify loc
      (fun s => { s with obfuscated := mark' }) =
      m.heap.modify loc fun s => { s with obfuscated := mark' } :=
    Heap.modify_modify m.heap _ _
  simp only [obfuscate, modifyStack, withStore, heap] at *
  simp only [hheap]

/-- What a call of a stack that is not marked does. -/
theorem call_inline (hres : m.resolve (.code name target) = .code name (some loc))
    (hloc : loc < m.heap.size) :
    (m.obfuscate loc false).call (splicing env run) env name target =
      (m.obfuscate loc false).insert env ((m.obfuscate loc false).heap.get loc) := by
  rw [call]
  rw [resolve_obfuscate, hres]
  have hmark : ((m.obfuscate loc false).heap.get loc).obfuscated = false := by
    change ((m.heap.modify loc fun s => { s with obfuscated := false }).get loc).obfuscated = false
    rw [Heap.get_modify_self _ _ hloc]
  simp only [hmark, Bool.false_eq_true, if_false]
  rfl

/-- What a call of a marked stack does. -/
theorem call_marked (hres : m.resolve (.code name target) = .code name (some loc))
    (hloc : loc < m.heap.size) :
    (m.obfuscate loc true).call (splicing env run) env name target =
      (m.obfuscate loc true).callIsolated run env loc := by
  have hmark : ((m.obfuscate loc true).heap.get loc).obfuscated = true := by
    change ((m.heap.modify loc fun s => { s with obfuscated := true }).get loc).obfuscated = true
    rw [Heap.get_modify_self _ _ hloc]
  rw [call]
  rw [resolve_obfuscate, hres]
  simp only [hmark, if_true]
  rfl

/-- What it leaves if its nested machine finishes. -/
theorem call_isolated (hres : m.resolve (.code name target) = .code name (some loc))
    (hloc : loc < m.heap.size) {sub : Machine} (hrun : run (m.callee env loc) = (sub.result, sub))
    (hi : Intact m.values sub) (hfin : sub.mainFrame.isFinished = true) :
    ((m.obfuscate loc true).call (splicing env run) env name target).values = sub.values ∧
      ((m.obfuscate loc true).call (splicing env run) env name target).world.memory =
        sub.world.memory ∧
      ((m.obfuscate loc true).call (splicing env run) env name target).heap =
        (sub.obfuscate loc true).heap := by
  rw [call_marked hres hloc]
  rw [callIsolated]
  simp only [obfuscate_obfuscate]
  rw [show (m.obfuscate loc false).isolated env ((m.obfuscate loc false).heap.get loc) =
    m.callee env loc from rfl, hrun]
  simp only
  obtain ⟨active, outer, log, ha⟩ := assignEach_eq false sub.mainFrame.bindings
    { (m.obfuscate loc false).withoutWorld with world := sub.world }
  rw [ha]
  obtain ⟨hv, hs, hm⟩ := adopt_eq (m := { (m.obfuscate loc false).withoutWorld with
    active := active, outer := outer, world := { sub.world with log } }) hi hfin
  refine ⟨hv, hm, ?_⟩
  unfold obfuscate modifyStack withStore heap at hs ⊢
  simp only at hs ⊢
  rw [hs]

theorem Intact.callee (env : Environment) (loc : Loc) (m : Machine)
    (hkeys : (m.active.bindings.map Prod.fst).Nodup) : Intact m.values (m.callee env loc) := by
  obtain ⟨sub, hsub, -, -, -, -, -, -, hi, -, -, -⟩ := isolated_start env
    ((m.obfuscate loc false).heap.get loc) (m := m.obfuscate loc false) hkeys
  rw [Machine.callee]
  rw [hsub]
  exact hi.insert env _

/-- **Isolated calls that see everything.** If the caller's active frame shows all variables, an
isolated call that finishes leaves the values, the memory and, but for the mark, the heap that an
inline call leaves. -/
theorem isolated_eq_inline (hq : env.Quiet) (hc : Chained m)
    (hkeys : (m.active.bindings.map Prod.fst).Nodup)
    (hshown : ∀ name, m.recalled env name = m.alone.recalled env name)
    (hres : m.resolve (.code name target) = .code name (some loc)) (hloc : loc < m.heap.size)
    {naming : Bool} (hnaming : naming = true → m.anonymous = 0) {p q : Machine}
    (hp : InlineCall env run name target loc m naming p)
    (hiso : IsolatedCall env run name target loc m q) :
    q.values = p.values ∧ q.world.memory = p.world.memory ∧
      q.heap = (p.obfuscate loc true).heap := by
  obtain ⟨⟨depth, hrun, hcompletes⟩, rfl⟩ := hiso
  rw [InlineCall] at hp
  rw [call_inline hres hloc] at hp
  have hlock := lockstep_isolated env ((m.obfuscate loc false).heap.get loc)
    (m := m.obfuscate loc false) ⟨hc.active, hc.outer⟩ hkeys hnaming hshown
  have hstarted : Lockstep naming _ _ (m.callee env loc).started :=
    ⟨hlock.alike.trans ⟨rfl, rfl, rfl, rfl, fun _ => rfl, False.elim, False.elim⟩, hlock.based,
      hlock.left, ⟨hlock.right.active, hlock.right.outer⟩⟩
  obtain ⟨sub, hsub, hend⟩ :=
    Lockstep.finishes hq (Frame.shows_footing _ _) hp hstarted hcompletes
  have hintact : Intact m.values sub := by
    have hstart : Intact m.values (m.callee env loc).started :=
      (Intact.callee env loc m hkeys).of_eq rfl rfl
    have := hstart.runSteps hq (runAt env depth) (m.callee env loc).maxSteps
    rw [hsub] at this
    exact this
  obtain ⟨hv, hmem, hheap⟩ := call_isolated hres hloc (hrun.trans hsub) hintact hend.main
  refine ⟨hv.trans hend.alike.values.symm, hmem.trans hend.alike.memory.symm, hheap.trans ?_⟩
  simp only [obfuscate, modifyStack, withStore, heap]
  simp only [hend.alike.store]

end Calls

/-! ## A function that recalls a name -/

/-- A stack without parameters is loaded as it is. -/
theorem load_eq (env : Environment) {s : Stack} (hin : s.inputs = []) (hb : s.blocks ≠ [])
    (m : Machine) :
    m.load env s = { m with active := Frame.loaded s [] m.active }.notify
      (.spliced (Frame.loaded s [] m.active)) := by
  have hb' : s.blocks.isEmpty = false := by simpa using hb
  rw [load]
  rw [hin, if_neg (by simp)]
  simp only [List.reverse_nil, popInputs, hb', Bool.false_eq_true, if_false]
  rfl

/-- A stack without parameters is run on the caller's values and shows the caller's variables. -/
theorem insert_eq (env : Environment) {s : Stack} (hin : s.inputs = []) (hb : s.blocks ≠ [])
    (m : Machine) :
    (m.insert env s).active.program = s.blocks.map .block ∧ (m.insert env s).values = m.values ∧
      ∀ name, (m.insert env s).recalled env name = m.recalled env name := by
  cases hfin : m.active.isFinished with
  | true =>
    rw [insert_of_finished hfin, load_eq env hin hb]
    refine ⟨by simp, by simp, ?_⟩
    intro name
    rw [recalled_eq_seen, recalled_eq_seen]
    rw [frames]
    simp only [notify_rest]
    rfl
  | false =>
    rw [insert_of_unfinished hfin]
    rw [insertChild]
    rw [load_eq env hin hb]
    refine ⟨by simp, by simp, ?_⟩
    intro name
    rw [recalled_eq_seen, recalled_eq_seen]
    rw [frames]
    simp only [notify_rest]
    rfl

/-- The step of a program whose last block recalls a name. -/
theorem step_fetch {env : Environment} (hq : env.Quiet) {m : Machine} (hb : m.Busy) {name : String}
    (hp : m.active.program = [.block (.fetch name)]) (d : Discipline) :
    ∃ p m', m.step d env = (p, m') ∧ m'.values = m.recalled env name :: m.values ∧
      m'.counted.isOver m.outer.length = true ∧
      (m.outer = [] → p = .finished ∧ m'.mainFrame.isFinished = true) := by
  have hs := step_block hb hp d env
  have hafter : m.afterBlock d env (.fetch name) [] =
      ((m.withProgram []).push (m.recalled env name)).notify (.evaluated (.fetch name)) := rfl
  have hdone : (m.afterBlock d env (.fetch name) []).outer.length = m.outer.length ∧
      (m.afterBlock d env (.fetch name) []).active.isFinished = true := by
    rw [hafter]
    simp [withProgram, Frame.isFinished]
  rw [afterFrame_of_quiet hq, if_pos hdone, hafter] at hs
  by_cases ho : m.outer = []
  · rw [if_pos (by simp [ho])] at hs
    refine ⟨_, _, hs, by simp [withProgram], ?_, fun _ => ⟨rfl, ?_⟩⟩
    · simp [isOver, counted, withProgram, Frame.isFinished]
    · simp [mainFrame, withProgram, ho, Frame.isFinished]
  · obtain ⟨f, fs, hf⟩ := List.exists_cons_of_ne_nil ho
    rw [if_neg (by simpa using ho)] at hs
    have hf' : (((m.withProgram []).push (m.recalled env name)).notify
        (.evaluated (.fetch name))).outer = f :: fs := by
      simpa [withProgram] using hf
    refine ⟨_, _, hs, ?_, ?_, fun hnil => absurd hnil ho⟩
    · have hv := (alike_closeFrame (((m.withProgram []).push (m.recalled env name)).notify
        (.evaluated (.fetch name))) : Same _ _).values
      rw [← hv]
      simp [withProgram]
    · rw [isOver, counted]
      rw [(closeFrame_cons hf').2, hf]
      simp

/-- The stack that recalls a name. -/
def recaller (name : String) : Stack :=
  Stack.make "f" [.fetch name]

theorem size_lt_alloc (s : Stack) (m : Machine) : m.heap.size < (m.alloc s).2.heap.size := by
  change m.heap.size < (m.heap.alloc s).2.size
  rw [Heap.size_alloc]
  omega

/-- A new stack is found at its location. -/
theorem get_obfuscate_alloc (s : Stack) (hs : s.obfuscated = false) (m : Machine) :
    ((m.alloc s).2.obfuscate m.heap.size false).heap.get m.heap.size = s := by
  have hlt : m.heap.size < (m.heap.alloc s).2.size := size_lt_alloc s m
  have hget : (m.heap.alloc s).2.get m.heap.size = s := Heap.get_alloc_self m.heap s
  change ((m.heap.alloc s).2.modify m.heap.size fun s => { s with obfuscated := false }).get
    m.heap.size = s
  rw [Heap.get_modify_self _ _ hlt, hget, ← hs]

section Recaller

variable {env : Environment} {m : Machine} (name : String)

/-- An inline call of a stack that recalls a name pushes what the caller's frames show. -/
theorem inlineCall_recaller (hq : env.Quiet) (hc : Chained m) (run : Runner) :
    ∃ p, InlineCall env run "f" (some m.heap.size) m.heap.size (m.alloc (recaller name)).2 false p ∧
      p.values = m.recalled env name :: m.values := by
  let c := (m.alloc (recaller name)).2.obfuscate m.heap.size false
  have hget : c.heap.get m.heap.size = recaller name := get_obfuscate_alloc _ rfl m
  have hcc : Chained c := ⟨hc.active, hc.outer⟩
  obtain ⟨hp, hv, hr⟩ := insert_eq env (s := recaller name) rfl (by simp [recaller, Stack.make]) c
  have hp' : (c.insert env (recaller name)).active.program = [.block (.fetch name)] := hp
  obtain ⟨progress, p, hs, hpv, hover, -⟩ :=
    step_fetch hq (hcc.insert env (recaller name)).busy hp' (splicing env run)
  refine ⟨p.counted, ?_, ?_⟩
  · rw [InlineCall]
    rw [call_inline rfl (size_lt_alloc _ m)]
    change Returns _ env false (c.insert env (c.heap.get m.heap.size)).outer.length
      (c.insert env (c.heap.get m.heap.size)) p.counted
    rw [hget]
    refine .next ?_ ?_ hs (.ended hover)
    · simp [isOver, Frame.isFinished, hp']
    · simp [isCalm, hp', isPlain, Block.rolls, Block.names]
  · change p.values = _
    rw [hpv, hr, hv]
    rfl

/-- An isolated call of a stack that recalls a name pushes what the caller's active frame shows. -/
theorem isolatedCall_recaller (hq : env.Quiet)
    (hkeys : (m.active.bindings.map Prod.fst).Nodup) (hleft : 0 < m.remainingBudget) :
    ∃ q, IsolatedCall env (runAt env 1) "f" (some m.heap.size) m.heap.size
        (m.alloc (recaller name)).2 q ∧
      q.values = m.alone.recalled env name :: m.values := by
  let c := (m.alloc (recaller name)).2.obfuscate m.heap.size false
  have hget : c.heap.get m.heap.size = recaller name := get_obfuscate_alloc _ rfl m
  have hcallee : (m.alloc (recaller name)).2.callee env m.heap.size =
      c.isolated env (recaller name) := by
    rw [callee]
    rw [show (m.alloc (recaller name)).2.obfuscate m.heap.size false = c from rfl, hget]
  obtain ⟨sub, hsub, hmax, -, hv, -, -, -, -, ho, hp, hr⟩ :=
    isolated_start env (recaller name) (m := c) hkeys
  have hcs : Chained sub := by
    refine ⟨by rw [hp]; exact List.not_mem_nil, ?_⟩
    rw [ho]
    exact fun f hf => absurd hf List.not_mem_nil
  obtain ⟨hsp, hsv, hsr⟩ := insert_eq env (s := recaller name) rfl (by simp [recaller, Stack.make]) sub
  have hso : (sub.insert env (recaller name)).outer = [] := by
    rw [insert_of_finished (by simp [Frame.isFinished, hp]), (load_cases env _ sub).1, ho]
  obtain ⟨progress, sub', hs, hv', -, hlast⟩ :=
    step_fetch hq (m := (sub.insert env (recaller name)).started)
      (fun f hf => (hcs.insert env (recaller name)).busy f hf) hsp (splicing env (runAt env 0))
  obtain ⟨rfl, hfin⟩ := hlast hso
  obtain ⟨left, hleft'⟩ : ∃ left, (sub.insert env (recaller name)).maxSteps = left + 1 := by
    rw [insert_maxSteps, hmax]
    exact Nat.exists_eq_add_one.2 hleft
  have hcompletes : (sub.insert env (recaller name)).started.completes
      (splicing env (runAt env 0)) env (sub.insert env (recaller name)).maxSteps = true := by
    rw [hleft']
    rw [completes]
    rw [hs]
  have hrun : runAt env 1 ((m.alloc (recaller name)).2.callee env m.heap.size) =
      (sub'.result, sub') := by
    rw [hcallee, hsub]
    exact runSteps_of_finished hs hcompletes
  have hintact : Intact m.values sub' := by
    have hi : Intact m.values (sub.insert env (recaller name)).started := by
      have := Intact.callee env m.heap.size (m.alloc (recaller name)).2 hkeys
      rw [hcallee, hsub] at this
      exact this.of_eq rfl rfl
    have := hi.runSteps hq (runAt env 0) (sub.insert env (recaller name)).maxSteps
    rw [runSteps_of_finished hs hcompletes] at this
    exact this
  refine ⟨_, ⟨⟨0, rfl, ?_⟩, rfl⟩, ?_⟩
  · rw [hcallee, hsub]
    exact hcompletes
  · have hres : (m.alloc (recaller name)).2.resolve (.code "f" (some m.heap.size)) =
        .code "f" (some m.heap.size) := rfl
    rw [(call_isolated hres (size_lt_alloc _ m) hrun hintact hfin).1, hv']
    change (sub.insert env (recaller name)).recalled env name ::
      (sub.insert env (recaller name)).values = _
    rw [hsr, hr, hsv, hv]
    rfl

end Recaller

/-- **When isolated calls are like inline ones.** From a caller with a step left, an isolated call
leaves the values and the memory of an inline call of the same stack, whatever the stack, if and only
if the caller's active frame shows by itself what all its frames show. The calls that are compared
finish, evaluate plain blocks only, roll no dice and name anonymous stacks only if the caller has
named none so far. -/
theorem isolated_call_agrees_iff (env : Environment) (hq : env.Quiet) (m : Machine) (hc : Chained m)
    (hkeys : (m.active.bindings.map Prod.fst).Nodup) (hleft : 0 < m.remainingBudget) :
    (∀ name, m.recalled env name = m.alone.recalled env name) ↔
      ∀ (world : World) (run : Runner) (name : String) (target : Option Loc) (loc : Loc)
        (naming : Bool) (p q : Machine),
        { m with world := world }.resolve (.code name target) = .code name (some loc) →
        loc < world.store.heap.size → (naming = true → m.anonymous = 0) →
        InlineCall env run name target loc { m with world := world } naming p →
        IsolatedCall env run name target loc { m with world := world } q →
        q.values = p.values ∧ q.world.memory = p.world.memory ∧
          q.heap = (p.obfuscate loc true).heap := by
  constructor
  · intro hshown world run name target loc naming p q hres hloc hnaming hp hq'
    have hc' : Chained { m with world := world } := ⟨hc.active, hc.outer⟩
    exact isolated_eq_inline (m := { m with world := world }) hq hc' hkeys hshown hres hloc hnaming
      hp hq'
  · intro h name
    obtain ⟨p, hp, hpv⟩ := inlineCall_recaller name hq hc (runAt env 1)
    obtain ⟨q, hq', hqv⟩ := isolatedCall_recaller name hq hkeys hleft
    have hv := (h (m.alloc (recaller name)).2.world (runAt env 1) "f" (some m.heap.size)
      m.heap.size false p q rfl (size_lt_alloc _ m)
      (fun hf => by cases hf) hp hq').1
    rw [hpv, hqv] at hv
    exact (List.cons.inj hv).1.symm

/-- A caller in a child frame that binds nothing, while its parent binds a name. -/
def nestedCaller : Machine :=
  { make 10 Workspace.empty (World.ofSeed 0) with
    active := ⟨[.block (.string "b")], [], "g"⟩
    outer := [⟨[.child, .block (.string "c")], [("x", ⟨false, .string "a"⟩)], "main"⟩] }

/-- From there, isolated calls are not like inline ones. -/
theorem isolated_call_agrees_iff_nestedCaller :
    Environment.standard.Quiet ∧ Chained nestedCaller ∧
      (nestedCaller.active.bindings.map Prod.fst).Nodup ∧ 0 < nestedCaller.remainingBudget ∧
      ¬ ∀ (world : World) (run : Runner) (name : String) (target : Option Loc) (loc : Loc)
        (naming : Bool) (p q : Machine),
        { nestedCaller with world := world }.resolve (.code name target) = .code name (some loc) →
        loc < world.store.heap.size → (naming = true → nestedCaller.anonymous = 0) →
        InlineCall Environment.standard run name target loc { nestedCaller with world := world }
          naming p →
        IsolatedCall Environment.standard run name target loc { nestedCaller with world := world } q →
        q.values = p.values ∧ q.world.memory = p.world.memory ∧
          q.heap = (p.obfuscate loc true).heap := by
  have hq : Environment.standard.Quiet := fun e he => absurd he List.not_mem_nil
  have hc : Chained nestedCaller := by
    refine ⟨by simp [nestedCaller], ?_⟩
    intro f hf
    obtain rfl := List.mem_singleton.1 hf
    exact ⟨.string "c", [], rfl, List.not_mem_nil⟩
  have hkeys : (nestedCaller.active.bindings.map Prod.fst).Nodup := List.nodup_nil
  have hleft : 0 < nestedCaller.remainingBudget := by decide
  refine ⟨hq, hc, hkeys, hleft, ?_⟩
  rw [← isolated_call_agrees_iff Environment.standard hq nestedCaller hc hkeys hleft]
  intro h
  have hx := h "x"
  cases hx

end BlockMachine.Machine
