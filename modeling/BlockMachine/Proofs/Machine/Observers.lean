import BlockMachine.Proofs.Machine.Budgets
import Mathlib.Order.Bounds.Defs

/-!
# The observer of an isolated call

An isolated call hands back a value stack that its observer tells the caller how to put together. To
say what the observer knows, the same nested machine is run once more, from an empty log and with a
recorder in the observer's place: it takes the same steps, and its log has every push and pop.

* `Twins` — machines that differ at most in observers and logs; `Watching` — what two observers have
  to do with one another, kept by pushes and pops;
* `Hushed` — nothing is recorded of nested machines but assignments and memory writes,
  `runAt_hushes`;
* `Impartial` — nested machines do not come to other ends for other observers, `run_impartial`;
* `replay` — the value stack that a log leads to; `lowest` — the least height on the way there;
* `Tracks` — the observer of one machine counts what the recorder of its twin records;
* `isolated_netEffect` — so isolated calls leave the caller with the values of the nested machine.
-/

namespace BlockMachine

/-- Whether an event is an assignment or a memory write, which are all that is heard of nested
machines. -/
def Event.isAside : Event → Bool
  | .assigned .. | .stored .. => true
  | _ => false

theorem Event.moves_of_isAside {e : Event} (h : e.isAside = true) : e.moves = false := by
  cases e with
  | pushed b => cases h
  | popped b => cases h
  | _ => rfl

namespace View

/-- The two counts of the observer of an isolated call: the height of the value stack, and the least
it ever was. -/
def counts : View → Option (Nat × Nat)
  | .isolated _ _ depth untouched => some (depth, untouched)
  | _ => Option.none

theorem counts_pushed (v : View) :
    v.pushed.counts = v.counts.map fun c => (c.1 + 1, c.2) := by
  cases v <;> rfl

theorem counts_popped (v : View) :
    v.popped.counts = v.counts.map fun c => (c.1 - 1, min c.2 (c.1 - 1)) := by
  cases v <;> rfl

theorem untouched_eq (v : View) : v.untouched = (v.counts.map Prod.snd).getD 0 := by
  cases v <;> rfl

/-- The observer of an isolated call passes on assignments and memory writes. -/
theorem exists_report_of_isolated {parent : View} {parameters : List String} {depth untouched : Nat}
    {e e' : Event} (h : (View.isolated parent parameters depth untouched).report e = some e') :
    ∃ passed : Event, passed.isAside = true ∧ parent.report passed = some e' := by
  simp only [report] at h
  split at h
  · exact ⟨_, rfl, h⟩
  · exact ⟨_, rfl, h⟩
  · cases h

/-- Of an event that moves no value, no move is reported. -/
theorem moves_report {v : View} :
    ∀ {e e' : Event}, e.moves = false → v.report e = some e' → e'.moves = false := by
  induction v with
  | none =>
    intro e e' _ h
    cases h
  | recorder =>
    intro e e' he h
    obtain rfl := Option.some.inj h
    exact he
  | isolated parent parameters depth untouched ih =>
    intro e e' _ h
    obtain ⟨passed, hpassed, h⟩ := exists_report_of_isolated h
    exact ih (Event.moves_of_isAside hpassed) h

/-- Of an assignment or a memory write, only such is reported. -/
theorem isAside_report {v : View} :
    ∀ {e e' : Event}, e.isAside = true → v.report e = some e' → e'.isAside = true := by
  induction v with
  | none =>
    intro e e' _ h
    cases h
  | recorder =>
    intro e e' he h
    obtain rfl := Option.some.inj h
    exact he
  | isolated parent parameters depth untouched ih =>
    intro e e' _ h
    obtain ⟨passed, hpassed, h⟩ := exists_report_of_isolated h
    exact ih hpassed h

/-- Only a recorder itself hears of anything else. -/
theorem isAside_report_of_ne {v : View} (hv : v ≠ .recorder) {e e' : Event}
    (h : v.report e = some e') : e'.isAside = true := by
  cases v with
  | none => cases h
  | recorder => exact absurd rfl hv
  | isolated parent parameters depth untouched =>
    obtain ⟨passed, hpassed, h⟩ := exists_report_of_isolated h
    exact isAside_report hpassed h

theorem pushed_ne {v : View} (hv : v ≠ .recorder) : v.pushed ≠ .recorder := by
  cases v with
  | recorder => exact hv
  | _ => exact View.noConfusion

theorem popped_ne {v : View} (hv : v ≠ .recorder) : v.popped ≠ .recorder := by
  cases v with
  | recorder => exact hv
  | _ => exact View.noConfusion

end View

/-! ## Logs -/

/-- A log that is longer by events of a kind. -/
def Longer (kind : Event → Prop) (log log' : List Event) : Prop :=
  ∃ news : List Event, (∀ e ∈ news, kind e) ∧ log' = news ++ log

/-- A log that is longer by events that move no value. -/
abbrev Murmurs := Longer fun e => e.moves = false

/-- A log that is longer by assignments and memory writes. -/
abbrev Asides := Longer fun e => e.isAside = true

namespace Longer

variable {kind kind' : Event → Prop} {log log' log'' : List Event}

theorem refl (log : List Event) : Longer kind log log :=
  ⟨[], fun _ h => absurd h List.not_mem_nil, rfl⟩

theorem trans (h : Longer kind log log') (h' : Longer kind log' log'') :
    Longer kind log log'' := by
  obtain ⟨news, hnews, rfl⟩ := h
  obtain ⟨news', hnews', rfl⟩ := h'
  refine ⟨news' ++ news, ?_, (List.append_assoc _ _ _).symm⟩
  intro e he
  rcases List.mem_append.1 he with he | he
  · exact hnews' e he
  · exact hnews e he

theorem cons (h : Longer kind log log') {e : Event} (he : kind e) :
    Longer kind log (e :: log') := by
  obtain ⟨news, hnews, rfl⟩ := h
  exact ⟨e :: news, List.forall_mem_cons.2 ⟨he, hnews⟩, rfl⟩

theorem mono (h : Longer kind log log') (hkind : ∀ e, kind e → kind' e) :
    Longer kind' log log' := by
  obtain ⟨news, hnews, rfl⟩ := h
  exact ⟨news, fun e he => hkind e (hnews e he), rfl⟩

end Longer

theorem Asides.murmurs {log log' : List Event} (h : Asides log log') : Murmurs log log' :=
  h.mono fun _ => Event.moves_of_isAside

/-- The value stack that a log leads to from the stack at its start. As in every log, the latest
event comes first. -/
def replay (start : List Block) : List Event → List Block
  | [] => start
  | .pushed b :: log => b :: replay start log
  | .popped _ :: log => (replay start log).tail
  | _ :: log => replay start log

/-- The least height that the value stack has on the way. -/
def lowest (start : List Block) : List Event → Nat
  | [] => start.length
  | e :: log => min (lowest start log) (replay start (e :: log)).length

section Replay

variable {start : List Block} {log log' : List Event}

theorem replay_of_moves {e : Event} (he : e.moves = false) :
    replay start (e :: log) = replay start log := by
  cases e with
  | pushed b => cases he
  | popped b => cases he
  | _ => rfl

theorem lowest_le_length (start : List Block) (log : List Event) :
    lowest start log ≤ (replay start log).length := by
  cases log with
  | nil => exact Nat.le_refl _
  | cons e log => exact Nat.min_le_right _ _

/-- Murmurs change neither. -/
theorem Murmurs.replay (h : Murmurs log log') (start : List Block) :
    replay start log' = replay start log ∧ lowest start log' = lowest start log := by
  obtain ⟨news, hnews, rfl⟩ := h
  induction news with
  | nil => exact ⟨rfl, rfl⟩
  | cons e news ih =>
    obtain ⟨he, hnews⟩ := List.forall_mem_cons.1 hnews
    obtain ⟨hreplay, hlowest⟩ := ih hnews
    have hsame : BlockMachine.replay start (e :: news ++ log) = BlockMachine.replay start log := by
      rw [List.cons_append, replay_of_moves he, hreplay]
    refine ⟨hsame, ?_⟩
    rw [List.cons_append] at hsame ⊢
    rw [lowest, hsame, hlowest]
    exact Nat.min_eq_left (lowest_le_length start log)

/-- It is the least of the heights after some part of the log. -/
theorem isLeast_lowest (start : List Block) (log : List Event) :
    IsLeast { h | ∃ log', log' <:+ log ∧ (replay start log').length = h } (lowest start log) := by
  induction log with
  | nil =>
    refine ⟨⟨[], List.suffix_rfl, rfl⟩, ?_⟩
    rintro h ⟨log', hsuffix, rfl⟩
    rw [List.suffix_nil.1 hsuffix]
    exact Nat.le_refl _
  | cons e log ih =>
    obtain ⟨⟨low, hlow, hheight⟩, hbound⟩ := ih
    constructor
    · -- it is reached before the latest event or just after it
      rcases Nat.le_total (lowest start log) (replay start (e :: log)).length with hle | hle
      · exact ⟨low, hlow.trans (List.suffix_cons e log), hheight.trans (Nat.min_eq_left hle).symm⟩
      · exact ⟨e :: log, List.suffix_rfl, (Nat.min_eq_right hle).symm⟩
    · rintro h ⟨log', hsuffix, rfl⟩
      rcases List.suffix_cons_iff.1 hsuffix with rfl | hsuffix
      · exact Nat.min_le_right _ _
      · exact Nat.le_trans (Nat.min_le_left _ _) (hbound ⟨log', hsuffix, rfl⟩)

/-- Below it, the stack is the one at the start. -/
theorem take_lowest (start : List Block) (log : List Event) :
    (replay start log).reverse.take (lowest start log) = start.reverse.take (lowest start log) := by
  induction log with
  | nil => rfl
  | cons e log ih =>
    -- with the stack before the event, cut down to what is left of it
    have hcut : (replay start log).reverse.take (lowest start (e :: log)) =
        start.reverse.take (lowest start (e :: log)) := by
      have hle : lowest start (e :: log) ≤ lowest start log := Nat.min_le_left _ _
      have htake := congrArg (List.take (lowest start (e :: log))) ih
      rwa [List.take_take, List.take_take, Nat.min_eq_left hle] at htake
    rw [← hcut]
    have hle := lowest_le_length start (e :: log)
    cases e with
    | pushed b =>
      have hlow : lowest start (.pushed b :: log) ≤ (replay start log).length :=
        Nat.le_trans (Nat.min_le_left _ _) (lowest_le_length start log)
      rw [replay, List.reverse_cons, List.take_append_of_le_length]
      rwa [List.length_reverse]
    | popped b =>
      simp only [replay] at hle ⊢
      generalize replay start log = values at hle ⊢
      cases values with
      | nil => rfl
      | cons v rest =>
        rw [List.tail_cons] at hle
        rw [List.tail_cons, List.reverse_cons, List.take_append_of_le_length]
        rwa [List.length_reverse]
    | _ => rfl

end Replay

namespace Machine

theorem notify_log (m : Machine) (e : Event) :
    (m.notify e).world.log = (m.view.report e).toList ++ m.world.log := by
  rw [notify]
  split
  · rename_i h
    rw [h]
    rfl
  · rename_i h
    rw [h]
    rfl

/-- A block in memory is heard of or not. -/
theorem setVariable_cases {m m' : Machine} {id name : String} {b : Block}
    (h : m.setVariable id name (some b) = .ok m') :
    ∃ n memory, (n = m ∨ n = m.notify (.stored id name b)) ∧ m' = n.withMemory memory := by
  rw [setVariable] at h
  split at h
  · cases h
  · rename_i memory changed _
    obtain rfl := Except.ok.inj h
    cases changed with
    | true => exact ⟨_, memory, .inr rfl, rfl⟩
    | false => exact ⟨_, memory, .inl rfl, rfl⟩

theorem assignEach_values (withParameters : Bool) (bindings : Keyed Binding) (m : Machine) :
    (m.assignEach withParameters bindings).values = m.values := by
  obtain ⟨active, outer, log, ha⟩ := assignEach_eq withParameters bindings m
  rw [ha]

/-- The machine of an isolated call before it has an observer and a program. -/
def bare (m : Machine) : Machine :=
  { m.nested m.remainingBudget with values := m.values }.assignEach true m.active.bindings

theorem bare_values (m : Machine) : m.bare.values = m.values :=
  assignEach_values true m.active.bindings _

/-! ## Nested machines are not heard -/

/-- A machine that is observed by no recorder, at a log to which it has added nothing but assignments
and memory writes. -/
structure Hushed (log : List Event) (m : Machine) : Prop where
  view : m.view ≠ .recorder
  log : Asides log m.world.log

/-- A runner that records nothing but assignments and memory writes. -/
def Hushes (run : Runner) : Prop :=
  ∀ {log : List Event} {m : Machine}, Hushed log m → Hushed log (run m).2

section Hushed

variable {env : Environment} {run : Runner} {log : List Event} {m n : Machine}

theorem Hushed.of_eq (h : Hushed log m) (hview : n.view = m.view)
    (hlog : n.world.log = m.world.log) : Hushed log n :=
  ⟨hview ▸ h.view, hlog ▸ h.log⟩

theorem Hushed.notify (h : Hushed log m) (e : Event) : Hushed log (m.notify e) := by
  refine ⟨by simpa using h.view, ?_⟩
  rw [notify_log]
  cases he : m.view.report e with
  | none => exact h.log
  | some e' => exact h.log.cons (View.isAside_report_of_ne h.view he)

theorem hushed_lasting (env : Environment) (log : List Event) : Lasting env (Hushed log) where
  push b h := ⟨by simpa using View.pushed_ne h.view, (h.notify (.pushed b)).log⟩
  pop {m} c h := by
    rw [pop]
    split
    · exact h
    · cases c with
      | none => exact ⟨View.popped_ne (h.notify _).view, (h.notify _).log⟩
      | some c =>
        exact ⟨View.popped_ne ((h.notify _).notify _).view, ((h.notify _).notify _).log⟩
  alloc s h := h.of_eq rfl rfl
  roll h := by
    rw [roll_eq]
    exact h.of_eq rfl rfl
  nextAnonymous h := h.of_eq rfl rfl
  setVariable h hs := by
    obtain ⟨n, memory, rfl | rfl, rfl⟩ := setVariable_cases hs
    · exact h.of_eq rfl rfl
    · exact (h.notify _).of_eq rfl rfl
  frames a o h := h.of_eq rfl rfl
  notify e _ h := h.notify e
  afterFrame h := h.of_eq rfl rfl

/-- A trial is observed by nobody, whoever asks for it. -/
theorem hushed_trial (env : Environment) (limit : Nat) (workspace : Workspace)
    (bindings : Keyed Binding) (values : List Block) (s : Stack) (w : World) :
    Hushed w.log (trial env limit workspace bindings values s w) :=
  (hushed_lasting env w.log).trial ⟨View.noConfusion, .refl _⟩ bindings values s

/-- An isolated call is observed by no recorder, whoever makes it. -/
theorem hushed_isolated (env : Environment) (s : Stack) (m : Machine) :
    Hushed m.world.log (m.isolated env s) := by
  have hP := hushed_lasting env m.world.log
  have hfresh : Hushed m.world.log { m.nested m.remainingBudget with values := m.values } :=
    ⟨View.noConfusion, .refl _⟩
  have hbare : Hushed m.world.log m.bare := hP.assignEach hfresh true m.active.bindings
  have hview : Hushed m.world.log
      { m.bare with view := .isolated m.view m.active.parameters m.values.length m.values.length } :=
    ⟨View.noConfusion, hbare.log⟩
  exact hP.insert hview s

theorem hushed_sheltered (hrun : Hushes run) : Sheltered (Hushed log) env run where
  sample h bindings values s :=
    ⟨h.view, h.log.trans (hrun (hushed_trial env _ _ bindings values s _)).log⟩
  isolate {m} loc h _ := by
    have hP := hushed_lasting env log
    have hsub := hrun (hushed_isolated env ((m.obfuscate loc false).heap.get loc)
      (m.obfuscate loc false))
    rw [callIsolated]
    rcases hr : run ((m.obfuscate loc false).isolated env ((m.obfuscate loc false).heap.get loc))
      with ⟨result, sub⟩
    rw [hr] at hsub
    have hworld : Hushed log { (m.obfuscate loc false).withoutWorld with world := sub.world } :=
      ⟨h.view, h.log.trans hsub.log⟩
    exact (hP.adopt (hP.assignEach hworld false _) result sub).of_eq rfl rfl

/-- **Nested machines are not heard**: no runner records anything of theirs but assignments and memory
writes. -/
theorem runAt_hushes (env : Environment) (depth : Nat) : Hushes (runAt env depth) := by
  induction depth with
  | zero =>
    intro log m h
    exact h.of_eq rfl rfl
  | succ depth ih =>
    intro log m h
    exact (hushed_lasting env log).runSteps (hushed_sheltered ih) (fun h => h.of_eq rfl rfl) _
      (h.of_eq rfl rfl)

end Hushed

/-! ## Two observers -/

/-- The machine has the frames and the limits of another. -/
def Still (m n : Machine) : Prop :=
  (n.active = m.active ∧ n.outer = m.outer) ∧ Paced m n

theorem still_kept (env : Environment) (m : Machine) : Kept (Still m) :=
  have hframes := kept_frames m.active m.outer
  have hpaced := paced_lasting env m
  { push := fun b h => ⟨hframes.push b h.1, hpaced.push b h.2⟩
    pop := fun c h => ⟨hframes.pop c h.1, hpaced.pop c h.2⟩
    alloc := fun s h => ⟨hframes.alloc s h.1, hpaced.alloc s h.2⟩
    roll := fun h => ⟨hframes.roll h.1, hpaced.roll h.2⟩
    nextAnonymous := fun h => ⟨hframes.nextAnonymous h.1, hpaced.nextAnonymous h.2⟩
    setVariable := fun h hs => ⟨hframes.setVariable h.1 hs, hpaced.setVariable h.2 hs⟩ }

/-- Two machines that differ at most in their observers and logs. -/
structure Twins (m n : Machine) : Prop where
  same : Same m n
  active : m.active = n.active
  outer : m.outer = n.outer
  paced : Paced m n

section Twins

variable {env : Environment} {m n m' n' : Machine}

theorem Twins.still (h : Twins m n) : Same m n ∧ Still m m ∧ Still n n :=
  ⟨h.same, ⟨⟨rfl, rfl⟩, rfl, rfl, rfl, rfl⟩, ⟨⟨rfl, rfl⟩, rfl, rfl, rfl, rfl⟩⟩

theorem Twins.of_still (h : Twins m n) (h' : Same m' n' ∧ Still m m' ∧ Still n n') :
    Twins m' n' := by
  obtain ⟨hsame, ⟨⟨hma, hmo⟩, hmp⟩, ⟨hna, hno⟩, hnp⟩ := h'
  exact ⟨hsame, by rw [hma, hna, h.active], by rw [hmo, hno, h.outer],
    (hmp.symm.trans h.paced).trans hnp⟩

theorem still_congruent (env : Environment) (m n : Machine) :
    Congruent fun x y => Same x y ∧ Still m x ∧ Still n y :=
  alike_congruent.and_kept (still_kept env m) (still_kept env n)

/-- Observers and logs are not looked at. -/
theorem twins_inStep (hq : env.Quiet) : InStep env Twins where
  values h := h.same.values
  workspace h := h.same.workspace
  store h := h.same.store
  memory h := h.same.memory
  push b h := h.of_still ((still_congruent env _ _).push b h.still)
  pop c h := h.of_still ((still_congruent env _ _).pop c h.still)
  alloc s h := h.of_still ((still_congruent env _ _).alloc s h.still)
  setVariable h hm hn := h.of_still ((still_congruent env _ _).setVariable h.still hm hn)
  roll h := by
    have hroll := ((alike_rolling trivial).and_kept (still_kept env _) (still_kept env _)).roll h.still
    exact ⟨hroll.1, h.of_still hroll.2⟩
  anonymous h := h.same.anonymous trivial
  nextAnonymous h := h.of_still
    (((alike_naming trivial).and_kept (still_kept env _) (still_kept env _)).nextAnonymous h.still)
  active h := h.active
  outer h := h.outer
  frames a o h := ⟨alike_blind.frames _ _ _ _ h.same, rfl, rfl, { h.paced with }⟩
  notify e _ h := ⟨alike_blind.notify _ _ h.same, by simpa using h.active, by simpa using h.outer,
    ((paced_notify _ e).symm.trans h.paced).trans (paced_notify _ e)⟩
  afterFrame h := by
    rw [afterFrame_of_quiet hq, afterFrame_of_quiet hq]
    exact h

end Twins

/-- The machine has the values and the observer of another, and no push or pop was heard between
them. -/
structure Steady (m n : Machine) : Prop where
  values : n.values = m.values
  view : n.view = m.view
  log : Murmurs m.world.log n.world.log

theorem Steady.of_eq {m n : Machine} (hvalues : n.values = m.values) (hview : n.view = m.view)
    (hlog : n.world.log = m.world.log) : Steady m n :=
  ⟨hvalues, hview, hlog ▸ .refl _⟩

theorem steady_notify (m : Machine) {e : Event} (he : e.moves = false) : Steady m (m.notify e) := by
  refine ⟨by simp, by simp, ?_⟩
  rw [notify_log]
  cases hr : m.view.report e with
  | none => exact .refl _
  | some e' => exact (Longer.refl _).cons (View.moves_report he hr)

theorem steady_roll (m : Machine) : Steady m m.roll.2 := by
  rw [roll_eq]
  exact .of_eq rfl rfl rfl

theorem steady_setVariable {m m' : Machine} {id name : String} {b : Block}
    (h : m.setVariable id name (some b) = .ok m') : Steady m m' := by
  obtain ⟨n, memory, rfl | rfl, rfl⟩ := setVariable_cases h
  · exact .of_eq rfl rfl rfl
  · have hn := steady_notify m (e := .stored id name b) rfl
    exact ⟨hn.values, hn.view, hn.log⟩

/-- What the observers of twins have to do with one another, as pushes and pops keep it. -/
structure Watching (V : Machine → Machine → Prop) : Prop where
  push : ∀ {m n} (b : Block), Twins m n → V m n → V (m.push b) (n.push b)
  pop : ∀ {m n} (c : Option Block), Twins m n → V m n → V (m.pop c).2 (n.pop c).2
  steady : ∀ {m n m' n'}, V m n → Steady m m' → Steady n n' → V m' n'

/-- Two machines that differ at most in observers and logs, which have to do with one another. -/
def Paired (V : Machine → Machine → Prop) (m n : Machine) : Prop :=
  Twins m n ∧ V m n

section Watching

variable {env : Environment} {V : Machine → Machine → Prop} {run : Runner} {m n : Machine}

theorem Watching.inStep (hV : Watching V) (hq : env.Quiet) : InStep env (Paired V) :=
  have hT := twins_inStep hq
  { values := fun h => hT.values h.1
    workspace := fun h => hT.workspace h.1
    store := fun h => hT.store h.1
    memory := fun h => hT.memory h.1
    push := fun b h => ⟨hT.push b h.1, hV.push b h.1 h.2⟩
    pop := fun c h => ⟨hT.pop c h.1, hV.pop c h.1 h.2⟩
    alloc := fun s h => ⟨hT.alloc s h.1, hV.steady h.2 (.of_eq rfl rfl rfl) (.of_eq rfl rfl rfl)⟩
    setVariable := fun h hm hn =>
      ⟨hT.setVariable h.1 hm hn, hV.steady h.2 (steady_setVariable hm) (steady_setVariable hn)⟩
    roll := fun h => ⟨(hT.roll h.1).1, (hT.roll h.1).2,
      hV.steady h.2 (steady_roll _) (steady_roll _)⟩
    anonymous := fun h => hT.anonymous h.1
    nextAnonymous := fun h =>
      ⟨hT.nextAnonymous h.1, hV.steady h.2 (.of_eq rfl rfl rfl) (.of_eq rfl rfl rfl)⟩
    active := fun h => h.1.active
    outer := fun h => h.1.outer
    frames := fun a o h =>
      ⟨hT.frames a o h.1, hV.steady h.2 (.of_eq rfl rfl rfl) (.of_eq rfl rfl rfl)⟩
    notify := fun e he h =>
      ⟨hT.notify e he h.1, hV.steady h.2 (steady_notify _ he) (steady_notify _ he)⟩
    afterFrame := fun h => by
      rw [afterFrame_of_quiet hq, afterFrame_of_quiet hq]
      exact h }

/-- The store may be changed alike. -/
theorem Watching.obfuscate (hV : Watching V) (h : Paired V m n) (loc : Loc) (mark : Bool) :
    Paired V (m.obfuscate loc mark) (n.obfuscate loc mark) := by
  obtain ⟨⟨hs, ha, ho, hp⟩, hv⟩ := h
  have hstore : (m.obfuscate loc mark).world.store = (n.obfuscate loc mark).world.store := by
    simp only [Machine.obfuscate, modifyStack, withStore, heap]
    rw [hs.store]
  exact ⟨⟨{ hs with store := hstore }, ha, ho, { hp with }⟩,
    hV.steady hv (.of_eq rfl rfl rfl) (.of_eq rfl rfl rfl)⟩

/-- Worlds may be taken over that are alike and in which no moves of values were heard. -/
theorem Watching.world (hV : Watching V) (h : Paired V m n) {w w' : World}
    (hstore : w.store = w'.store) (hmemory : w.memory = w'.memory)
    (hw : Murmurs m.world.log w.log) (hw' : Murmurs n.world.log w'.log) :
    Paired V { m with world := w } { n with world := w' } := by
  obtain ⟨⟨hs, ha, ho, hp⟩, hv⟩ := h
  exact ⟨⟨{ hs with store := hstore, memory := hmemory }, ha, ho, { hp with }⟩,
    hV.steady hv ⟨rfl, rfl, hw⟩ ⟨rfl, rfl, hw'⟩⟩

/-- What isolated calls left is taken over alike. -/
theorem InStep.adopt {R : Machine → Machine → Prop} (hR : InStep env R) (h : R m n)
    (result : List Block) {sub sub' : Machine}
    (hmain : sub.mainFrame = sub'.mainFrame) (hview : sub.view.untouched = sub'.view.untouched) :
    R (m.adopt result sub) (n.adopt result sub') := by
  simpa using hR.along.adopt h result (by rw [hmain]) hview

/-- The counts of two observers are the same. -/
def Agree (m n : Machine) : Prop :=
  m.view.counts = n.view.counts

theorem agree_watching : Watching Agree where
  push b _ h := by
    rw [Agree] at h ⊢
    rw [push_view, push_view, View.counts_pushed, View.counts_pushed, h]
  pop c ht h := by
    rw [Agree] at h ⊢
    rw [pop_view, pop_view, ht.same.values]
    split
    · exact h
    · rw [View.counts_popped, View.counts_popped, h]
  steady h hm hn := by
    rw [Agree] at h ⊢
    rw [hm.view, hn.view, h]

/-- A runner that does not come to another end for another observer with the same counts, and records
no move of a value. -/
structure Impartial (run : Runner) : Prop where
  alike : ∀ {m n}, Paired Agree m n → Related (Paired Agree) (run m) (run n)
  hushes : Hushes run

theorem Twins.trial (hq : env.Quiet) (h : Twins m n) (bindings : Keyed Binding) (values : List Block)
    (s : Stack) :
    Paired Agree (Machine.trial env m.nestedBudget m.workspace bindings values s m.world)
      (Machine.trial env n.nestedBudget n.workspace bindings values s n.world) := by
  have hR := agree_watching.inStep hq
  rw [h.paced.nestedBudget, h.paced.workspace]
  have hmake : Paired Agree (make m.nestedBudget m.workspace m.world)
      (make m.nestedBudget m.workspace n.world) :=
    ⟨⟨⟨rfl, rfl, h.same.store, h.same.memory, fun _ => rfl, fun _ => rfl, fun _ => rfl⟩, rfl, rfl,
      rfl, rfl, rfl, rfl⟩, rfl⟩
  exact hR.insert (hR.assignEach true bindings (hR.pushAll values hmake)) s

theorem Twins.bare (hq : env.Quiet) (h : Twins m n) : Twins m.bare n.bare := by
  have hR := twins_inStep hq
  have hlimit : n.remainingBudget = m.remainingBudget := by
    rw [remainingBudget, remainingBudget, limit, limit, h.paced.maxSteps, h.paced.budget,
      h.paced.steps]
  rw [Machine.bare, Machine.bare, nested, nested, hlimit, h.active]
  apply hR.assignEach
  exact ⟨⟨h.same.values, h.same.workspace, h.same.store, h.same.memory, fun _ => rfl, fun _ => rfl,
    fun _ => rfl⟩, rfl, rfl, rfl, rfl, rfl, h.paced.workspace⟩

theorem Twins.isolated (hq : env.Quiet) (h : Twins m n) (s : Stack) :
    Paired Agree (m.isolated env s) (n.isolated env s) := by
  have hbare := h.bare hq
  have hview : Paired Agree
      { m.bare with view := .isolated m.view m.active.parameters m.values.length m.values.length }
      { n.bare with view := .isolated n.view n.active.parameters n.values.length n.values.length } :=
    ⟨⟨{ hbare.same with }, hbare.active, hbare.outer, { hbare.paced with }⟩,
      by rw [Agree, View.counts, View.counts, h.same.values]⟩
  exact (agree_watching.inStep hq).insert hview s

/-- Whatever their observers have to do with one another, what nested machines do does not touch
it. -/
theorem Watching.nesting (hV : Watching V) (hq : env.Quiet) (hrun : Impartial run) :
    Nesting (Paired V) env run run where
  sample {m n} h bindings values s := by
    obtain ⟨hfst, htwins, -⟩ := hrun.alike (h.1.trial hq bindings values s)
    exact ⟨hfst, hV.world h htwins.same.store htwins.same.memory
      (hrun.hushes (hushed_trial env _ _ bindings values s _)).log.murmurs
      (hrun.hushes (hushed_trial env _ _ bindings values s _)).log.murmurs⟩
  isolate {m n} loc h hmark := by
    have hR := hV.inStep hq
    have hstart := hV.obfuscate h loc false
    have hget : (m.obfuscate loc false).heap.get loc = (n.obfuscate loc false).heap.get loc := by
      rw [hR.heap hstart]
    obtain ⟨result, sub, sub', hsub, hsub', htwins, hagree⟩ :=
      (hrun.alike (hstart.1.isolated hq ((m.obfuscate loc false).heap.get loc))).elim
    have hlog := hrun.hushes (hushed_isolated env ((m.obfuscate loc false).heap.get loc)
      (m.obfuscate loc false))
    have hlog' := hrun.hushes (hushed_isolated env ((m.obfuscate loc false).heap.get loc)
      (n.obfuscate loc false))
    rw [hsub] at hlog
    rw [hsub'] at hlog'
    -- both callers take over worlds that are alike, results that are the same and equal counts
    rw [callIsolated, callIsolated, ← hget, hsub, hsub']
    have hworld : Paired V { m.obfuscate loc false with world := sub.world }
        { n.obfuscate loc false with world := sub'.world } :=
      hV.world hstart htwins.same.store htwins.same.memory hlog.log.murmurs hlog'.log.murmurs
    have hmain : sub.mainFrame = sub'.mainFrame := by
      rw [mainFrame, mainFrame, htwins.outer, htwins.active]
    have huntouched : sub.view.untouched = sub'.view.untouched := by
      rw [View.untouched_eq, View.untouched_eq, hagree]
    apply hV.obfuscate
    apply hR.adopt _ result hmain huntouched
    rw [hmain]
    exact hR.assignEach false _ hworld

/-- Steps may be counted alike. -/
theorem Watching.pace (hV : Watching V) (h : Paired V m n) {steps steps' : Nat}
    {budget budget' : Option Nat} (hsteps : steps' = steps) (hbudget : budget' = budget) :
    Paired V { m with steps := steps, budget := budget }
      { n with steps := steps', budget := budget' } := by
  obtain ⟨⟨hs, ha, ho, hp⟩, hv⟩ := h
  exact ⟨⟨{ hs with }, ha, ho, { hp with steps := hsteps, budget := hbudget }⟩,
    hV.steady hv (.of_eq rfl rfl rfl) (.of_eq rfl rfl rfl)⟩

theorem Watching.started (hV : Watching V) (h : Paired V m n) : Paired V m.started n.started :=
  hV.pace h rfl (congrArg some h.1.paced.maxSteps)

theorem Watching.counted (hV : Watching V) (h : Paired V m n) : Paired V m.counted n.counted :=
  hV.pace h (congrArg (· + 1) h.1.paced.steps) h.1.paced.budget

/-- **Observers do not matter** for how nested machines end. -/
theorem runAt_impartial (hq : env.Quiet) (depth : Nat) : Impartial (runAt env depth) := by
  refine ⟨?_, runAt_hushes env depth⟩
  -- the nested machines of a run are run at the index below
  induction depth with
  | zero =>
    intro m n h
    exact ⟨rfl, agree_watching.started h⟩
  | succ depth ih =>
    intro m n h
    have hN := agree_watching.nesting hq ⟨ih, runAt_hushes env depth⟩
    rw [runAt, runAt, h.1.paced.maxSteps]
    exact (agree_watching.inStep hq).runSteps hN agree_watching.counted m.maxSteps
      (agree_watching.started h)

theorem run_impartial (hq : env.Quiet) : Impartial (Machine.run env) := by
  constructor
  · intro m n h
    rw [Machine.run, Machine.run, h.1.paced.maxSteps]
    exact (runAt_impartial hq m.maxSteps).alike h
  · intro log m h
    exact runAt_hushes env m.maxSteps h

end Watching

/-! ## What the observer counts -/

/-- The observer of the first machine counts what the recorder of the second records. -/
structure Tracks (start : List Block) (s r : Machine) : Prop where
  view : ∃ parent parameters,
    s.view = .isolated parent parameters s.values.length (lowest start r.world.log)
  recorder : r.view = .recorder
  replayed : replay start r.world.log = r.values

theorem pop_nil {m : Machine} (h : m.values = []) (c : Option Block) : m.pop c = (none, m) := by
  rw [pop]
  split
  · rfl
  · rename_i hv
    rw [h] at hv
    cases hv

/-- What a recorder hears of a pop. -/
theorem murmurs_pop {m : Machine} (hview : m.view = .recorder) {b : Block} {rest : List Block}
    (hv : m.values = b :: rest) (c : Option Block) :
    Murmurs (.popped b :: m.world.log) (m.pop c).2.world.log := by
  have hlog : (m.notify (.popped b)).world.log = .popped b :: m.world.log := by
    rw [notify_log, hview]
    rfl
  rw [pop]
  split
  · rename_i hnil
    rw [hv] at hnil
    cases hnil
  · rename_i hcons
    rw [hv] at hcons
    obtain ⟨rfl, rfl⟩ := List.cons.inj hcons
    cases c with
    | none => exact hlog ▸ .refl _
    | some c =>
      have hconsumed := (steady_notify (m.notify (.popped b)) (e := .consumed b c) rfl).log
      rwa [hlog] at hconsumed

theorem tracks_watching (start : List Block) : Watching (Tracks start) where
  push {s r} b ht h := by
    obtain ⟨⟨parent, parameters, hview⟩, hrecorder, hreplayed⟩ := h
    have hlog : (r.push b).world.log = .pushed b :: r.world.log := by
      change (r.notify (.pushed b)).world.log = _
      rw [notify_log, hrecorder]
      rfl
    have hreplay : replay start (.pushed b :: r.world.log) = b :: r.values := by
      rw [replay, hreplayed]
    -- a push does not lower the least height
    have hle := lowest_le_length start r.world.log
    refine ⟨⟨parent, parameters, ?_⟩, by rw [push_view, hrecorder]; rfl, ?_⟩
    · rw [push_view, hview, hlog, lowest, hreplay, push_values, View.pushed, List.length_cons,
        List.length_cons, Nat.min_eq_left]
      rw [← hreplayed]
      omega
    · rw [hlog, hreplay, push_values]
  pop {s r} c ht h := by
    obtain ⟨⟨parent, parameters, hview⟩, hrecorder, hreplayed⟩ := h
    cases hv : r.values with
    | nil =>
      rw [pop_nil (ht.same.values.trans hv), pop_nil hv]
      exact ⟨⟨parent, parameters, hview⟩, hrecorder, hreplayed⟩
    | cons b rest =>
      have hv' : s.values = b :: rest := ht.same.values.trans hv
      obtain ⟨hreplay, hlowest⟩ := (murmurs_pop hrecorder hv c).replay start
      have hrest : replay start (.popped b :: r.world.log) = rest := by
        rw [replay, hreplayed, hv]
        rfl
      refine ⟨⟨parent, parameters, ?_⟩, ?_, ?_⟩
      · rw [pop_view, hview, pop_values, hlowest, lowest, hrest, hv']
        rfl
      · rw [pop_view, hrecorder]
        split <;> rfl
      · rw [hreplay, hrest, pop_values, hv]
        rfl
  steady h hs hr := by
    obtain ⟨⟨parent, parameters, hview⟩, hrecorder, hreplayed⟩ := h
    obtain ⟨hreplay, hlowest⟩ := hr.log.replay start
    refine ⟨⟨parent, parameters, ?_⟩, hr.view.trans hrecorder, ?_⟩
    · rw [hs.view, hview, hs.values, hlowest]
    · rw [hreplay, hreplayed, hr.values]

/-- The machine of an isolated call of the stack at a location with a recorder in place of its
observer, and an empty log. -/
def watched (env : Environment) (loc : Loc) (m : Machine) : Machine :=
  let m := m.obfuscate loc false
  insert env (m.heap.get loc)
    { m.bare with view := .recorder, world := { m.bare.world with log := [] } }

section Watched

variable {env : Environment} {m n s s' : Machine} {k : Nat}

/-- Both start alike. -/
theorem tracks_callee (hq : env.Quiet) (loc : Loc) (m : Machine) :
    Paired (Tracks m.values) (m.callee env loc) (m.watched env loc) := by
  have hvalues : (m.obfuscate loc false).bare.values = m.values := bare_values _
  apply ((tracks_watching m.values).inStep hq).insert
  refine ⟨⟨⟨rfl, rfl, rfl, rfl, fun _ => rfl, fun _ => rfl, fun _ => rfl⟩, rfl, rfl, rfl, rfl, rfl, rfl⟩,
    ⟨m.view, m.active.parameters, ?_⟩, rfl, hvalues.symm⟩
  exact congrArg (fun values => View.isolated m.view m.active.parameters (List.length values)
    m.values.length) hvalues.symm

/-- Machines that are paired take their steps in pairs, -/
theorem Paired.step {V : Machine → Machine → Prop} (hV : Watching V) (hq : env.Quiet)
    (h : Paired V m n) {p : Progress} (hs : m.step (splicing env (run env)) env = (p, s)) :
    ∃ r, n.step (splicing env (run env)) env = (p, r) ∧ Paired V s r := by
  have hR := hV.inStep hq
  have hN := hV.nesting hq (run_impartial hq)
  obtain ⟨q, t, r, ht, hr, hnext⟩ := Related.elim (hR.step h fun b rest _ => hR.afterBlock hN h b rest)
  rw [hs] at ht
  obtain ⟨rfl, rfl⟩ := Prod.mk.inj ht
  exact ⟨r, hr, hnext⟩

/-- and so their runs. -/
theorem Steps.paired {V : Machine → Machine → Prop} (hV : Watching V) (hq : env.Quiet)
    (h : Paired V m n) (hs : Steps (splicing env (run env)) env m k s) :
    ∃ r, Steps (splicing env (run env)) env n k r ∧ Paired V s r := by
  induction hs with
  | start => exact ⟨n, .start, h⟩
  | more _ hstep ih =>
    obtain ⟨r, hr, hpair⟩ := ih
    obtain ⟨r', hr', hnext⟩ := hpair.step hV hq hstep
    exact ⟨r'.counted, .more hr hr', hV.counted hnext⟩

/-- The state of an isolated call, beside the state of the same machine with a recorder. -/
structure Observed (start : List Block) (s r : Machine) : Prop where
  /-- The recorder has not changed the run, -/
  values : r.values = s.values
  /-- and has every push and pop of it. -/
  replayed : replay start r.world.log = s.values
  /-- The first count is the height of the value stack, -/
  depth : s.view.counts = some (s.values.length, s.view.untouched)
  /-- the second is the least that it ever was, -/
  least : IsLeast { h | ∃ log, log <:+ r.world.log ∧ (replay start log).length = h } s.view.untouched
  /-- and so many of the lowest values are those that were there at the start. -/
  kept : s.values.reverse.take s.view.untouched = start.reverse.take s.view.untouched

theorem observed_of_tracks {start : List Block} {s r : Machine} (h : Paired (Tracks start) s r) :
    Observed start s r := by
  obtain ⟨ht, ⟨parent, parameters, hview⟩, -, hreplayed⟩ := h
  have huntouched : s.view.untouched = lowest start r.world.log := by
    rw [hview]
    rfl
  have hvalues : replay start r.world.log = s.values := hreplayed.trans ht.same.values.symm
  refine ⟨ht.same.values.symm, hvalues, ?_, ?_, ?_⟩
  · rw [hview]
    rfl
  · rw [huntouched]
    exact isLeast_lowest start r.world.log
  · rw [huntouched, ← hvalues]
    exact take_lowest start r.world.log

/-- This is what the caller relies on. -/
theorem intact_of_tracks {start : List Block} {s r : Machine} (h : Paired (Tracks start) s r) :
    Intact start s := by
  obtain ⟨-, hreplayed, -, ⟨-, hbound⟩, hkept⟩ := observed_of_tracks h
  obtain ⟨-, ⟨parent, parameters, hview⟩, -, -⟩ := h
  have huntouched : s.view.untouched = lowest start r.world.log := by
    rw [hview]
    rfl
  rw [huntouched] at hbound hkept
  refine ⟨parent, parameters, _, hview, ?_, hbound ⟨[], List.nil_suffix, rfl⟩, hkept⟩
  exact hreplayed ▸ hbound ⟨_, List.suffix_rfl, rfl⟩

end Watched

/-! ## What comes back -/

section NetEffect

variable {env : Environment} {run : Runner} {loc : Loc} {m s s' : Machine} {k : Nat}

theorem Steps.runSteps {d : Discipline} (h : Steps d env m k s) (left : Nat) :
    m.runSteps d env (k + left) = s.runSteps d env left := by
  induction h generalizing left with
  | start => rw [Nat.zero_add]
  | @more k s s' _ hs ih =>
    rw [Nat.add_assoc, ih, Nat.add_comm 1, Machine.runSteps, hs]
    rfl

/-- The values that an isolated call leaves. -/
theorem callIsolated_values {result : List Block} {sub : Machine}
    (hrun : run (m.callee env loc) = (result, sub)) :
    ∃ n : Machine, n.values = m.values ∧
      (m.callIsolated run env loc).values = (n.adopt result sub).values := by
  rw [callee] at hrun
  rw [callIsolated, hrun]
  refine ⟨_, ?_, rfl⟩
  exact assignEach_values _ _ _

/-- What an isolated call of the stack at a location does to the caller's values. -/
structure NetEffect (env : Environment) (b : Block) (loc : Loc) (m : Machine) : Prop where
  /-- Throughout the run of the nested machine, its observer counts right. -/
  throughout : ∀ k s, Steps (splicing env (Machine.run env)) env (m.callee env loc).started k s →
    ∃ r, Steps (splicing env (Machine.run env)) env (m.watched env loc).started k r ∧
      Observed m.values s r
  /-- If the run finishes within its limit, the observer has counted right to its end, and the caller
  has the values of the nested machine. -/
  finished : ∀ k s s', k < (m.callee env loc).maxSteps →
    Steps (splicing env (Machine.run env)) env (m.callee env loc).started k s →
    s.step (splicing env (Machine.run env)) env = (.finished, s') →
    (∃ r r', Steps (splicing env (Machine.run env)) env (m.watched env loc).started k r ∧
        r.step (splicing env (Machine.run env)) env = (.finished, r') ∧ Observed m.values s' r') ∧
      (m.evaluate (splicing env (Machine.run env)) env b).values = s'.values
  /-- If it takes all the steps of its limit and has work left, the caller has its old values and an
  error. -/
  exhausted : ∀ s, Steps (splicing env (Machine.run env)) env (m.callee env loc).started
      (m.callee env loc).maxSteps s → s.mainFrame.isFinished = false →
    (m.evaluate (splicing env (Machine.run env)) env b).values =
      stepLimitExceeded env.localizer :: m.values

/-- **Isolated calls hand back their values.** -/
theorem isolated_netEffect (env : Environment) (hq : env.Quiet) (m : Machine) (b : Block) (loc : Loc)
    (h : m.isolates? b = some loc) : NetEffect env b loc m := by
  have hV := tracks_watching m.values
  have hstart := hV.started (tracks_callee hq loc m)
  have hcall : m.evaluate (splicing env (Machine.run env)) env b =
      m.callIsolated (Machine.run env) env loc := by
    cases b with
    | code name target => exact call_of_isolates? h _ env
    | _ => cases h
  constructor
  · intro k s hs
    obtain ⟨r, hr, hpair⟩ := hs.paired hV hq hstart
    exact ⟨r, hr, observed_of_tracks hpair⟩
  · intro k s s' hk hs hfin
    obtain ⟨r, hr, hpair⟩ := hs.paired hV hq hstart
    obtain ⟨r', hr', hend⟩ := hpair.step hV hq hfin
    refine ⟨⟨r, r', hr, hr', observed_of_tracks hend⟩, ?_⟩
    -- the steps that were not taken make no difference
    have hrun : Machine.run env (m.callee env loc) = (s'.result, s') := by
      obtain ⟨left, hleft⟩ := Nat.exists_eq_add_of_lt hk
      rw [run_eq, hleft, Nat.add_assoc, hs.runSteps, Machine.runSteps, hfin]
    obtain ⟨n, hn, hvalues⟩ := callIsolated_values hrun
    rw [hcall, hvalues]
    exact (adopt_eq (hn ▸ intact_of_tracks hend) (mainFrame_of_finished hfin)).1
  · intro s hs hwork
    have hrun : Machine.run env (m.callee env loc) = ([stepLimitExceeded env.localizer], s) := by
      rw [run_eq]
      exact hs.runSteps 0
    obtain ⟨n, hn, hvalues⟩ := callIsolated_values hrun
    rw [hcall, hvalues, adopt, if_neg (by rw [hwork]; exact Bool.false_ne_true)]
    rw [(pushAll_eq _ _).1, hn]
    rfl

/-- A caller with two values, and a marked stack that takes one of them and puts another in its
place. -/
def swapper : Machine :=
  { make 10 Workspace.empty (World.ofSeed 0) with values := [.string "z", .string "y"] }.alloc
    { Stack.make "f" [.assign "x", .string "b"] with obfuscated := true } |>.2

/-- The call pops what the observer counts, and no more. -/
theorem isolated_netEffect_swapper :
    Environment.standard.Quiet ∧ swapper.isolates? (.code "f" (some 0)) = some 0 ∧
      (Machine.run Environment.standard
        (swapper.callee Environment.standard 0)).2.view.counts = some (2, 1) ∧
      (swapper.evaluate (splicing Environment.standard (Machine.run Environment.standard))
        Environment.standard (.code "f" (some 0))).values = [.string "b", .string "y"] := by
  have hq : Environment.standard.Quiet := fun e he => absurd he List.not_mem_nil
  have hcall : swapper.isolates? (.code "f" (some 0)) = some 0 := by decide +kernel
  have hresult : (Machine.run Environment.standard (swapper.callee Environment.standard 0)).1 =
      [.string "y", .string "b"] := by decide +kernel
  have heffect := isolated_netEffect Environment.standard hq swapper _ 0 hcall
  refine ⟨hq, hcall, by decide +kernel, ?_⟩
  obtain ⟨k, s, hs, ⟨hk, s', hlast, hrun⟩ | ⟨-, hrun⟩⟩ :=
    runSteps_cases (splicing Environment.standard (Machine.run Environment.standard))
      Environment.standard (swapper.callee Environment.standard 0).maxSteps
      (swapper.callee Environment.standard 0).started
  · rw [← run_eq] at hrun
    rw [hrun] at hresult
    rw [(heffect.finished k s s' hk hs hlast).2]
    exact List.reverse_injective hresult
  · rw [← run_eq] at hrun
    rw [hrun] at hresult
    cases hresult

end NetEffect

end Machine

end BlockMachine
