import BlockMachine.Proofs.Machine.Loops

/-!
# Loops stay flat

The operator of a loop runs a helper stack that ends with the operator for the next turn. Here a
loop is watched from turn to turn: where that operator stands among the frames, and how many frames
there are when it comes up.

* `Operator.again` — the operator for the next turn, `RunsHelper` — a turn that runs a helper stack;
  `turn_evaluate` — a turn is one, or it leaves the programs alone;
* `Stands q ps` — a frame around which the frames have the programs `ps` has `q` left to run, while
  it waits for a child or after that; `Awaits q ps` — it has `q` as the end of its program, with
  whatever runs in front of that or in its children; `Awaits.step` — a step keeps it until `q` is
  all that is left;
* `Watch` — a run in which a loop is watched, `Watch.step` — a step of it;
* `Watched` — what holds along it, `Watched.step` — step by step;
* `loops_stay_flat` — every such run is `Flat`: the operator comes up with one and the same number
  of frames in every turn after the first.
-/

namespace BlockMachine

namespace Operator

/-- Whether an operator starts a loop or drives one. -/
def loops : Operator → Bool
  | .compose | .iterate | .fold | .foldHelper | .filter | .filterHelper | .map => true
  | _ => false

/-- The operator for the next turn of a loop. A map goes over to a fold. -/
def again : Operator → Operator
  | .fold => .foldHelper
  | .filter => .filterHelper
  | .map => .fold
  | op => op

theorem loops_again {op : Operator} (hop : op.loops = true) : op.again.loops = true := by
  cases op with
  | compose | iterate | fold | foldHelper | filter | filterHelper | map => rfl
  | _ => cases hop

theorem loops_iterate {op : Operator} (hop : op.loops = true) (n : Nat) :
    (again^[n] op).loops = true := by
  induction n with
  | zero => exact hop
  | succ n ih =>
    rw [Function.iterate_succ_apply']
    exact loops_again ih

end Operator

namespace Machine

/-! ## A turn -/

/-- A helper stack is run that ends with the operator for the next turn. -/
def RunsHelper (op : Operator) (insert : Inserter) (m n : Machine) : Prop :=
  ∃ (name : String) (front : List Block) (x : Machine), x.programs = m.programs ∧
    n = insert (Stack.make name (front ++ [.operator op.again])) x

/-- What the operator of a loop gives, and the machine after it: the programs are left alone, or a
helper stack is run and nothing is given. -/
def Turn (op : Operator) (insert : Inserter) (m : Machine) (r : Option Block × Machine) : Prop :=
  r.2.programs = m.programs ∨ r.1 = none ∧ RunsHelper op insert m r.2

section Turn

variable {op : Operator} {insert : Inserter} {m n : Machine}

theorem turn_round (op : Operator) {helper : Operator} (hhelper : helper = op.again)
    (hn : n.programs = m.programs) (name : String) (element array f : Block) (next : Float) :
    Turn op insert m (none, n.round insert name helper element array f next) := by
  rw [round]
  split
  · rename_i call _
    subst hhelper
    exact .inr ⟨rfl, name, [element, call, n.resolve array, n.resolve f, .ofFloat next], n, hn, rfl⟩
  · exact .inl hn

theorem newVersion_programs (loc : Loc) (edit : List Block → List Block) (m : Machine) :
    (m.newVersion loc edit).2.programs = m.programs := by
  have hname : (m.nextName loc).2.programs = m.programs := by
    rw [nextName]
    simp only
    split <;> rfl
  exact hname

section Control

variable (insert : Inserter) (m : Machine) (array f i n keep : Block)

/-- A map always runs its helper stack. -/
theorem turn_mapArray : Turn .map insert m (none, m.mapArray insert array f) :=
  .inr ⟨rfl, "map", [(m.newData "append" [.operator .append]).2.newNull.1, m.resolve array,
    m.resolve f, (m.newData "append" [.operator .append]).1, .operator .read, .operator .append],
    (m.newData "append" [.operator .append]).2.newNull.2, rfl, rfl⟩

theorem turn_foldArray : Turn .fold insert m (none, m.foldArray insert array f) := by
  rw [foldArray]
  split
  · exact turn_round .fold rfl rfl _ _ _ _ _
  · exact .inl rfl

theorem turn_foldFrom : Turn .foldHelper insert m (none, m.foldFrom insert array f i) := by
  rw [foldFrom]
  split
  · exact turn_round .foldHelper rfl rfl _ _ _ _ _
  · exact .inl rfl

theorem turn_filterArray : Turn .filter insert m (m.filterArray insert array f) := by
  rw [filterArray]
  split
  · split
    · exact turn_round .filter rfl rfl _ _ _ _ _
    · exact .inl rfl
  · exact .inl rfl

theorem turn_filterFrom :
    Turn .filterHelper insert m (m.filterFrom insert keep array f i) := by
  rw [filterFrom]
  split
  · rename_i keep loc i _ _ _
    have hnew := newVersion_programs loc (dropBefore i) m
    -- an element that was kept stays where it is; one that was not is left out of a new version
    cases keep with
    | true =>
      simp only [if_true]
      split
      · exact turn_round .filterHelper rfl rfl _ _ _ _ _
      · exact .inl rfl
    | false =>
      simp only [Bool.false_eq_true, if_false]
      split
      · exact turn_round .filterHelper rfl hnew _ _ _ _ _
      · exact .inl hnew
  · exact .inl rfl

theorem turn_repeatTimes : Turn .compose insert m (none, m.repeatTimes insert f n) := by
  rw [repeatTimes]
  split
  · rename_i times call _ _
    split
    · exact .inl rfl
    · exact .inr ⟨rfl, "repeat", [call, m.resolve f, .ofFloat (times - 1)], m, rfl, rfl⟩
  · exact .inl rfl

theorem turn_iterate : Turn .iterate insert m (none, m.iterate insert f i n) := by
  rw [Machine.iterate]
  split
  · rename_i x _ call _ _ _
    split
    · exact .inl rfl
    · exact .inr ⟨rfl, "iter", [i, call, m.resolve f, .ofFloat (x + 1), n], m, rfl, rfl⟩
  · exact .inl rfl

end Control

theorem turn_operate (hop : op.loops = true) (d : Discipline) (env : Environment) (this : Block)
    (overload : Nat) (operands : List Block) (m : Machine) :
    Turn op d.insert m (m.operate d env this op overload operands) := by
  simp only [operate]
  split
  iterate 3
    · exact absurd hop (by decide)
  · exact turn_mapArray _ _ _ _
  · exact turn_foldArray _ _ _ _
  · exact turn_foldFrom _ _ _ _ _
  · exact absurd hop (by decide)
  · exact turn_filterArray _ _ _ _
  · exact turn_filterFrom _ _ _ _ _ _
  · exact turn_repeatTimes _ _ _ _
  · exact turn_iterate _ _ _ _ _
  iterate 17
    · exact absurd hop (by decide)
  · exact .inl rfl

/-- **A turn of a loop.** It leaves the programs alone, or it runs a helper stack. -/
theorem turn_evaluate (hop : op.loops = true) (d : Discipline) (env : Environment) (m : Machine) :
    (m.evaluate d env (.operator op)).programs = m.programs ∨
      RunsHelper op d.insert m (m.evaluate d env (.operator op)) := by
  have hframes := kept_frames m.active m.outer
  have hR := eq_congruent.and_kept hframes hframes
  obtain ⟨taken, m', _, hm, -, -, ⟨hactive, houter⟩, -⟩ :=
    (hR.takeFor ⟨rfl, ⟨rfl, rfl⟩, rfl, rfl⟩ env (.operator op) op).elim
  have hprograms : m'.programs = m.programs := by
    rw [programs, programs, frames_eq hactive houter]
  simp only [evaluate, evaluateOperator, hm]
  cases taken with
  | none => exact .inl hprograms
  | some taken =>
    obtain ⟨operands, overload⟩ := taken
    simp only
    have hturn := turn_operate hop d env (.operator op) overload operands m'
    generalize m'.operate d env (.operator op) op overload operands = r at hturn ⊢
    obtain ⟨b, n⟩ := r
    rcases hturn with hsame | ⟨hnone, name, front, x, hx, hn⟩
    · left
      cases b with
      | none => exact hsame.trans hprograms
      | some b =>
        refine Eq.trans ?_ (hsame.trans hprograms)
        simp [programs, frames]
    · obtain rfl : b = none := hnone
      exact .inr ⟨name, front, x, hx.trans hprograms, hn⟩

/-- The programs after a stack without parameters has been run from the active frame. -/
theorem insert_programs {s : Stack} (hinputs : s.inputs = []) (hblocks : s.blocks ≠ [])
    {rest : List Pending} {ps : List (List Pending)} (hm : m.programs = rest :: ps)
    (env : Environment) :
    (m.insert env s).programs =
      s.blocks.map .block :: if rest = [] then ps else (.child :: rest) :: ps := by
  obtain ⟨hactive, houter⟩ := List.cons.inj hm
  split
  · rename_i hrest
    obtain ⟨-, hactive', houter'⟩ := insert_spliced hinputs hblocks env (hactive.trans hrest)
    rw [programs, frames, hactive', houter', List.map_cons, houter]
  · rename_i hrest
    obtain ⟨-, hactive', houter'⟩ := insert_opened hinputs hblocks env (m := m)
      (by rw [hactive]; exact hrest)
    rw [programs, frames, hactive', houter', List.map_cons, List.map_cons, houter, waiting, hactive]

end Turn

/-! ## What waits in a frame -/

/-- A frame has `q` left to run, and the frames around it have the programs `ps`. The frame is
active, or it waits for a child. -/
def Stands (q : List Pending) (ps : List (List Pending)) (m : Machine) : Prop :=
  m.programs = q :: ps ∨ (.child :: q) :: ps <:+ m.outer.map Frame.program

/-- A frame has `q` as the end of its program, and the frames around it have the programs `ps`. -/
def Awaits (q : List Pending) (ps : List (List Pending)) (m : Machine) : Prop :=
  ∃ front, Stands (front ++ q) ps m

section Awaits

variable {q : List Pending} {ps : List (List Pending)} {m : Machine}

section

variable (env : Environment) (run : Runner)

/-- Every block leaves such a frame as it is: a stack that is run from it gets a child. -/
theorem stands_stable (hq : q ≠ []) (ps : List (List Pending)) :
    Stable (splicing env run) (Stands q ps) := by
  refine programs_stable ?_ ?_
  · rintro m n (h | h) hp
    · exact .inl (hp ▸ h)
    · exact .inr ((List.cons.inj hp).2 ▸ h)
  · rintro m s (h | h)
    · obtain ⟨hactive, houter⟩ := List.cons.inj h
      have hfin : m.active.isFinished = false := by
        rw [Frame.isFinished, hactive]
        simpa using hq
      right
      change _ <:+ (m.insert env s).outer.map Frame.program
      rw [insert_of_unfinished hfin, (insertChild_cases env s m).1, List.map_cons, houter, waiting,
        hactive]
    · exact .inr ((suffix_stable env run _).insert s h)

/-- The block in front is evaluated. -/
theorem stands_step_active {b : Block} (hm : Chained m) (hq : q ≠ [])
    (h : m.programs = (.block b :: q) :: ps) :
    Stands q ps (m.step (splicing env run) env).2 := by
  obtain ⟨hactive, houter⟩ := List.cons.inj h
  have hP := stands_stable env run hq ps
  have hstart : Stands q ps (m.withProgram q) := .inl (by rw [← houter]; rfl)
  have hafter : Stands q ps (m.afterBlock (splicing env run) env b q) :=
    hP.notify (.evaluated b) (hP.evaluate env b hstart)
  rw [step_block hm.busy hactive, if_neg]
  · exact hafter
  · rintro ⟨hlen, hfin⟩
    rcases hafter with hprograms | hsuffix
    · rw [Frame.isFinished, (List.cons.inj hprograms).1] at hfin
      exact hq (List.isEmpty_iff.1 hfin)
    · have hle := hsuffix.length_le
      rw [← houter, List.length_cons, List.length_map, List.length_map, hlen] at hle
      omega

/-- What the active frame does in a step leaves the programs around it as they are. -/
theorem suffix_stepFrame (hm : Chained m) (h : ps <:+ m.outer.map Frame.program) :
    ps <:+ (m.stepFrame (splicing env run) env).2.outer.map Frame.program := by
  rcases hp : m.active.program with _ | ⟨_ | b, rest⟩
  · rw [stepFrame_nil hp]
    exact h
  · rename_i b
    have hP := suffix_stable env run ps
    have hafter : ps <:+
        (m.afterBlock (splicing env run) env b rest).outer.map Frame.program :=
      hP.notify (.evaluated b) (hP.evaluate env b h)
    rw [stepFrame_block hp]
    split
    · exact hafter
    · exact hafter
  · refine absurd ?_ hm.active
    rw [hp]
    exact List.mem_cons_self

/-- A frame further in does something; it may be the child. -/
theorem stands_step_waiting (hm : Chained m)
    (h : (.child :: q) :: ps <:+ m.outer.map Frame.program) :
    Stands q ps (m.step (splicing env run) env).2 := by
  have houter : m.outer ≠ [] := by
    intro hnil
    rw [hnil] at h
    exact List.cons_ne_nil _ _ (List.suffix_nil.1 h)
  have hmain : m.mainFrame.isFinished = false := by
    rw [hm.busy.mainFrame_isFinished]
    simp [houter]
  have hframe := suffix_stepFrame env run hm h
  rw [step, if_neg (by rw [hmain]; exact Bool.false_ne_true), if_neg (by simpa using houter)]
  rcases hs : m.stepFrame (splicing env run) env with ⟨p, m'⟩
  obtain ⟨hm', -⟩ := hm.stepFrame hs
  rw [hs] at hframe
  cases p with
  | pending => exact .inr hframe
  | finished =>
    cases ho : m'.outer with
    | nil =>
      rw [ho] at hframe
      exact absurd (List.suffix_nil.1 hframe) (List.cons_ne_nil _ _)
    | cons parent outer =>
      obtain ⟨-, hout, hmark⟩ := hm'.closeFrame ho
      rw [ho, List.map_cons, hmark] at hframe
      rcases List.suffix_cons_iff.1 hframe with heq | hsuffix
      · obtain ⟨hq, hps⟩ := List.cons.inj heq
        left
        rw [programs, frames, List.map_cons, hout, ← hps, (List.cons.inj hq).2]
      · right
        simpa [hout] using hsuffix

end

/-- **A step** keeps what is awaited, until nothing else is left in its frame. -/
theorem Awaits.step (hm : Chained m) (hq : q ≠ []) (h : Awaits q ps m)
    (hbefore : m.programs ≠ q :: ps) (env : Environment) (run : Runner) :
    Awaits q ps (m.step (splicing env run) env).2 := by
  obtain ⟨front, h | h⟩ := h
  · rcases front with _ | ⟨_ | b, front⟩
    · exact absurd h hbefore
    · rename_i b
      exact ⟨front, stands_step_active env run hm (by simp [hq]) h⟩
    · refine absurd ?_ hm.active
      rw [(List.cons.inj h).1]
      exact List.mem_cons_self
  · exact ⟨front, stands_step_waiting env run hm h⟩

/-- The part that is awaited is all that is left in its frame, and this frame is active. -/
theorem Awaits.programs_eq (h : Awaits q ps m) (houter : m.outer.length = ps.length)
    (hactive : m.active.program.length = q.length) : m.programs = q :: ps := by
  obtain ⟨front, h | h⟩ := h
  · obtain rfl : front = [] := by
      have hlen := congrArg List.length (List.cons.inj h).1
      rw [List.length_append, hactive] at hlen
      exact List.eq_nil_of_length_eq_zero (by omega)
    exact h
  · have hle := h.length_le
    rw [List.length_cons, List.length_map] at hle
    omega

end Awaits

/-! ## A turn among the frames -/

section Turns

variable {op : Operator} {rest : List Pending} {ps : List (List Pending)} {m : Machine}

/-- The end of a step that has left the programs alone. -/
theorem done_of_programs {n : Machine} (hn : n.programs = rest :: ps)
    (hm : m.outer.length = ps.length) (env : Environment) {x : Progress × Machine}
    (hx : x = if n.outer.length = m.outer.length ∧ n.active.isFinished then
        if m.outer.isEmpty then (.finished, n.afterFrame env)
        else (.pending, (n.afterFrame env).closeFrame)
      else (.pending, n)) :
    x.2.isPast ps.length rest.length = true ∧
      (rest = [] → ps ≠ [] → x.2.outer.length < ps.length) := by
  obtain ⟨hactive, houter⟩ := List.cons.inj hn
  have hlen : n.outer.length = ps.length := by rw [← houter, List.length_map]
  subst hx
  cases rest with
  | cons p rest =>
    rw [if_neg (by rw [Frame.isFinished, hactive]; simp)]
    refine ⟨isPast_iff.2 (.inr ⟨hlen, ?_⟩), fun h => by cases h⟩
    rw [hactive]
  | nil =>
    have hfin : n.active.isFinished = true := by
      rw [Frame.isFinished, hactive]
      rfl
    rw [if_pos ⟨hlen.trans hm.symm, hfin⟩]
    cases ho : n.outer with
    | nil =>
      obtain rfl : ps = [] := by rw [← houter, ho]; rfl
      rw [if_pos (by simpa using hm)]
      refine ⟨isPast_iff.2 (.inr ⟨hlen, ?_⟩), fun _ h => absurd rfl h⟩
      exact Nat.le_of_eq (congrArg List.length hactive)
    | cons parent outer =>
      obtain ⟨-, hclosed⟩ := closeFrame_cons (n := n.afterFrame env) ho
      have hlt : (n.afterFrame env).closeFrame.outer.length < ps.length := by
        rw [hclosed, ← hlen, ho]
        exact Nat.lt_succ_self _
      rw [if_neg (by rw [List.isEmpty_iff_length_eq_zero]; omega)]
      exact ⟨isPast_iff.2 (.inl hlt), fun _ _ => hlt⟩

/-- **A turn.** With its operator in front of `rest`, either the loop goes on, with the operator for
the next turn as the last part of the active frame, which is a child unless `rest` is empty; or it
is done, and the frame is left if nothing else is in it. -/
theorem turn_step (hop : op.loops = true) (hm : Chained m)
    (h : m.programs = (.block (.operator op) :: rest) :: ps) (env : Environment) (run : Runner) :
    (∃ front, (m.step (splicing env run) env).2.programs =
        (front ++ [.block (.operator op.again)]) ::
          if rest = [] then ps else (.child :: rest) :: ps) ∨
      (m.step (splicing env run) env).2.isPast ps.length rest.length = true ∧
        (rest = [] → ps ≠ [] → (m.step (splicing env run) env).2.outer.length < ps.length) := by
  obtain ⟨hactive, houter⟩ := List.cons.inj h
  have hstart : (m.withProgram rest).programs = rest :: ps := by
    rw [← houter]
    rfl
  have hafter : (m.afterBlock (splicing env run) env (.operator op) rest).programs =
      ((m.withProgram rest).evaluate (splicing env run) env (.operator op)).programs := by
    simp [afterBlock, programs, frames]
  have hlen : m.outer.length = ps.length := by rw [← houter, List.length_map]
  rw [step_block hm.busy hactive]
  rcases turn_evaluate hop (splicing env run) env (m.withProgram rest) with
    hsame | ⟨name, front, x, hx, heval⟩
  · right
    rw [hsame, hstart] at hafter
    exact done_of_programs hafter hlen env rfl
  · left
    have hins := insert_programs (s := Stack.make name (front ++ [.operator op.again])) rfl
      (by simp [Stack.make]) (hx.trans hstart) env
    rw [heval] at hafter
    have hprograms := hafter.trans hins
    rw [if_neg]
    · refine ⟨front.map .block, hprograms.trans ?_⟩
      simp [Stack.make]
    · rintro ⟨-, hfin⟩
      rw [Frame.isFinished, (List.cons.inj hprograms).1] at hfin
      simp [Stack.make] at hfin

end Turns

/-! ## Watching a loop -/

/-- A place among the programs of a machine: in the frame with `around` frames around it, in front
of `behind` parts. -/
structure Place where
  around : Nat
  behind : Nat
deriving Repr, DecidableEq

/-- What stands at a place. -/
def partAt? (p : Place) (m : Machine) : Option Pending :=
  m.programs.reverse[p.around]?.bind fun program => program.reverse[p.behind]?

/-- Whether the part at a place is evaluated in the next step. -/
def isDue (p : Place) (m : Machine) : Bool :=
  m.outer.length == p.around && m.active.program.length == p.behind + 1

/-- A run in which a loop is watched: how often its operator was evaluated, and where the operator
for the next turn stands, unless the loop is done. -/
structure Watch where
  machine : Machine
  turns : Nat
  place : Option Place

/-- The start: blocks are to be evaluated and then the operator of the loop. -/
def Watch.start (entry : List Block) (op : Operator) (m : Machine) : Watch :=
  ⟨m.running (entry ++ [.operator op]), 0, some ⟨m.outer.length, m.active.program.length⟩⟩

/-- A step. In a turn of the loop, a helper stack may be run; then the last part of the active frame
is watched. If none is run, the loop is done. -/
def Watch.step (d : Discipline) (env : Environment) (w : Watch) : Watch :=
  let next := (w.machine.step d env).2.counted
  match w.place with
  | none => ⟨next, w.turns, none⟩
  | some p =>
    if w.machine.isDue p then
      ⟨next, w.turns + 1,
        if next.isPast p.around p.behind then none else some ⟨next.outer.length, 0⟩⟩
    else ⟨next, w.turns, some p⟩

/-- The run after so many steps. -/
def watch (d : Discipline) (env : Environment) (entry : List Block) (op : Operator) (m : Machine)
    (t : Nat) : Watch :=
  (Watch.step d env)^[t] (.start entry op m)

/-- The number of frames around a helper that is run from a machine: it gets a child unless nothing
is left to run. -/
def helperDepth (m : Machine) : Nat :=
  if m.active.program = [] then m.outer.length else m.outer.length + 1

/-- Where the operator of a loop stands after so many turns: where it stood first, and then as the
last part of the helper's frame. -/
def loopPlace (m : Machine) (turns : Nat) : Place :=
  if turns = 0 then ⟨m.outer.length, m.active.program.length⟩ else ⟨m.helperDepth, 0⟩

theorem loopPlace_succ (m : Machine) (turns : Nat) : (m.loopPlace (turns + 1)).around =
    if (m.loopPlace turns).behind = 0 then (m.loopPlace turns).around
    else (m.loopPlace turns).around + 1 := by
  cases turns with
  | zero => simp [loopPlace, helperDepth]
  | succ turns => simp [loopPlace]

theorem loopPlace_around (m : Machine) (turns : Nat) :
    (m.loopPlace turns).around = m.outer.length ∨
      (m.loopPlace turns).behind = 0 ∧ (m.loopPlace turns).around = m.outer.length + 1 := by
  rw [loopPlace]
  split
  · exact .inl rfl
  · rw [helperDepth]
    by_cases hlast : m.active.program = []
    · rw [if_pos hlast]
      exact .inl rfl
    · rw [if_neg hlast]
      exact .inr ⟨rfl, rfl⟩

/-- What holds while a loop is watched that was started from `m`. -/
structure Watched (m : Machine) (op : Operator) (w : Watch) : Prop where
  chained : Chained w.machine
  awaits : ∀ p, w.place = some p → p = m.loopPlace w.turns ∧
    ∃ rest ps, p = ⟨ps.length, rest.length⟩ ∧
      Awaits (.block (.operator (Operator.again^[w.turns] op)) :: rest) ps w.machine

section Watched

variable {m : Machine} {op : Operator} {w : Watch} {p : Place} {rest : List Pending}
  {ps : List (List Pending)}

theorem Awaits.partAt? {part : Pending} {n : Machine} (h : Awaits (part :: rest) ps n) :
    n.partAt? ⟨ps.length, rest.length⟩ = some part := by
  obtain ⟨front, h | ⟨inner, h⟩⟩ := h
  · simp [Machine.partAt?, h]
  · have hprograms : n.programs =
        (n.active.program :: inner) ++ (.child :: (front ++ part :: rest)) :: ps := by
      rw [programs, frames, List.map_cons, ← h]
      rfl
    simp [Machine.partAt?, hprograms]

theorem Awaits.programs_of_isDue {part : Pending} {n : Machine} (h : Awaits (part :: rest) ps n)
    (hdue : n.isDue ⟨ps.length, rest.length⟩ = true) : n.programs = (part :: rest) :: ps := by
  rw [isDue, Bool.and_eq_true, beq_iff_eq, beq_iff_eq] at hdue
  exact h.programs_eq hdue.1 hdue.2

theorem isDue_of_programs {part : Pending} {n : Machine}
    (h : n.programs = (part :: rest) :: ps) : n.isDue ⟨ps.length, rest.length⟩ = true := by
  obtain ⟨hactive, houter⟩ := List.cons.inj h
  rw [isDue, hactive, ← houter]
  simp

theorem watched_start (hm : Chained m) (entry : List Block) (op : Operator) :
    Watched m op (.start entry op m) := by
  refine ⟨hm.running _, ?_⟩
  intro p hp
  obtain rfl := Option.some.inj hp
  refine ⟨rfl, m.active.program, m.outer.map Frame.program, by rw [List.length_map],
    entry.map .block, .inl ?_⟩
  change _ :: m.outer.map Frame.program = _
  simp [Watch.start, running, withProgram]

/-- **A turn** of a loop that is watched: it goes on where it should, or it is done. -/
theorem Watched.turn (h : Watched m op w) (hop : op.loops = true) (hplace : w.place = some p)
    (hdue : w.machine.isDue p = true) (env : Environment) (run : Runner) {n : Machine}
    (hn : n = (w.machine.step (splicing env run) env).2) :
    (n.isPast p.around p.behind = false ∧ n.outer.length = (m.loopPlace (w.turns + 1)).around ∧
        ∃ ps, ps.length = n.outer.length ∧
          Awaits [.block (.operator (Operator.again^[w.turns + 1] op))] ps n) ∨
      n.isPast p.around p.behind = true ∧ n.outer.length ≤ m.outer.length := by
  obtain ⟨hp, rest, ps, rfl, hawaits⟩ := h.awaits p hplace
  have hsucc := loopPlace_succ m w.turns
  have hfirst := loopPlace_around m w.turns
  rw [← hp] at hsucc hfirst
  subst hn
  rcases turn_step (Operator.loops_iterate hop w.turns) h.chained (hawaits.programs_of_isDue hdue)
    env run with ⟨front, hprograms⟩ | ⟨hpast, hclosed⟩
  · left
    rw [← Function.iterate_succ_apply' Operator.again] at hprograms
    obtain ⟨hactive, houter⟩ := List.cons.inj hprograms
    have hlen := congrArg List.length houter
    rw [List.length_map, apply_ite List.length, List.length_cons] at hlen
    have hwhere : (w.machine.step (splicing env run) env).2.outer.length =
        (m.loopPlace (w.turns + 1)).around := by
      rw [hlen, hsucc]
      simp only [List.length_eq_zero_iff]
    refine ⟨?_, hwhere, _, ?_, front, .inl hprograms⟩
    · rw [not_isPast_iff, hlen, hactive]
      split
      · rename_i hrest
        simp [hrest]
      · exact .inl (Nat.lt_succ_self _)
    · rw [← houter, List.length_map]
  · right
    refine ⟨hpast, ?_⟩
    have hle : (w.machine.step (splicing env run) env).2.outer.length ≤ ps.length := by
      rcases isPast_iff.1 hpast with hlt | ⟨heq, -⟩
      · exact Nat.le_of_lt hlt
      · exact Nat.le_of_eq heq
    rcases hfirst with hfirst | ⟨hrest, hfirst⟩
    · exact hfirst ▸ hle
    · -- the helper's frame is closed
      have hlt := hclosed (List.eq_nil_of_length_eq_zero hrest) (by
        rintro rfl
        cases hfirst)
      rw [show ps.length = m.outer.length + 1 from hfirst] at hlt
      exact Nat.le_of_lt_succ hlt

/-- **A step** of a run in which a loop is watched. -/
theorem Watched.step (h : Watched m op w) (hop : op.loops = true) (env : Environment)
    (run : Runner) : Watched m op (w.step (splicing env run) env) := by
  have hchained := (h.chained.step env run).counted
  rw [Watch.step]
  cases hplace : w.place with
  | none => exact ⟨hchained, fun p hp => by cases hp⟩
  | some p =>
    obtain ⟨hp, rest, ps, rfl, hawaits⟩ := h.awaits p hplace
    simp only
    split
    · rename_i hdue
      refine ⟨hchained, ?_⟩
      intro p' hp'
      rcases h.turn hop hplace hdue env run rfl with
        ⟨hgoes, hwhere, ps', hps', hawaits'⟩ | ⟨hdone, -⟩
      · have hpast : (w.machine.step (splicing env run) env).2.counted.isPast ps.length
          rest.length = false := hgoes
        simp only [hpast, Bool.false_eq_true, if_false] at hp'
        obtain rfl := Option.some.inj hp'
        refine ⟨?_, [], ps', by rw [hps']; rfl, hawaits'⟩
        simp only [counted, hwhere, loopPlace, Nat.succ_ne_zero, if_false]
      · have hpast : (w.machine.step (splicing env run) env).2.counted.isPast ps.length
          rest.length = true := hdone
        simp only [hpast, if_true] at hp'
        cases hp'
    · rename_i hdue
      refine ⟨hchained, ?_⟩
      intro p' hp'
      obtain rfl := Option.some.inj hp'
      obtain ⟨front, hstands⟩ := hawaits.step h.chained (List.cons_ne_nil _ _)
        (fun hprograms => hdue (isDue_of_programs hprograms)) env run
      exact ⟨hp, rest, ps, rfl, front, hstands⟩

/-- **The run.** -/
theorem watched_watch (hm : Chained m) (hop : op.loops = true) (entry : List Block)
    (env : Environment) (run : Runner) (t : Nat) :
    Watched m op (watch (splicing env run) env entry op m t) := by
  induction t with
  | zero => exact watched_start hm entry op
  | succ t ih =>
    rw [watch, Function.iterate_succ_apply']
    exact ih.step hop env run

/-- The step in which a loop is done leaves no more frames than there were at its start. -/
theorem Watched.done (h : Watched m op w) (hop : op.loops = true) (env : Environment)
    (run : Runner) (hplace : w.place ≠ none)
    (hdone : (w.step (splicing env run) env).place = none) :
    (w.step (splicing env run) env).machine.frames.length ≤ m.frames.length := by
  obtain ⟨p, hp⟩ := Option.ne_none_iff_exists'.1 hplace
  simp only [Watch.step, hp] at hdone ⊢
  split at hdone
  · rename_i hdue
    rw [if_pos hdue]
    rcases h.turn hop hp hdue env run rfl with ⟨hgoes, -⟩ | ⟨-, hle⟩
    · have hpast : (w.machine.step (splicing env run) env).2.counted.isPast p.around p.behind =
        false := hgoes
      simp [hpast] at hdone
    · exact Nat.succ_le_succ hle
  · cases hdone

end Watched

/-- What a loop that was started from `m` looks like at a moment. -/
structure Flat (d : Discipline) (env : Environment) (m : Machine) (op : Operator) (w : Watch) :
    Prop where
  /-- As long as it goes on, what is watched is the operator for its next turn. -/
  driver : ∀ p, w.place = some p →
    w.machine.partAt? p = some (.block (.operator (Operator.again^[w.turns] op)))
  /-- That is evaluated next when it is due. -/
  next : ∀ p, w.place = some p → w.machine.isDue p = true →
    w.machine.active.program.head? = some (.block (.operator (Operator.again^[w.turns] op)))
  /-- Then there are as many frames as at the start in the first turn and one more in all others, or
  as many in all if the loop stands last in its frame. -/
  frames : ∀ p, w.place = some p → w.machine.isDue p = true → w.machine.frames.length =
    if w.turns = 0 ∨ m.active.program = [] then m.frames.length else m.frames.length + 1
  /-- The step after which the loop is done leaves no more frames than there were at the start. -/
  done : w.place ≠ none → (w.step d env).place = none →
    (w.step d env).machine.frames.length ≤ m.frames.length

/-- **Loops stay flat.** Blocks that leave the operands of a loop, and then its operator, are run
from any machine, with any functions and for any number of steps. In every turn after the first the
operator comes up with one and the same number of frames. -/
theorem loops_stay_flat (env : Environment) (run : Runner) {m : Machine} (hm : Chained m)
    (op : Operator) (hop : op.loops = true) (entry : List Block) (t : Nat) :
    Flat (splicing env run) env m op (watch (splicing env run) env entry op m t) := by
  have hw := watched_watch hm hop entry env run t
  generalize watch (splicing env run) env entry op m t = w at hw
  refine ⟨?_, ?_, ?_, hw.done hop env run⟩
  · intro p hp
    obtain ⟨-, rest, ps, rfl, hawaits⟩ := hw.awaits p hp
    exact hawaits.partAt?
  · intro p hp hdue
    obtain ⟨-, rest, ps, rfl, hawaits⟩ := hw.awaits p hp
    rw [(List.cons.inj (hawaits.programs_of_isDue hdue)).1]
    rfl
  · intro p hp hdue
    obtain ⟨hplace, rest, ps, rfl, hawaits⟩ := hw.awaits p hp
    have hlen : w.machine.outer.length = (m.loopPlace w.turns).around := by
      rw [← hplace, ← (List.cons.inj (hawaits.programs_of_isDue hdue)).2, List.length_map]
    change w.machine.outer.length + 1 = if _ then m.outer.length + 1 else m.outer.length + 1 + 1
    rw [hlen, loopPlace, helperDepth]
    by_cases hfirst : w.turns = 0
    · simp [hfirst]
    · by_cases hlast : m.active.program = []
      · simp [hfirst, hlast]
      · simp [hfirst, hlast]

/-- A machine with three elements and a function that calls another one. -/
def threeElements : Machine :=
  shelf [] [Stack.make "a" [.boolean true, .boolean false, .boolean true],
    Stack.make "f" [.code "g" (some 2)], Stack.make "g" [.string "x", .string "y"]]

/-- A fold over them: the third turn comes up with two frames, and in the end there is one. -/
theorem loops_stay_flat_fold :
    let w := watch (splicing .standard idle) .standard [.data 0 true, .data 1 true] .fold
      threeElements
    ((w 20).turns = 2 ∧
      (w 20).machine.active.program.head? = some (.block (.operator .foldHelper)) ∧
      (w 20).machine.frames.length = 2) ∧
    (w 30).place = none ∧ (w 30).machine.frames.length ≤ 1 := by
  intro w
  have hflat : ∀ t, Flat _ _ threeElements .fold (w t) := fun t =>
    loops_stay_flat .standard idle (chained_shelf _ _) .fold rfl [.data 0 true, .data 1 true] t
  have hlast : w 30 = (w 29).step (splicing .standard idle) .standard :=
    Function.iterate_succ_apply' _ 29 _
  have hturns : (w 20).turns = 2 := by decide +kernel
  have hplace : (w 20).place = some ⟨1, 0⟩ := by decide +kernel
  have hdue : (w 20).machine.isDue ⟨1, 0⟩ = true := by decide +kernel
  have hbefore : (w 29).place ≠ none := by decide +kernel
  have hdone : (w 30).place = none := by decide +kernel
  have hnext := (hflat 20).next _ hplace hdue
  have hframes := (hflat 20).frames _ hplace hdue
  have hend := (hflat 29).done hbefore
  clear_value w
  rw [hturns] at hnext hframes
  rw [← hlast] at hend
  exact ⟨⟨hturns, hnext, hframes⟩, hdone, hend hdone⟩

end Machine

end BlockMachine
