import BlockMachine.Proofs.Machine.Budgets
import BlockMachine.Proofs.Machine.Persistence

/-!
# Segments of a run

A stretch of a run: from a machine to the point at which a given frame has come down to the last
parts of its program. No nested machine is asked for along it.

* `isPast k r` — the frame with `k` frames around it has at most `r` parts of its program left;
  `isInline` — the next block asks for no nested machine;
* `Leads c m m'` — `c` such steps lead from `m` to `m'`, all of them before that point;
  `Reaches m m'` — and `m'` is at that point;
* `Leads.resume`, `Leads.stopover` — there is one way, and it passes every earlier point;
  `Leads.steps` — it is part of the run;
* `Lasting.leads` — what all steps keep is kept along the way;
* `leads_values`, `evaluate_fixed`, `evaluate_overloaded` — blocks that only push a value, and an
  operator on the operands that they push.
-/

namespace BlockMachine

/-- Whether a block is data, which is pushed when it is evaluated. -/
def Block.isValue : Block → Bool
  | .operator _ | .assign _ | .fetch _ | .code .. | .getSymbol _ | .setSymbol _ | .extension _ =>
    false
  | _ => true

namespace Machine

/-- Whether the frame with `k` frames around it has at most `r` parts of its program left. -/
def isPast (k r : Nat) (m : Machine) : Bool :=
  m.outer.length < k || m.outer.length == k && m.active.program.length ≤ r

/-- Whether a block is evaluated without a nested machine. -/
def runsInline (m : Machine) (b : Block) : Bool :=
  !b.samples && (m.isolates? b).isNone

/-- Whether the next block, if there is one, is evaluated without a nested machine. -/
def isInline (m : Machine) : Bool :=
  match m.active.program with
  | .block b :: _ => m.runsInline b
  | _ => true

/-- So many steps from one machine to another, each of which begins before a point and asks for no
nested machine. -/
def Leads (d : Discipline) (env : Environment) (k r : Nat) : Nat → Machine → Machine → Prop
  | 0, m, x => x = m
  | c + 1, m, x => m.isPast k r = false ∧ m.isInline = true ∧
    Leads d env k r c (m.step d env).2.counted x

/-- The run from a machine to the point at which the frame with `k` frames around it has at most `r`
parts of its program left. -/
def Reaches (d : Discipline) (env : Environment) (k r : Nat) (m x : Machine) : Prop :=
  ∃ c, Leads d env k r c m x ∧ x.isPast k r = true

/-- The machine at that point, if so many steps suffice. -/
def reach? (d : Discipline) (env : Environment) (k r : Nat) : Nat → Machine → Option Machine
  | 0, m => if m.isPast k r then some m else none
  | left + 1, m =>
    if m.isPast k r then some m
    else if m.isInline then reach? d env k r left (m.step d env).2.counted
    else none

theorem isPast_iff {k r : Nat} {m : Machine} : m.isPast k r = true ↔
    m.outer.length < k ∨ m.outer.length = k ∧ m.active.program.length ≤ r := by
  simp [isPast]

theorem not_isPast_iff {k r : Nat} {m : Machine} : m.isPast k r = false ↔
    k < m.outer.length ∨ m.outer.length = k ∧ r < m.active.program.length := by
  rw [← Bool.not_eq_true, isPast_iff]
  omega

/-- A point of an inner frame, or of the same frame with more left, comes earlier. -/
theorem isPast_mono {k k' r r' : Nat} (h : k < k' ∨ k = k' ∧ r ≤ r') {m : Machine}
    (hm : m.isPast k r = true) : m.isPast k' r' = true := by
  rw [isPast_iff] at hm ⊢
  omega

/-! ## The way -/

section Leads

variable {d : Discipline} {env : Environment} {k r c c' : Nat} {m m' x y : Machine}

theorem Leads.trans (h : Leads d env k r c m m') (h' : Leads d env k r c' m' x) :
    Leads d env k r (c + c') m x := by
  induction c generalizing m with
  | zero =>
    rw [show m' = m from h] at h'
    rwa [Nat.zero_add]
  | succ c ih =>
    obtain ⟨hpast, hinline, hrest⟩ := h
    rw [Nat.succ_add]
    exact ⟨hpast, hinline, ih hrest⟩

/-- **One way.** Who gets to the point gets there from every machine on the way. -/
theorem Leads.resume (h : Leads d env k r c m m') (hx : Leads d env k r c' m x)
    (hpast : x.isPast k r = true) : ∃ j, c' = c + j ∧ Leads d env k r j m' x := by
  induction c generalizing m c' with
  | zero =>
    rw [show m' = m from h]
    exact ⟨c', (Nat.zero_add _).symm, hx⟩
  | succ c ih =>
    obtain ⟨hbefore, -, hrest⟩ := h
    cases c' with
    | zero =>
      rw [show x = m from hx, hbefore] at hpast
      cases hpast
    | succ c' =>
      obtain ⟨j, rfl, hj⟩ := ih hrest hx.2.2
      exact ⟨j, by omega, hj⟩

/-- A segment up to an earlier point is part of the way. -/
theorem Leads.weaken {k' r' : Nat} (hearly : k < k' ∨ k = k' ∧ r ≤ r')
    (h : Leads d env k' r' c m x) : Leads d env k r c m x := by
  induction c generalizing m with
  | zero => exact h
  | succ c ih =>
    obtain ⟨hbefore, hinline, hrest⟩ := h
    refine ⟨?_, hinline, ih hrest⟩
    rw [not_isPast_iff] at hbefore ⊢
    omega

/-- **Points on the way.** Every earlier point is passed. -/
theorem Leads.stopover (k' r' : Nat) (hearly : k < k' ∨ k = k' ∧ r ≤ r')
    (h : Leads d env k r c m x) (hpast : x.isPast k r = true) :
    ∃ i j y, c = i + j ∧ Leads d env k' r' i m y ∧ y.isPast k' r' = true ∧
      Leads d env k r j y x := by
  induction c generalizing m with
  | zero =>
    obtain rfl : x = m := h
    exact ⟨0, 0, x, rfl, rfl, isPast_mono hearly hpast, rfl⟩
  | succ c ih =>
    cases hm : m.isPast k' r' with
    | true => exact ⟨0, c + 1, m, by omega, rfl, hm, h⟩
    | false =>
      obtain ⟨-, hinline, hrest⟩ := h
      obtain ⟨i, j, y, rfl, hi, hy, hj⟩ := ih hrest
      exact ⟨i + 1, j, y, by omega, ⟨hm, hinline, hi⟩, hy, hj⟩

theorem Reaches.unique (h : Reaches d env k r m x) (h' : Reaches d env k r m y) : x = y := by
  obtain ⟨c, hc, hx⟩ := h
  obtain ⟨c', hc', hy⟩ := h'
  obtain ⟨j, -, hj⟩ := hc.resume hc' hy
  cases j with
  | zero => exact hj.symm
  | succ j =>
    rw [hj.1] at hx
    cases hx

theorem Leads.reaches (h : Leads d env k r c m m') (h' : Reaches d env k r m' x) :
    Reaches d env k r m x := by
  obtain ⟨c', hc', hx⟩ := h'
  exact ⟨c + c', h.trans hc', hx⟩

theorem Leads.isFinished (h : Leads d env k r c m x) (hm : m.mainFrame.isFinished = true) :
    x.mainFrame.isFinished = true := by
  induction c generalizing m with
  | zero =>
    rw [show x = m from h]
    exact hm
  | succ c ih =>
    obtain ⟨-, -, hrest⟩ := h
    rw [step, if_pos hm] at hrest
    exact ih hrest hm

/-- **The way is part of the run**, if the main program has more to do at its end. -/
theorem Leads.steps (h : Leads d env k r c m x) (hx : x.mainFrame.isFinished = false) :
    Steps d env m c x := by
  induction c generalizing m with
  | zero =>
    rw [show x = m from h]
    exact .start
  | succ c ih =>
    obtain ⟨-, -, hrest⟩ := h
    rcases hm : m.step d env with ⟨_ | _, m'⟩
    · rw [hm] at hrest
      exact (ih hrest).cons hm
    · rw [hm] at hrest
      have hmain : m'.mainFrame.isFinished = true := mainFrame_of_finished hm
      have hend := hrest.isFinished hmain
      rw [hx] at hend
      cases hend

theorem reaches_of_reach? (left : Nat) :
    ∀ {m : Machine}, m.reach? d env k r left = some x → Reaches d env k r m x := by
  induction left with
  | zero =>
    intro m h
    rw [reach?] at h
    split at h
    · rename_i hpast
      cases h
      exact ⟨0, rfl, hpast⟩
    · cases h
  | succ left ih =>
    intro m h
    rw [reach?] at h
    split at h
    · rename_i hpast
      cases h
      exact ⟨0, rfl, hpast⟩
    · rename_i hbefore
      split at h
      · rename_i hinline
        obtain ⟨c, hc, hx⟩ := ih h
        exact ⟨c + 1, ⟨by simpa using hbefore, hinline, hc⟩, hx⟩
      · cases h

end Leads

/-! ## What is kept along the way -/

section Kept

variable {env : Environment} {run : Runner} {k r : Nat} {m x : Machine}

theorem Lasting.step_inline {P : Machine → Prop} (hP : Lasting env P) (hinline : m.isInline = true)
    (h : P m) : P (m.step (splicing env run) env).2 := by
  have hblock : ∀ b rest, m.active.program = .block b :: rest →
      m.afterBlock (splicing env run) env b rest = m.afterBlock (splicing env run) env b rest ∧
        P (m.afterBlock (splicing env run) env b rest) := by
    intro b rest hp
    have hb : m.runsInline b = true := by simpa [isInline, hp] using hinline
    rw [runsInline, Bool.and_eq_true] at hb
    obtain ⟨hsample, hisolate⟩ := hb
    refine hP.inStep.notify _ rfl (hP.inStep.evaluate ⟨rfl, hP.frames _ _ h⟩ b ?_ ?_)
    · intro hs
      rw [hs] at hsample
      cases hsample
    · intro loc hloc
      rw [show m.isolates? b = some loc from hloc] at hisolate
      cases hisolate
  exact (hP.inStep.step ⟨rfl, h⟩ hblock).2.2

/-- **What all steps keep** is kept along the way. -/
theorem Lasting.leads {P : Machine → Prop} (hP : Lasting env P)
    (hcounted : ∀ {m : Machine}, P m → P m.counted) {c : Nat} :
    ∀ {m : Machine}, P m → Leads (splicing env run) env k r c m x → P x := by
  induction c with
  | zero =>
    rintro m h rfl
    exact h
  | succ c ih =>
    rintro m h ⟨-, hinline, hrest⟩
    exact ih (hcounted (hP.step_inline hinline h)) hrest

theorem Holds.leads {workspace : Workspace} {h : Heap} {c : Nat} (hm : Holds workspace h m)
    (hc : Leads (splicing env run) env k r c m x) : Holds workspace h x :=
  (holds_lasting env workspace h).leads (fun hm => hm.of_eq rfl rfl) hm hc

theorem Chained.counted (h : Chained m) : Chained m.counted :=
  ⟨h.active, h.outer⟩

theorem Chained.leads {c : Nat} :
    ∀ {m : Machine}, Chained m → Leads (splicing env run) env k r c m x → Chained x := by
  induction c with
  | zero =>
    rintro m h rfl
    exact h
  | succ c ih =>
    rintro m h ⟨-, -, hrest⟩
    exact ih (h.step env run).counted hrest

end Kept

/-- The machine with blocks in front of what is left of its active frame. -/
def running (bs : List Block) (m : Machine) : Machine :=
  m.withProgram (bs.map .block ++ m.active.program)

theorem Chained.running {m : Machine} (h : Chained m) (bs : List Block) :
    Chained (m.running bs) := by
  refine ⟨?_, h.outer⟩
  rw [Machine.running, withProgram, List.mem_append, not_or]
  exact ⟨child_not_mem_blocks bs, h.active⟩

/-! ## Blocks that run inline -/

/-- A block that runs inline, on machines that are alike: up to its last move, they stay so and
their frames stay as they were. -/
theorem Alike.evaluate_inline {m n : Machine} (h : Same m n) (d d' : Discipline) (env : Environment)
    (hf : ∀ name, m.recalled env name = n.recalled env name) {b : Block}
    (hb : m.runsInline b = true) :
    Joint (fun x y => Same x y ∧ (x.active = m.active ∧ x.outer = m.outer) ∧
        y.active = n.active ∧ y.outer = n.outer)
      d.insert d'.insert (m.evaluate d env b) (n.evaluate d' env b) := by
  rw [runsInline, Bool.and_eq_true, Bool.not_eq_true'] at hb
  obtain ⟨hsample, hisolate⟩ := hb
  cases hp : m.isPlain b with
  | true => exact h.evaluate d d' env hf b hp (fun _ => trivial) (fun _ => trivial)
  | false =>
    rcases cases_of_not_plain hp with ⟨op, rfl, hop⟩ | ⟨name, target, loc, rfl, hloc⟩ | ⟨ext, rfl⟩
    · rw [show Block.samples (.operator op) = true from hop] at hsample
      cases hsample
    · rw [hloc] at hisolate
      cases hisolate
    · have hR : Congruent fun x y => Same x y ∧ (x.active = m.active ∧ x.outer = m.outer) ∧
          y.active = n.active ∧ y.outer = n.outer :=
        alike_congruent.and_kept (kept_frames m.active m.outer) (kept_frames n.active n.outer)
      simp only [Machine.evaluate]
      split
      · exact .stay (hR.push _ ⟨h, ⟨rfl, rfl⟩, rfl, rfl⟩)
      · exact .stay (hR.respread ⟨h, ⟨rfl, rfl⟩, rfl, rfl⟩ _ _ _)

theorem Alike.runsInline {m n : Machine} (h : Same m n) (b : Block) :
    m.runsInline b = n.runsInline b := by
  have hisolate : m.isolates? b = n.isolates? b := by
    cases b with
    | code name target =>
      rw [isolates?, isolates?, alike_congruent.resolve h, alike_congruent.heap h]
    | _ => rfl
  rw [Machine.runsInline, Machine.runsInline, hisolate]

/-! ## Values -/

theorem evaluate_value {b : Block} (hb : b.isValue = true) (d : Discipline) (env : Environment)
    (m : Machine) : m.evaluate d env b = m.push (m.resolve b) := by
  cases b with
  | operator | assign | fetch | code | getSymbol | setSymbol | extension => cases hb
  | _ => rfl

theorem runsInline_value {b : Block} (hb : b.isValue = true) (m : Machine) :
    m.runsInline b = true := by
  cases b with
  | operator | assign | fetch | code | getSymbol | setSymbol | extension => cases hb
  | _ => rfl

/-- The machine `n` is `m` with other values and another program in its active frame, up to what no
block reads. -/
structure Moved (m : Machine) (values : List Block) (program : List Pending) (n : Machine) :
    Prop where
  same : Same { m with values := values } n
  active : n.active = { m.active with program := program }
  outer : n.outer = m.outer

section Moved

variable {m n l : Machine} {vs vs' : List Block} {program program' : List Pending}

theorem moved_self (m : Machine) : Moved m m.values m.active.program m :=
  ⟨Alike.refl _, rfl, rfl⟩

theorem Moved.values (h : Moved m vs program n) : n.values = vs :=
  h.same.values.symm

theorem Moved.heap (h : Moved m vs program n) : n.heap = m.heap :=
  (alike_congruent.heap h.same).symm

theorem Moved.resolve (h : Moved m vs program n) (b : Block) : n.resolve b = m.resolve b :=
  (alike_congruent.resolve h.same b).symm

theorem Alike.withValues (h : Same m n) (vs : List Block) :
    Same { m with values := vs } { n with values := vs } :=
  { h with values := rfl }

theorem Moved.trans (h : Moved m vs program n) (h' : Moved n vs' program' l) :
    Moved m vs' program' l := by
  refine ⟨(h.same.withValues vs').trans h'.same, ?_, h'.outer.trans h.outer⟩
  rw [h'.active, h.active]

theorem Moved.holds {workspace : Workspace} {h : Heap} (hmoved : Moved m vs program n)
    (hm : Holds workspace h m) : Holds workspace h n :=
  hm.of_eq hmoved.same.workspace.symm hmoved.heap

theorem moved_withProgram (program : List Pending) (m : Machine) :
    Moved m m.values program (m.withProgram program) :=
  ⟨alike_blind.frames _ _ _ _ (Alike.refl m), rfl, rfl⟩

theorem moved_push (b : Block) (m : Machine) :
    Moved m (b :: m.values) m.active.program (m.push b) := by
  refine ⟨⟨?_, ?_, ?_, ?_, ?_, ?_, ?_⟩, ?_, ?_⟩
  all_goals simp

theorem moved_pop (c : Option Block) (m : Machine) :
    Moved m m.values.tail m.active.program (m.pop c).2 := by
  refine ⟨⟨?_, ?_, ?_, ?_, ?_, ?_, ?_⟩, ?_, ?_⟩
  all_goals simp

theorem moved_pushAll (bs : List Block) :
    ∀ m : Machine, Moved m (bs.reverse ++ m.values) m.active.program (m.pushAll bs) := by
  induction bs with
  | nil => exact moved_self
  | cons b bs ih =>
    intro m
    have hmoved := ih (m.push b)
    rw [(moved_push b m).values, (moved_push b m).active] at hmoved
    rw [List.reverse_cons, List.append_assoc]
    exact (moved_push b m).trans hmoved

end Moved

section Values

variable (env : Environment) (run : Runner) {k r : Nat} {rest : List Pending}

/-- A block that opens a child or leaves its frame with something to run. -/
theorem leads_open {m : Machine} {b : Block} (hm : Chained m)
    (hp : m.active.program = .block b :: rest) (hb : m.runsInline b = true)
    (hpast : m.isPast k r = false)
    (hopen : ¬(((m.withProgram rest).evaluate (splicing env run) env b).outer.length =
        m.outer.length ∧
      ((m.withProgram rest).evaluate (splicing env run) env b).active.isFinished = true)) :
    ∃ n, Leads (splicing env run) env k r 1 m n ∧
      Same ((m.withProgram rest).evaluate (splicing env run) env b) n ∧
      n.active = ((m.withProgram rest).evaluate (splicing env run) env b).active ∧
      n.outer = ((m.withProgram rest).evaluate (splicing env run) env b).outer := by
  have hinline : m.isInline = true := by
    rw [isInline, hp]
    exact hb
  refine ⟨_, ⟨hpast, hinline, rfl⟩, ?_⟩
  rw [step_block hm.busy hp, if_neg (by simpa [afterBlock] using hopen)]
  refine ⟨(alike_notify _ _).trans (alike_counted _), ?_, ?_⟩
  · simp [afterBlock, counted]
  · simp [afterBlock, counted]

/-- A block after which its frame, a child, has nothing left to run. -/
theorem leads_close_on {m : Machine} {b : Block} {f : Frame} {fs : List Frame}
    (hquiet : env.QuietOn ((m.withProgram rest).evaluate (splicing env run) env b).active.name)
    (hm : Chained m) (hp : m.active.program = .block b :: rest) (hb : m.runsInline b = true)
    (hpast : m.isPast k r = false)
    (ho : ((m.withProgram rest).evaluate (splicing env run) env b).outer = f :: fs)
    (hlen : m.outer.length = (f :: fs).length)
    (hdone : ((m.withProgram rest).evaluate (splicing env run) env b).active.isFinished = true) :
    ∃ n, Leads (splicing env run) env k r 1 m n ∧
      Same ((m.withProgram rest).evaluate (splicing env run) env b) n ∧
      n.active = { f with program := f.program.tail } ∧ n.outer = fs := by
  have hinline : m.isInline = true := by
    rw [isInline, hp]
    exact hb
  have ho' : (m.afterBlock (splicing env run) env b rest).outer = f :: fs := by
    simpa [afterBlock] using ho
  obtain ⟨hactive, houter⟩ := closeFrame_cons ho'
  refine ⟨_, ⟨hpast, hinline, rfl⟩, ?_⟩
  rw [step_block hm.busy hp, if_pos (by rw [ho', hlen]; simpa [afterBlock] using hdone),
    if_neg (by rw [List.isEmpty_iff_length_eq_zero, hlen]; simp),
    afterFrame_of_quietOn (by simpa [afterBlock] using hquiet)]
  exact ⟨((alike_notify _ _).trans (alike_closeFrame _)).trans (alike_counted _), hactive, houter⟩

theorem leads_close {m : Machine} {b : Block} {f : Frame} {fs : List Frame} (hquiet : env.Quiet)
    (hm : Chained m) (hp : m.active.program = .block b :: rest) (hb : m.runsInline b = true)
    (hpast : m.isPast k r = false)
    (ho : ((m.withProgram rest).evaluate (splicing env run) env b).outer = f :: fs)
    (hlen : m.outer.length = (f :: fs).length)
    (hdone : ((m.withProgram rest).evaluate (splicing env run) env b).active.isFinished = true) :
    ∃ n, Leads (splicing env run) env k r 1 m n ∧
      Same ((m.withProgram rest).evaluate (splicing env run) env b) n ∧
      n.active = { f with program := f.program.tail } ∧ n.outer = fs :=
  leads_close_on env run (hquiet.on _) hm hp hb hpast ho hlen hdone

/-- A block after which the main program has nothing left to run. -/
theorem leads_finish_on {m : Machine} {b : Block}
    (hquiet : env.QuietOn ((m.withProgram rest).evaluate (splicing env run) env b).active.name)
    (hm : Chained m)
    (hp : m.active.program = .block b :: rest) (hb : m.runsInline b = true)
    (hpast : m.isPast k r = false) (hmo : m.outer = [])
    (ho : ((m.withProgram rest).evaluate (splicing env run) env b).outer = [])
    (hdone : ((m.withProgram rest).evaluate (splicing env run) env b).active.isFinished = true) :
    ∃ n, Leads (splicing env run) env k r 1 m n ∧
      Same ((m.withProgram rest).evaluate (splicing env run) env b) n ∧
      n.active = ((m.withProgram rest).evaluate (splicing env run) env b).active ∧
      n.outer = [] := by
  have hinline : m.isInline = true := by
    rw [isInline, hp]
    exact hb
  have ho' : (m.afterBlock (splicing env run) env b rest).outer = [] := by
    simpa [afterBlock] using ho
  refine ⟨_, ⟨hpast, hinline, rfl⟩, ?_⟩
  rw [step_block hm.busy hp, if_pos (by rw [ho', hmo]; simpa [afterBlock] using hdone), hmo,
    afterFrame_of_quietOn (by simpa [afterBlock] using hquiet)]
  refine ⟨(alike_notify _ _).trans (alike_counted _), ?_, ho'⟩
  simp [afterBlock, counted]

/-- A value is pushed in one step. -/
theorem leads_value {m : Machine} {b : Block} (hm : Chained m)
    (hp : m.active.program = .block b :: rest) (hb : b.isValue = true) (hrest : rest ≠ [])
    (hpast : m.isPast k r = false) :
    ∃ n, Leads (splicing env run) env k r 1 m n ∧ Moved m (m.resolve b :: m.values) rest n := by
  have hmoved : Moved m (m.resolve b :: m.values) rest
      ((m.withProgram rest).evaluate (splicing env run) env b) := by
    rw [evaluate_value hb]
    exact (moved_withProgram rest m).trans (moved_push _ _)
  have hfin : ((m.withProgram rest).evaluate (splicing env run) env b).active.isFinished =
      false := by
    rw [hmoved.active]
    simpa [Frame.isFinished] using hrest
  obtain ⟨n, hn, hsame, hactive, houter⟩ := leads_open env run hm hp
    (runsInline_value hb m) hpast (by rw [hfin]; simp)
  exact ⟨n, hn, hmoved.same.trans hsame, hactive.trans hmoved.active, houter.trans hmoved.outer⟩

/-- Values are pushed one by one. -/
theorem leads_values (bs : List Block) (hb : ∀ b ∈ bs, b.isValue = true) (hrest : rest ≠ []) :
    ∀ {m : Machine}, Chained m → m.active.program = bs.map .block ++ rest →
      (k < m.outer.length ∨ m.outer.length = k ∧ r ≤ rest.length) →
      ∃ n, Leads (splicing env run) env k r bs.length m n ∧
        Moved m ((bs.map m.resolve).reverse ++ m.values) rest n := by
  induction bs with
  | nil =>
    intro m hm hp hk
    refine ⟨m, rfl, ?_⟩
    have hself := moved_self m
    rw [hp] at hself
    exact hself
  | cons b bs ih =>
    intro m hm hp hk
    have hpast : m.isPast k r = false := by
      rw [not_isPast_iff, hp]
      simp only [List.map_cons, List.cons_append, List.length_cons, List.length_append]
      omega
    have hrest' : bs.map .block ++ rest ≠ [] := by simp [hrest]
    obtain ⟨n, hn, hmoved⟩ := leads_value env run hm hp
      (hb b List.mem_cons_self) hrest' hpast
    have hchain : Chained n := hm.leads hn
    obtain ⟨x, hx, hmoved'⟩ := ih (fun b hb' => hb b (List.mem_cons_of_mem _ hb')) hchain
      (by rw [hmoved.active]; rfl) (by rw [hmoved.outer]; exact hk)
    refine ⟨x, ?_, ?_⟩
    · have := hn.trans hx
      rwa [Nat.add_comm] at this
    · have hresolve : n.resolve = m.resolve := funext hmoved.resolve
      have := hmoved.trans hmoved'
      rw [hmoved.values, hresolve] at this
      simpa using this

/-! ## Operators -/

/-- Operands that are there are popped. -/
theorem popOperands_eq (this : Block) (operands : List Block) {vals : List Block} :
    ∀ {m : Machine}, m.values = operands ++ vals →
      ∃ n, m.popOperands this operands.length = (operands.reverse, n) ∧
        Moved m vals m.active.program n := by
  induction operands with
  | nil =>
    intro m hv
    refine ⟨m, rfl, ?_⟩
    have hself := moved_self m
    rw [hv] at hself
    exact hself
  | cons b operands ih =>
    intro m hv
    have hpop : m.pop (some this) = (some b, (m.pop (some this)).2) := by
      rw [pop]
      simp only [List.cons_append] at hv
      simp only [hv]
    have hmoved := moved_pop (some this) m
    rw [hv] at hmoved
    obtain ⟨n, hn, hmoved'⟩ := ih hmoved.values
    rw [hmoved.active] at hmoved'
    refine ⟨n, ?_, hmoved.trans hmoved'⟩
    rw [List.length_cons, popOperands, hpop]
    simp only [hn, List.reverse_cons]

/-- **An operator on its operands.** -/
theorem evaluate_fixed {m : Machine} {op : Operator} {tags : List Tag} {operands vals : List Block}
    (hsig : op.info.signature = .fixed tags) (hfit : fits tags operands = true)
    (hv : m.values = operands.reverse ++ vals) (d : Discipline) (env : Environment) :
    ∃ n, Moved m vals m.active.program n ∧ m.evaluate d env (.operator op) =
      match n.operate d env (.operator op) op 0 operands with
      | (some b, n) => n.push b
      | (none, n) => n := by
  obtain ⟨n, hn, hmoved⟩ := popOperands_eq (.operator op) operands.reverse hv
  have hlen : tags.length = operands.length := (fits_iff.1 hfit).length_eq
  rw [List.length_reverse, List.reverse_reverse, ← hlen] at hn
  have htake : m.takeFor env (.operator op) op = (some (operands, 0), n) := by
    simp only [takeFor, hsig, takeOperands, hn, hfit, if_true, Option.map_some]
  refine ⟨n, hmoved, ?_⟩
  rewrite [evaluate, evaluateOperator, htake]
  rfl

/-- An operator with several lists of tags, on operands that fit one of these first. -/
theorem evaluate_overloaded {m : Machine} {op : Operator} {combinations : List (List Tag)} {i : Nat}
    {operands vals : List Block} (hsig : op.info.signature = .overloaded combinations)
    (harity : (combinations.head?.map List.length).getD 0 = operands.length)
    (hfit : (combinations.findIdx? fun tags => fits tags operands) = some i)
    (hv : m.values = operands.reverse ++ vals) (d : Discipline) (env : Environment) :
    ∃ n, Moved m vals m.active.program n ∧ m.evaluate d env (.operator op) =
      match n.operate d env (.operator op) op i operands with
      | (some b, n) => n.push b
      | (none, n) => n := by
  obtain ⟨n, hn, hmoved⟩ := popOperands_eq (.operator op) operands.reverse hv
  rw [List.length_reverse, List.reverse_reverse, ← harity] at hn
  have htake : m.takeFor env (.operator op) op = (some (operands, i), n) := by
    simp only [takeFor, hsig, takeOverloaded, hn, hfit]
  refine ⟨n, hmoved, ?_⟩
  rewrite [evaluate, evaluateOperator, htake]
  rfl

end Values

/-! ## Stacks without parameters -/

section Insert

variable {s : Stack} {m : Machine}

/-- A stack that is run from a frame with nothing left takes its place. -/
theorem insert_spliced (hinputs : s.inputs = []) (hblocks : s.blocks ≠ []) (env : Environment)
    (hp : m.active.program = []) :
    Same m (m.insert env s) ∧
      (m.insert env s).active = { m.active with program := s.blocks.map .block, name := s.name } ∧
      (m.insert env s).outer = m.outer := by
  rw [insert_of_finished (by simp [Frame.isFinished, hp]), load_eq env hinputs hblocks]
  refine ⟨(alike_blind.frames _ _ _ _ (Alike.refl m)).trans (alike_notify _ _), ?_, ?_⟩
  · simp [Frame.loaded, Frame.bindEach]
  · simp

/-- A stack that is run from a frame with something left runs in a child. -/
theorem insert_opened (hinputs : s.inputs = []) (hblocks : s.blocks ≠ []) (env : Environment)
    (hp : m.active.program ≠ []) :
    Same m (m.insert env s) ∧
      (m.insert env s).active = ⟨s.blocks.map .block, [], s.name⟩ ∧
      (m.insert env s).outer = waiting m.active :: m.outer := by
  rw [insert_of_unfinished (by simpa [Frame.isFinished] using hp), insertChild,
    load_eq env hinputs hblocks]
  refine ⟨?_, ?_, ?_⟩
  · exact ((alike_blind.frames _ _ _ _ (Alike.refl m)).trans (alike_notify _ _)).trans
      (alike_notify _ _)
  · simp [Frame.loaded, Frame.bindEach, Frame.empty]
  · simp

/-- A call of a stack, in front of another block, runs the stack in a child. -/
theorem leads_call (env : Environment) (run : Runner) {k r : Nat} {rest : List Pending}
    {name : String} {loc : Loc} (hinputs : (m.heap.get loc).inputs = [])
    (hblocks : (m.heap.get loc).blocks ≠ []) (hplain : (m.heap.get loc).obfuscated = false)
    (hm : Chained m) (hp : m.active.program = .block (.code name (some loc)) :: rest)
    (hrest : rest ≠ []) (hpast : m.isPast k r = false) :
    ∃ n, Leads (splicing env run) env k r 1 m n ∧ Same m n ∧
      n.active = ⟨(m.heap.get loc).blocks.map .block, [], (m.heap.get loc).name⟩ ∧
      n.outer = { m.active with program := .child :: rest } :: m.outer := by
  have heval : (m.withProgram rest).evaluate (splicing env run) env (.code name (some loc)) =
      (m.withProgram rest).insert env (m.heap.get loc) := by
    change (if (m.heap.get loc).obfuscated then _ else (m.withProgram rest).insert env _) = _
    rw [hplain]
    rfl
  have hb : m.runsInline (.code name (some loc)) = true := by
    have hisolate : m.isolates? (.code name (some loc)) = none := by
      change (if (m.heap.get loc).obfuscated then some loc else none) = none
      rw [hplain]
      rfl
    rw [runsInline, hisolate]
    rfl
  obtain ⟨hsame, hactive, houter⟩ :=
    insert_opened hinputs hblocks env (m := m.withProgram rest) hrest
  obtain ⟨n, hn, hsame', hactive', houter'⟩ := leads_open env run hm hp hb hpast (by
    rw [heval, hactive]
    simp [Frame.isFinished, hblocks])
  rw [heval] at hsame' hactive' houter'
  exact ⟨n, hn, ((moved_withProgram rest m).same.trans hsame).trans hsame', hactive'.trans hactive,
    houter'.trans houter⟩

end Insert

end Machine

end BlockMachine
