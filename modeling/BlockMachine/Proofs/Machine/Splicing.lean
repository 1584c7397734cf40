import BlockMachine.Module.Samples
import BlockMachine.Proofs.Machine.MergedFrames

/-!
# Tail calls are transparent

A machine that splices calls in tail position is followed by one that opens a child for every call,
`insertChild`. Where the first closes a frame, the second has as many frames to close as there were
calls in tail position, each in a step of its own.

* `Covers m n` — a machine that splices and one that does not, in the same state;
  `Covers.afterBlock` — a block keeps them so;
* `Answers` — the second machine runs to an end like a given one; `answers_of_finished` — it closes a
  whole chain of frames;
* `Covers.answers` — it follows every plain run of the first;
* `run_insertChild` — a stack started on both has the same values and memory in the end, and all
  recollections on the way yield the same blocks.
-/

namespace BlockMachine.Machine

open BlockMachine.Frame (Gathers Merged)

/-- The discipline that opens a child for every call. -/
def nesting (env : Environment) (run : Runner) : Discipline :=
  ⟨insertChild env, run⟩

/-- A machine that splices and one that opens a child for every call, in the same state. -/
structure Covers (m n : Machine) : Prop where
  alike : Same m n
  merged : Merged m.frames n.frames
  chained : Chained m

theorem Covers.program {m n : Machine} (h : Covers m n) : m.active.program = n.active.program := by
  obtain ⟨gs, ns, hg, -, -⟩ := h.merged.uncons
  exact hg.program

theorem Covers.busy {m n : Machine} (h : Covers m n) : n.Busy := by
  obtain ⟨gs, ns, hg, ho, hrest⟩ := h.merged.uncons
  intro f hf
  rw [ho] at hf
  rcases List.mem_append.1 hf with hf | hf
  · simp [Frame.isFinished, hg.idle f hf]
  · exact hrest.unfinished h.chained.busy f hf

theorem Covers.recalled {m n : Machine} (h : Covers m n) (env : Environment) (name : String) :
    m.recalled env name = n.recalled env name := by
  simp only [Machine.recalled, fetch, unassigned, heap]
  rw [h.merged.fetch, h.alike.store]

theorem Covers.recollection {m n : Machine} (h : Covers m n) (env : Environment) :
    m.recollection env = n.recollection env := by
  simp only [Machine.recollection]
  rw [h.program]
  split
  · rw [h.recalled]
  · rfl

theorem Covers.isPlainNext {m n : Machine} (h : Covers m n) : m.isPlainNext = n.isPlainNext := by
  simp only [Machine.isPlainNext, isPlain]
  rw [h.program]
  simp only [alike_congruent.resolve h.alike, alike_congruent.heap h.alike]

/-! ## One block -/

/-- A stack run from the active frames of two machines in the same state, in a child of the second
in any case: both get the same new frame, or the frame of the first gets what the child of the
second gets. -/
theorem merged_insert {m n : Machine} (env : Environment) (s : Stack) (ha : Same m n)
    (hm : Merged m.frames n.frames) :
    Same (m.insert env s) (insertChild env s n) ∧
      Merged (m.insert env s).frames (insertChild env s n).frames := by
  obtain ⟨gs, ns, hg, ho, hrest⟩ := hm.uncons
  have ha' : ∀ a o, Same { m with active := a, outer := o }
      { n with active := Frame.empty, outer := waiting n.active :: n.outer } :=
    fun a o => alike_blind.frames _ _ _ _ ha
  have hout := (insertChild_cases env s n).1
  cases hfin : m.active.isFinished with
  | true =>
    have hp : m.active.program = [] := by simpa [Frame.isFinished] using hfin
    have hp' : n.active.program = [] := by rw [← hg.program, hp]
    obtain ⟨hl, hframes⟩ := alike_blind.load (ha' m.active m.outer) env s
    rw [insert_of_finished hfin]
    refine ⟨hl.trans (alike_notify _ _), ?_⟩
    have hg' : Gathers (m.load env s).active (insertChild env s n).active
        (waiting n.active :: gs) := by
      rcases hframes with ⟨h₁, h₂⟩ | ⟨-, bound, h₁, h₂⟩
      · refine hg.extend hp' ?_ ?_
        · rw [h₁, insertChild_active, h₂]
          exact Frame.extends_self rfl
        · rw [h₁, insertChild_active, h₂]
          exact hp
      · refine hg.extend hp' ?_ ?_
        · rw [h₁, insertChild_active, h₂]
          exact Frame.Extends.bindEach bound (Frame.extends_self rfl)
        · rw [h₁, insertChild_active, h₂, Frame.loaded_program, Frame.loaded_program]
    have hmerged := Merged.cons hg' hrest
    simp only [frames]
    rw [hout, ho, (load_cases env s m).1]
    exact hmerged
  | false =>
    rw [insert_of_unfinished hfin]
    obtain ⟨hl, hframes⟩ := alike_blind.load (ha' Frame.empty (waiting m.active :: m.outer)) env s
    refine ⟨alike_blind.notify _ _ hl, ?_⟩
    have hsame : (insertChild env s m).active = (insertChild env s n).active := by
      rw [insertChild_active, insertChild_active]
      rcases hframes with ⟨h₁, h₂⟩ | ⟨-, bound, h₁, h₂⟩
      · rw [h₁, h₂]
      · rw [h₁, h₂]
    simp only [frames]
    rw [hout, (insertChild_cases env s m).1, hsame, ho]
    exact .cons (Frame.gathers_self _) (.cons hg.waiting hrest)

/-- The last move of a block, on two machines in the same state. If the second opens no child,
neither does the first. -/
theorem merged_joint {m n x y : Machine} {env : Environment} (hm : Merged m.frames n.frames)
    (hj : Joint (fun x y => Same x y ∧ (x.active = m.active ∧ x.outer = m.outer) ∧
      y.active = n.active ∧ y.outer = n.outer) (Machine.insert env) (insertChild env) x y) :
    Same x y ∧ Merged x.frames y.frames ∧
      (y.outer.length = n.outer.length → x.outer.length = m.outer.length) := by
  cases hj with
  | stay h =>
    obtain ⟨ha, ⟨hma, hmo⟩, hna, hno⟩ := h
    rw [frames_eq hma hmo, frames_eq hna hno, hmo]
    exact ⟨ha, hm, fun _ => rfl⟩
  | bind name b h =>
    obtain ⟨ha, ⟨hma, hmo⟩, hna, hno⟩ := h
    rw [assign_frames, assign_frames, frames_eq hma hmo, frames_eq hna hno, assign_outer_length,
      assign_outer_length, hmo]
    refine ⟨?_, hm.bindUp name b, fun _ => rfl⟩
    exact alike_assign ha name b
  | enter s h =>
    rename_i x y
    obtain ⟨ha, ⟨hma, hmo⟩, hna, hno⟩ := h
    have hxy : Merged x.frames y.frames := by
      rw [frames_eq hma hmo, frames_eq hna hno]
      exact hm
    obtain ⟨ha', hm'⟩ := merged_insert env s ha hxy
    refine ⟨ha', hm', ?_⟩
    rw [(insertChild_cases env s y).1, hno]
    intro hlen
    simp at hlen

/-- **One block.** After a plain block the machines are in the same state again, and if the second
has opened no child, neither has the first. -/
theorem Covers.afterBlock {m n : Machine} (h : Covers m n) {b : Block} {rest : List Pending}
    (hp : m.active.program = .block b :: rest) (hplain : m.isPlain b = true) (env : Environment)
    (run run' : Runner) :
    Covers (m.afterBlock (splicing env run) env b rest) (n.afterBlock (nesting env run') env b rest) ∧
      ((n.afterBlock (nesting env run') env b rest).outer.length = n.outer.length →
        (m.afterBlock (splicing env run) env b rest).outer.length = m.outer.length) := by
  obtain ⟨gs, ns, hg, ho, hrest⟩ := h.merged.uncons
  have hmerged : Merged (m.withProgram rest).frames (n.withProgram rest).frames := by
    have := Merged.cons (hg.withProgram rest) hrest
    rw [← ho] at this
    exact this
  have halike : Same (m.withProgram rest) (n.withProgram rest) :=
    alike_blind.frames _ _ _ _ h.alike
  have hj := halike.evaluate (splicing env run) (nesting env run') env (h.recalled env) b hplain
    (fun _ => trivial) (fun _ => trivial)
  obtain ⟨ha, hm, hlen⟩ := merged_joint hmerged hj
  refine ⟨⟨alike_blind.notify _ _ ha, ?_, h.chained.afterBlock env run hp⟩, ?_⟩
  · simpa [Machine.afterBlock, frames] using hm
  · simpa [Machine.afterBlock, withProgram] using hlen

/-! ## Runs -/

/-- The machine runs plainly to an end that is like the machine `v`. -/
def Answers (d : Discipline) (env : Environment) (trace : List Block) (v n : Machine) : Prop :=
  ∃ n', PlainRun d env n trace n' ∧ Same v n'

section

variable {d : Discipline} {env : Environment} {trace : List Block} {v n : Machine}

theorem recollection_nil (hp : n.active.program = []) : n.recollection env = [] := by
  simp [recollection, hp]

theorem isPlainNext_nil (hp : n.active.program = []) : n.isPlainNext = true := by
  simp [isPlainNext, hp]

/-- A finished child is closed in a step that recalls nothing. -/
theorem answers_closeFrame (hb : n.Busy) (hp : n.active.program = []) (ho : n.outer ≠ []) :
    Answers d env trace v n ↔ Answers d env trace v n.closeFrame.counted := by
  have hs : n.step d env = (.pending, n.closeFrame) := by
    rw [step_nil hb hp, if_neg (by simpa using ho)]
  constructor
  · rintro ⟨n', hrun, hv⟩
    cases hrun with
    | last _ hs' =>
      rw [hs] at hs'
      cases hs'
    | more _ hs' hrest =>
      rw [hs] at hs'
      cases hs'
      rw [recollection_nil hp]
      exact ⟨n', hrest, hv⟩
  · rintro ⟨n', hrun, hv⟩
    refine ⟨n', ?_, hv⟩
    have := PlainRun.more (isPlainNext_nil hp) hs hrun
    rw [recollection_nil hp] at this
    exact this

/-- **A chain of finished frames.** All of them are closed, one in a step. Then the run goes on with
the frame around them. -/
theorem answers_of_finished {u : Machine} {ns : List Frame} (gs : List Frame) :
    ∀ {n : Machine}, Same u n → n.active.program = [] → n.outer = gs ++ ns →
      (∀ g ∈ gs, g.program = [.child]) → (∀ f ∈ ns, f.isFinished = false) →
      (∀ {n' : Machine}, Same u n' → n'.active.program = [] → n'.outer = ns →
        Answers d env trace v n') →
      Answers d env trace v n := by
  induction gs with
  | nil =>
    intro n ha hp ho _ _ hnext
    exact hnext ha hp ho
  | cons g gs ih =>
    intro n ha hp ho hidle hns hnext
    have hb : n.Busy := by
      intro f hf
      rw [ho] at hf
      rcases List.mem_append.1 hf with hf | hf
      · simp [Frame.isFinished, hidle f hf]
      · exact hns f hf
    rw [answers_closeFrame hb hp (by rw [ho]; exact List.cons_ne_nil _ _)]
    obtain ⟨hactive, houter⟩ := closeFrame_cons (n := n) (p := g) ho
    have hcounted := (ha.trans (alike_closeFrame n)).trans (alike_counted _)
    refine ih hcounted ?_ houter (fun f hf => hidle f (List.mem_cons_of_mem _ hf)) hns hnext
    change n.closeFrame.active.program = []
    rw [hactive]
    simp [hidle g List.mem_cons_self]

/-- A block that opens a child or leaves its frame with work to do. -/
theorem answers_of_pending {b : Block} {rest : List Pending} (hb : n.Busy)
    (hp : n.active.program = .block b :: rest) (hplain : n.isPlainNext = true)
    (hmore : ¬((n.afterBlock d env b rest).outer.length = n.outer.length ∧
      (n.afterBlock d env b rest).active.isFinished = true))
    (h : Answers d env trace v (n.afterBlock d env b rest).counted) :
    Answers d env (n.recollection env ++ trace) v n := by
  obtain ⟨n', hrun, hv⟩ := h
  refine ⟨n', .more hplain ?_ hrun, hv⟩
  rw [step_block hb hp, if_neg hmore]

/-- A block after which its frame has nothing left to do: if the frame is the only one, the run ends,
else it is closed, at once or after the child that the block has opened. -/
theorem answers_of_done {b : Block} {rest : List Pending} (hq : env.Quiet) (hb : n.Busy)
    (hp : n.active.program = .block b :: rest) (hplain : n.isPlainNext = true)
    (hbusy : (n.afterBlock d env b rest).Busy)
    (hdone : (n.afterBlock d env b rest).active.program = [])
    (hlast : n.outer = [] → (n.afterBlock d env b rest).outer = [] →
      trace = [] ∧ Same v (n.afterBlock d env b rest))
    (h : Answers d env trace v (n.afterBlock d env b rest))
    (h' : Answers d env trace v (n.afterBlock d env b rest).counted) :
    Answers d env (n.recollection env ++ trace) v n := by
  have hfin : (n.afterBlock d env b rest).active.isFinished = true := by
    simp [Frame.isFinished, hdone]
  by_cases hlen : (n.afterBlock d env b rest).outer.length = n.outer.length
  · have hs := step_block hb hp d env
    rw [if_pos ⟨hlen, hfin⟩, afterFrame_of_quiet hq] at hs
    by_cases ho : n.outer = []
    · have ho' : (n.afterBlock d env b rest).outer = [] := by
        rw [ho] at hlen
        exact List.eq_nil_of_length_eq_zero hlen
      obtain ⟨rfl, hv⟩ := hlast ho ho'
      rw [if_pos (by simp [ho])] at hs
      refine ⟨_, ?_, hv⟩
      rw [List.append_nil]
      exact .last hplain hs
    · have ho' : (n.afterBlock d env b rest).outer ≠ [] := by
        intro hnil
        rw [hnil] at hlen
        exact ho (List.eq_nil_of_length_eq_zero hlen.symm)
      rw [if_neg (by simpa using ho)] at hs
      rw [answers_closeFrame hbusy hdone ho'] at h
      obtain ⟨n', hrun, hv⟩ := h
      exact ⟨n', .more hplain hs hrun, hv⟩
  · exact answers_of_pending hb hp hplain (fun hboth => hlen hboth.1) h'

/-- Counting a step does not matter. -/
theorem Covers.counted_right {m : Machine} (h : Covers m n) : Covers m n.counted :=
  ⟨h.alike.trans (alike_counted n), h.merged, h.chained⟩

theorem Covers.counted_left {m : Machine} (h : Covers m n) : Covers m.counted n :=
  ⟨(alike_counted m).symm.trans h.alike, h.merged, ⟨h.chained.active, h.chained.outer⟩⟩

/-- The main program has finished on the machine that splices. -/
theorem Covers.finish {m : Machine} (h : Covers m n) (hp : m.active.program = [])
    (ho : m.outer = []) : Answers d env [] m n := by
  obtain ⟨gs, ns, hg, hon, hrest⟩ := h.merged.uncons
  rw [ho] at hrest
  cases hrest
  refine answers_of_finished gs h.alike (hg.program.symm.trans hp) hon hg.idle ?_ ?_
  · exact fun f hf => absurd hf List.not_mem_nil
  · intro n' ha' hp' ho'
    have hb : n'.Busy := by
      rw [Busy]
      rw [ho']
      exact fun f hf => absurd hf List.not_mem_nil
    refine ⟨n', ?_, ha'⟩
    have := PlainRun.last (isPlainNext_nil hp') (step_nil hb hp' d env ▸ if_pos (by simp [ho']))
    rw [recollection_nil hp'] at this
    exact this

/-- A child has finished on the machine that splices. -/
theorem Covers.close {m : Machine} (h : Covers m n) (hp : m.active.program = [])
    (ho : m.outer ≠ [])
    (hnext : ∀ {n' : Machine}, Covers m.closeFrame n' → Answers d env trace v n') :
    Answers d env trace v n := by
  obtain ⟨gs, ns, hg, hon, hrest⟩ := h.merged.uncons
  have hns := hrest.unfinished h.chained.busy
  refine answers_of_finished gs h.alike (hg.program.symm.trans hp) hon hg.idle hns ?_
  intro n' ha' hp' ho'
  obtain ⟨p, ps, hmo⟩ := List.exists_cons_of_ne_nil ho
  rw [hmo] at hrest
  cases hrest with
  | @cons _ q qs _ ns' hq hrest =>
    have hb : n'.Busy := by
      rw [Busy]
      rw [ho']
      exact hns
    rw [answers_closeFrame hb hp' (by rw [ho']; exact List.cons_ne_nil _ _)]
    obtain ⟨hma, hmo'⟩ := closeFrame_cons hmo
    obtain ⟨hna, hno'⟩ := closeFrame_cons ho'
    have hclosed := (alike_closeFrame m).symm.trans (ha'.trans (alike_closeFrame n'))
    refine hnext (Covers.counted_right ⟨hclosed, ?_, ?_⟩)
    · simp only [frames]
      rw [hma, hmo', hna, hno', ← hq.program]
      exact .cons (hq.withProgram _) hrest
    · exact (h.chained.closeFrame hmo).1

/-- A plain block on both machines: what remains is to follow the first from the state after the
block. -/
theorem Covers.block {run run' : Runner} {m : Machine} (hq : env.Quiet) (h : Covers m n)
    (hplain : m.isPlainNext = true) {b : Block} {rest : List Pending}
    (hp : m.active.program = .block b :: rest)
    (hlast : (m.afterBlock (splicing env run) env b rest).active.program = [] →
      (m.afterBlock (splicing env run) env b rest).outer = [] →
      (m.afterBlock (splicing env run) env b rest).outer.length = m.outer.length →
      trace = [] ∧ Same v (m.afterBlock (splicing env run) env b rest))
    (hnext : ∀ {n' : Machine}, Covers (m.afterBlock (splicing env run) env b rest) n' →
      Answers (nesting env run') env trace v n') :
    Answers (nesting env run') env (m.recollection env ++ trace) v n := by
  have hisPlain : m.isPlain b = true := by simpa [Machine.isPlainNext, hp] using hplain
  have hplain' := h.isPlainNext.symm.trans hplain
  have hp' := h.program.symm.trans hp
  obtain ⟨hc, hlen⟩ := h.afterBlock hp hisPlain env run run'
  rw [h.recollection]
  by_cases hdone : (n.afterBlock (nesting env run') env b rest).active.program = []
  · refine answers_of_done hq h.busy hp' hplain' hc.busy hdone ?_ (hnext hc)
      (hnext hc.counted_right)
    intro ho ho'
    have hmo : (m.afterBlock (splicing env run) env b rest).outer = [] := by
      obtain ⟨gs, ns, -, hon, hrest⟩ := hc.merged.uncons
      rw [ho'] at hon
      obtain ⟨-, rfl⟩ := List.append_eq_nil_iff.1 hon.symm
      generalize (m.afterBlock (splicing env run) env b rest).outer = x at hrest
      cases hrest
      rfl
    obtain ⟨htrace, hv⟩ := hlast (hc.program.trans hdone) hmo (hlen (by rw [ho, ho']))
    exact ⟨htrace, hv.trans hc.alike⟩
  · refine answers_of_pending h.busy hp' hplain' ?_ (hnext hc.counted_right)
    intro hboth
    refine hdone ?_
    simpa [Frame.isFinished] using hboth.2

/-- **Following a run.** A machine that opens a child for every call follows every plain run of a
machine in the same state that splices. -/
theorem Covers.answers (hq : env.Quiet) (run run' : Runner) {m : Machine}
    (hrun : PlainRun (splicing env run) env m trace v) :
    ∀ {n : Machine}, Covers m n → Answers (nesting env run') env trace v n := by
  induction hrun with
  | @last m v hplain hs =>
    intro n h
    have hb := h.chained.busy
    rcases hp : m.active.program with _ | ⟨b | _, rest⟩
    · rw [step_nil hb hp] at hs
      split at hs
      · rename_i ho
        cases hs
        rw [recollection_nil hp]
        exact h.finish hp (by simpa using ho)
      · cases hs
    · rw [step_block hb hp, afterFrame_of_quiet hq] at hs
      split at hs
      · rename_i hdone
        split at hs
        · rename_i ho
          cases hs
          have hp₁ : (m.afterBlock (splicing env run) env b rest).active.program = [] := by
            simpa [Frame.isFinished] using hdone.2
          have ho₁ : (m.afterBlock (splicing env run) env b rest).outer = [] := by
            refine List.eq_nil_of_length_eq_zero (hdone.1.trans ?_)
            simpa using ho
          rw [← List.append_nil (m.recollection env)]
          exact h.block hq hplain hp (fun _ _ _ => ⟨rfl, Alike.refl _⟩) fun hc => hc.finish hp₁ ho₁
        · cases hs
      · cases hs
    · exact absurd (by rw [hp]; exact List.mem_cons_self) h.chained.active
  | @more m m' v trace hplain hs hrun ih =>
    intro n h
    have hb := h.chained.busy
    rcases hp : m.active.program with _ | ⟨b | _, rest⟩
    · rw [step_nil hb hp] at hs
      split at hs
      · cases hs
      · rename_i ho
        cases hs
        rw [recollection_nil hp, List.nil_append]
        exact h.close hp (by simpa using ho) fun hc => ih hc.counted_left
    · rw [step_block hb hp, afterFrame_of_quiet hq] at hs
      split at hs
      · rename_i hdone
        split at hs
        · cases hs
        · rename_i ho
          cases hs
          have hp₁ : (m.afterBlock (splicing env run) env b rest).active.program = [] := by
            simpa [Frame.isFinished] using hdone.2
          have ho₁ : (m.afterBlock (splicing env run) env b rest).outer ≠ [] := by
            intro hnil
            rw [hnil] at hdone
            exact ho (by simpa using List.eq_nil_of_length_eq_zero hdone.1.symm)
          refine h.block hq hplain hp (fun _ hnil _ => absurd hnil ho₁) ?_
          exact fun hc => hc.close hp₁ ho₁ fun hc' => ih hc'.counted_left
      · rename_i hmore
        cases hs
        refine h.block hq hplain hp ?_ fun hc => ih hc.counted_left
        intro hp₁ _ hlen
        exact absurd ⟨hlen, by simp [Frame.isFinished, hp₁]⟩ hmore
    · exact absurd (by rw [hp]; exact List.mem_cons_self) h.chained.active

end

/-! ## Whole programs -/

/-- A machine about to run a stack: it is reset but for its memory and dice, has `before` on its
value stack when the stack is loaded, and gets `inputs`, if there are any, instead once it is. -/
def launched (insert : Inserter) (s : Stack) (before : List Block) (inputs : Option (List Block))
    (m : Machine) : Machine :=
  let m := insert s { m.reset with values := before }
  match inputs with
  | some bs => (m.setValues bs).started
  | none => m.started

/-- Both machines are in the same state when they are about to run a stack. -/
theorem covers_launched (env : Environment) (s : Stack) (before : List Block)
    (inputs : Option (List Block)) (m : Machine) :
    Covers (launched (insert env) s before inputs m) (launched (insertChild env) s before inputs m) := by
  have hfresh : Chained { m.reset with values := before } :=
    ⟨List.not_mem_nil, fun f hf => absurd hf List.not_mem_nil⟩
  have hc := hfresh.insert env s
  obtain ⟨ha, hm⟩ := merged_insert env s (Alike.refl { m.reset with values := before })
    (.cons (Frame.gathers_self _) .nil)
  simp only [launched]
  generalize insert env s { m.reset with values := before } = p at ha hm hc ⊢
  generalize insertChild env s { m.reset with values := before } = q at ha hm ⊢
  cases inputs with
  | none =>
    exact ⟨⟨ha.values, ha.workspace, ha.store, ha.memory, ha.anonymous, ha.randModes, ha.randIndex⟩,
      hm, ⟨hc.active, hc.outer⟩⟩
  | some bs =>
    exact ⟨⟨rfl, ha.workspace, ha.store, ha.memory, ha.anonymous, ha.randModes, ha.randIndex⟩,
      hm, ⟨hc.active, hc.outer⟩⟩

/-- **Tail calls are transparent.** If no module interferes when a frame has finished, every plain
run of a stack is matched by the machine that opens a child for every call: given enough steps, it
ends with the same value stack, memory and heap, and its recollections yield the same blocks. -/
theorem plainRun_nesting (env : Environment) (hq : env.Quiet) (run run' : Runner) (s : Stack)
    (before : List Block) (inputs : Option (List Block)) (m : Machine) {trace : List Block}
    {m' : Machine}
    (hrun : PlainRun (splicing env run) env (launched (insert env) s before inputs m) trace m') :
    ∃ n', PlainRun (nesting env run') env (launched (insertChild env) s before inputs m) trace n' ∧
      (∃ least, ∀ left, least ≤ left →
        runSteps (nesting env run') env left (launched (insertChild env) s before inputs m) =
          (m'.result, n')) ∧
      n'.values = m'.values ∧ n'.world.memory = m'.world.memory ∧ n'.heap = m'.heap := by
  obtain ⟨n', hrun', ha⟩ := (covers_launched env s before inputs m).answers hq run run' hrun
  obtain ⟨least, hleast⟩ := hrun'.runSteps
  refine ⟨n', hrun', ⟨least, ?_⟩, ha.values.symm, ha.memory.symm, (alike_congruent.heap ha).symm⟩
  intro left hleft
  rw [hleast left hleft, result, result, ha.values]

/-- A machine with the stack of a function as its only one. -/
def machineOf (f : Stack) : Machine :=
  make defaultMaxSteps ⟨[0], 0⟩ ⟨⟨⟨#[f]⟩, Dice.ofSeed 0⟩, [], []⟩

/-- A runner for machines that nest no others. -/
def idle : Runner := fun m => ([], m)

/-- A program that binds a name and then calls, as its last block, a function that recalls it. -/
theorem plainRun_nesting_recalls :
    Environment.standard.Quiet ∧
      ∃ n', PlainRun (nesting Environment.standard idle) Environment.standard
          (launched (insertChild Environment.standard)
            (Stack.make "main" [.string "a", .assign "x", .code "f" (some 0)]) [] none
            (machineOf (Stack.make "f" [.fetch "x"]))) [.string "a"] n' ∧
        n'.values = [.string "a"] := by
  have hq : Environment.standard.Quiet := fun e he => absurd he List.not_mem_nil
  obtain ⟨m', hrun, hvalues⟩ := exists_plainRun (d := splicing Environment.standard idle) 4
    (show (plainRun? _ Environment.standard 4 (launched (insert Environment.standard)
        (Stack.make "main" [.string "a", .assign "x", .code "f" (some 0)]) [] none
        (machineOf (Stack.make "f" [.fetch "x"])))).map _ = some ([.string "a"], [.string "a"]) by
      decide +kernel)
  obtain ⟨n', hrun', -, hvalues', -⟩ :=
    plainRun_nesting Environment.standard hq idle idle _ [] none _ hrun
  exact ⟨hq, n', hrun', hvalues'.trans hvalues⟩

/-- A module that notes every finished frame tells the two machines apart. The last block of this
program calls a function without blocks: the machine that splices notes the end of the main program,
the other one is left with frames in which there is nothing to evaluate. -/
theorem plainRun_nesting_hooked :
    ¬ ∀ (env : Environment) (run run' : Runner) (s : Stack) (before : List Block)
      (inputs : Option (List Block)) (m : Machine) (trace : List Block) (m' : Machine),
      PlainRun (splicing env run) env (launched (insert env) s before inputs m) trace m' →
      ∃ n', PlainRun (nesting env run') env (launched (insertChild env) s before inputs m) trace n' ∧
        n'.values = m'.values ∧ n'.world.memory = m'.world.memory := by
  intro h
  let env : Environment := ⟨Localizer.plain, ⟨[Module.hooks], []⟩⟩
  let s := Stack.make "main" [.code "f" (some 0)]
  let m := machineOf (Stack.make "f" [])
  obtain ⟨m', hrun, hm'⟩ := exists_plainRun (d := splicing env idle) 1
    (show (plainRun? _ env 1 (launched (insert env) s [] none m)).map _ =
      some ([], [.string "main#0"]) by decide +kernel)
  obtain ⟨n', hrun', hvalues, -⟩ := h env idle idle s [] none m [] m' hrun
  obtain ⟨n'', hrun'', hn''⟩ := exists_plainRun (d := nesting env idle) 4
    (show (plainRun? _ env 4 (launched (insertChild env) s [] none m)).map _ = some ([], []) by
      decide +kernel)
  obtain ⟨-, rfl⟩ := hrun'.unique hrun''
  rw [hm', hn''] at hvalues
  cases hvalues

end BlockMachine.Machine
