import BlockMachine.Proofs.Machine.MergedFrames
import BlockMachine.Proofs.Machine.Segments

/-!
# Machines abreast

Two machines that are the same but for their frames take the same steps, as long as both have the
same block next and show the same variables.

* `Frame.Matching off F` — what is asked of the relation `F` between their frames;
* `Abreast F m n` — two such machines;
* `Abreast.step` — after one step they are so again, unless both close a frame.
-/

namespace BlockMachine

namespace Frame

/-- A relation between the frames of two machines, of which the first has `off` frames more. Both
show the same variables, both active frames are finished at once, and neither is then the main
program's; the relation is kept when a name is bound, a stack is loaded and a child is opened. -/
structure Matching (off : Nat) (F : List Frame → List Frame → Prop) : Prop where
  length : ∀ {fs gs : List Frame}, F fs gs → fs.length = gs.length + off
  fetch : ∀ {fs gs : List Frame}, F fs gs → ∀ name, Frame.fetch fs name = Frame.fetch gs name
  bindUp : ∀ {fs gs : List Frame}, F fs gs → ∀ name b,
    F (Frame.bindUp name b false fs) (Frame.bindUp name b false gs)
  isFinished : ∀ {f g : Frame} {fs gs : List Frame}, F (f :: fs) (g :: gs) →
    f.isFinished = g.isFinished
  nested : ∀ {f g : Frame} {fs gs : List Frame}, F (f :: fs) (g :: gs) → f.isFinished = true →
    0 < fs.length ∧ 0 < gs.length
  loaded : ∀ {f g : Frame} {fs gs : List Frame}, F (f :: fs) (g :: gs) → f.isFinished = true →
    ∀ s bound, F (Frame.loaded s bound f :: fs) (Frame.loaded s bound g :: gs)
  child : ∀ {f g : Frame} {fs gs : List Frame}, F (f :: fs) (g :: gs) → ∀ c,
    F (c :: Machine.waiting f :: fs) (c :: Machine.waiting g :: gs)

end Frame

namespace Machine

open BlockMachine.Frame (Matching)

/-- Machines that are the same but for their frames, which are related. -/
structure Abreast (F : List Frame → List Frame → Prop) (m n : Machine) : Prop where
  same : Same m n
  related : F m.frames n.frames
  left : Chained m
  right : Chained n

section Abreast

variable {env : Environment} {off : Nat} {F : List Frame → List Frame → Prop} {m n : Machine}

theorem Abreast.counted (h : Abreast F m n) : Abreast F m.counted n.counted :=
  ⟨((alike_counted m).symm.trans h.same).trans (alike_counted n), h.related, h.left.counted,
    h.right.counted⟩

/-- A stack run from both active frames. -/
theorem abreast_insert (hF : Matching off F) (env : Environment) (s : Stack) (ha : Same m n)
    (h : F m.frames n.frames) :
    Same (m.insert env s) (n.insert env s) ∧ F (m.insert env s).frames (n.insert env s).frames := by
  have hboth := hF.isFinished h
  cases hfin : m.active.isFinished with
  | true =>
    rw [insert_of_finished hfin, insert_of_finished (hboth.symm.trans hfin)]
    obtain ⟨hl, hframes⟩ := alike_blind.load ha env s
    refine ⟨hl, ?_⟩
    simp only [frames]
    rw [(load_cases env s m).1, (load_cases env s n).1]
    rcases hframes with ⟨h₁, h₂⟩ | ⟨-, bound, h₁, h₂⟩
    · rw [h₁, h₂]
      exact h
    · rw [h₁, h₂]
      exact hF.loaded h hfin s bound
  | false =>
    rw [insert_of_unfinished hfin, insert_of_unfinished (hboth.symm.trans hfin)]
    obtain ⟨hl, hframes⟩ := alike_blind.load (alike_blind.frames Frame.empty Frame.empty
      (waiting m.active :: m.outer) (waiting n.active :: n.outer) ha) env s
    refine ⟨alike_blind.notify _ _ hl, ?_⟩
    have hsame : (insertChild env s m).active = (insertChild env s n).active := by
      rw [insertChild_active, insertChild_active]
      rcases hframes with ⟨h₁, h₂⟩ | ⟨-, bound, h₁, h₂⟩
      · rw [h₁, h₂]
      · rw [h₁, h₂]
    simp only [frames]
    rw [(insertChild_cases env s m).1, (insertChild_cases env s n).1, hsame]
    exact hF.child h _

/-- The last move of a block. -/
theorem abreast_joint (hF : Matching off F) {x y : Machine} (h : F m.frames n.frames)
    (hj : Joint (fun x y => Same x y ∧ (x.active = m.active ∧ x.outer = m.outer) ∧
      y.active = n.active ∧ y.outer = n.outer) (Machine.insert env) (Machine.insert env) x y) :
    Same x y ∧ F x.frames y.frames := by
  cases hj with
  | stay hxy =>
    obtain ⟨ha, ⟨hma, hmo⟩, hna, hno⟩ := hxy
    rw [frames_eq hma hmo, frames_eq hna hno]
    exact ⟨ha, h⟩
  | bind name b hxy =>
    obtain ⟨ha, ⟨hma, hmo⟩, hna, hno⟩ := hxy
    rw [assign_frames, assign_frames, frames_eq hma hmo, frames_eq hna hno]
    exact ⟨alike_assign ha name b, hF.bindUp h name b⟩
  | enter s hxy =>
    obtain ⟨ha, ⟨hma, hmo⟩, hna, hno⟩ := hxy
    refine abreast_insert hF env s ha ?_
    rw [frames_eq hma hmo, frames_eq hna hno]
    exact h

/-- Both evaluate the same block. -/
theorem Abreast.afterBlock (env : Environment) (hF : Matching off F) (h : Abreast F m n) {b : Block}
    {rest rest' : List Pending} (hm : m.active.program = .block b :: rest)
    (hn : n.active.program = .block b :: rest')
    (hrest : F (m.withProgram rest).frames (n.withProgram rest').frames)
    (hb : m.runsInline b = true) (run run' : Runner) :
    Abreast F (m.afterBlock (splicing env run) env b rest)
      (n.afterBlock (splicing env run') env b rest') := by
  have halike : Same (m.withProgram rest) (n.withProgram rest') :=
    alike_blind.frames _ _ _ _ h.same
  have hrecalled : ∀ name, (m.withProgram rest).recalled env name =
      (n.withProgram rest').recalled env name := by
    intro name
    rw [recalled, recalled, fetch, fetch, hF.fetch hrest, unassigned, unassigned,
      alike_congruent.heap halike]
  obtain ⟨ha, hframes⟩ := abreast_joint hF hrest
    (halike.evaluate_inline (splicing env run) (splicing env run') env hrecalled hb)
  refine ⟨alike_blind.notify _ _ ha, ?_, h.left.afterBlock env run hm,
    h.right.afterBlock env run' hn⟩
  simpa [Machine.afterBlock, frames] using hframes

theorem isEmpty_of_lt {α : Type} {xs : List α} (h : 0 < xs.length) : xs.isEmpty = false := by
  simpa [List.isEmpty_eq_false_iff, List.length_pos_iff] using h

/-- **One step** of both machines, which have the same block next: they stay abreast, or both close
a frame that has finished. -/
theorem Abreast.step (hquiet : env.Quiet) (hF : Matching off F) (h : Abreast F m n)
    (hinline : m.isInline = true)
    (hnext : ∀ b rest, m.active.program = .block b :: rest →
      ∃ rest', n.active.program = .block b :: rest' ∧
        F (m.withProgram rest).frames (n.withProgram rest').frames) (run run' : Runner) :
    n.isInline = true ∧ ∃ u v, Abreast F u v ∧
      ((m.step (splicing env run) env).2 = u ∧ (n.step (splicing env run') env).2 = v ∨
        u.active.isFinished = true ∧ (m.step (splicing env run) env).2 = u.closeFrame ∧
          (n.step (splicing env run') env).2 = v.closeFrame) := by
  rcases hprogram : m.active.program with _ | ⟨b | _, rest⟩
  · have hfin : m.active.isFinished = true := by simp [Frame.isFinished, hprogram]
    have hprogram' : n.active.program = [] := by
      have hfin' := (hF.isFinished h.related).symm.trans hfin
      simpa [Frame.isFinished] using hfin'
    obtain ⟨hmo, hno⟩ := hF.nested h.related hfin
    refine ⟨by simp [isInline, hprogram'], m, n, h, .inr ⟨hfin, ?_, ?_⟩⟩
    · rw [step_nil h.left.busy hprogram, isEmpty_of_lt hmo]
      rfl
    · rw [step_nil h.right.busy hprogram', isEmpty_of_lt hno]
      rfl
  · obtain ⟨rest', hprogram', hrest⟩ := hnext b rest hprogram
    have hb : m.runsInline b = true := by simpa [isInline, hprogram] using hinline
    have h₁ := h.afterBlock env hF hprogram hprogram' hrest hb run run'
    refine ⟨?_, _, _, h₁, ?_⟩
    · rw [isInline, hprogram']
      exact (h.same.runsInline b).symm.trans hb
    have hlen := hF.length h.related
    have hlen₁ := hF.length h₁.related
    have hfin := hF.isFinished h₁.related
    simp only [frames, List.length_cons] at hlen hlen₁
    have hs := step_block h.left.busy hprogram (splicing env run) env
    have hs' := step_block h.right.busy hprogram' (splicing env run') env
    rw [afterFrame_of_quiet hquiet] at hs hs'
    by_cases hend : (m.afterBlock (splicing env run) env b rest).outer.length = m.outer.length ∧
        (m.afterBlock (splicing env run) env b rest).active.isFinished = true
    · -- both close a frame after its last block
      obtain ⟨hmo, hno⟩ := hF.nested h₁.related hend.2
      rw [if_pos hend, isEmpty_of_lt (by omega)] at hs
      rw [if_pos ⟨by omega, hfin.symm.trans hend.2⟩, isEmpty_of_lt (by omega)] at hs'
      refine .inr ⟨hend.2, ?_, ?_⟩
      · rw [hs]
        rfl
      · rw [hs']
        rfl
    · rw [if_neg hend] at hs
      rw [if_neg (fun hboth => hend ⟨by omega, hfin.trans hboth.2⟩)] at hs'
      exact .inl ⟨by rw [hs], by rw [hs']⟩
  · exact absurd (by rw [hprogram]; exact List.mem_cons_self) h.left.active

end Abreast

end Machine

end BlockMachine
