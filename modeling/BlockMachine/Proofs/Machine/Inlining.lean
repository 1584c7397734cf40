import BlockMachine.Proofs.Machine.HelperFrames

/-!
# Stacks in place of their blocks

A stack without parameters, run in front of another block, does what its blocks do where they stand.
The stack runs in a child of the frame. Up to its last block, the child is a helper's frame; if the
last block runs a stack in turn, this takes the child's place, while the blocks where they stand
open a child of their own for it. The two children differ in what was assigned before, and the frame
below shows that as well.

* `Frame.Sheds c d g` — the frame `d` lacks bindings of `c`, which the frame `g` below shows as
  well;
* `Abreast.shed_step`, `Abreast.shed_leads` — two machines with such frames take the same steps,
  until these frames are closed;
* `reaches_last` — the last block of the stack, `reaches_running` — the stack.
-/

namespace BlockMachine

namespace Frame

/-! ## Frames -/

/-- Frames with the same program, of which `d` lacks some of the bindings of `c`: none of them is a
parameter, and the frame `g` has the same values. -/
structure Sheds (c d g : Frame) : Prop where
  program : c.program = d.program
  bindings : ∀ name, c.bindings.find? name = d.bindings.find? name ∨
    d.bindings.find? name = none ∧ ∃ b, c.bindings.find? name = some ⟨false, b⟩ ∧
      (g.bindings.find? name).map Binding.block = some b

/-- Frames that agree but for two of them, which have `k + 1` frames around them; the next of these
has `r` parts of its program left behind the mark. -/
inductive Shed (k r : Nat) : List Frame → List Frame → Prop where
  | base {c d g : Frame} {fs : List Frame} : Sheds c d g → g.program.length = r + 1 →
    fs.length = k → Shed k r (c :: g :: fs) (d :: g :: fs)
  | above (f : Frame) {fs gs : List Frame} : Shed k r fs gs → Shed k r (f :: fs) (f :: gs)

section Sheds

variable {c d g : Frame}

theorem Sheds.isParameter (h : Sheds c d g) (name : String) :
    c.isParameter name = d.isParameter name := by
  rw [Frame.isParameter, Frame.isParameter]
  rcases h.bindings name with heq | ⟨hd, b, hc, -⟩
  · rw [heq]
  · rw [hd, hc]
    rfl

/-- Both frames bind a name, and the frame below may bind it as well. -/
theorem Sheds.bind (h : Sheds c d g) (name : String) (parameter : Bool) (b : Block) {g' : Frame}
    (hg : ∀ other, other ≠ name → g'.bindings.find? other = g.bindings.find? other) :
    Sheds (c.bind name parameter b) (d.bind name parameter b) g' := by
  refine ⟨h.program, ?_⟩
  intro other
  by_cases hne : other = name
  · rw [hne, find?_bind_self, find?_bind_self]
    exact .inl rfl
  · rw [find?_bind_of_ne _ _ _ hne, find?_bind_of_ne _ _ _ hne, hg other hne]
    exact h.bindings other

theorem Sheds.withProgram (h : Sheds c d g) (program : List Pending) (name : String) :
    Sheds { c with program := program, name := name } { d with program := program, name := name }
      g :=
  ⟨rfl, h.bindings⟩

theorem Sheds.bindEach (bound : List (String × Block)) :
    ∀ {c d : Frame}, Sheds c d g → Sheds (bindEach bound c) (bindEach bound d) g := by
  induction bound with
  | nil =>
    intro c d h
    exact h
  | cons p bound ih =>
    intro c d h
    exact ih (h.bind p.1 true p.2 fun _ _ => rfl)

theorem Sheds.loaded (h : Sheds c d g) (s : Stack) (bound : List (String × Block)) :
    Sheds (loaded s bound c) (loaded s bound d) g :=
  Sheds.bindEach bound (h.withProgram _ _)

/-- A frame that takes the place of a helper's, and one that starts afresh. -/
theorem Clear.sheds (h : Clear c g) {f' d : Frame} (hx : Extends f' d c)
    (hp : f'.program = d.program) : Sheds f' d g := by
  refine ⟨hp, ?_⟩
  intro name
  rcases hx name with ⟨hd, hf⟩ | ⟨b, hd, hf⟩
  · rw [hf, hd]
    cases hv : c.bindings.find? name with
    | none => exact .inl rfl
    | some v =>
      obtain ⟨parameter, b⟩ := v
      obtain ⟨rfl, hg⟩ := h name _ hv
      exact .inr ⟨rfl, b, rfl, hg⟩
  · rw [hf, hd]
    exact .inl rfl

end Sheds

section Shed

variable {k r : Nat} {f g : Frame} {fs gs : List Frame}

theorem Shed.length (h : Shed k r fs gs) : fs.length = gs.length ∧ k + 1 < gs.length := by
  induction h with
  | base _ _ hk =>
    simp only [List.length_cons, true_and]
    omega
  | above f _ ih =>
    simp only [List.length_cons]
    omega

theorem Shed.fetch (h : Shed k r fs gs) (name : String) :
    Frame.fetch fs name = Frame.fetch gs name := by
  induction h with
  | base hcd _ _ =>
    simp only [fetch_cons]
    rcases hcd.bindings name with heq | ⟨hd, b, hc, hg⟩
    · rw [heq]
    · simp [hd, hc, hg]
  | above f _ ih => rw [fetch_cons, fetch_cons, ih]

/-- Both bind the same name to the same block. -/
theorem Shed.bindUp (h : Shed k r fs gs) (name : String) (b : Block) :
    Shed k r (Frame.bindUp name b false fs) (Frame.bindUp name b false gs) := by
  induction h with
  | @base c d g fs hcd hr hk =>
    rw [bindUp_cons, bindUp_cons name b false d, ← hcd.isParameter name]
    cases c.isParameter name with
    | true => exact .base (hcd.bind name true b fun _ _ => rfl) hr hk
    | false =>
      simp only [Bool.false_or, Bool.false_eq_true, if_false]
      rw [bindUp_cons]
      refine .base (hcd.bind name false b ?_) hr ?_
      · intro other hne
        rw [find?_bind_of_ne _ _ _ hne]
      · split
        · exact hk
        · have hlen := congrArg List.length (bindUp_programs name b false fs)
          rw [List.length_map, List.length_map] at hlen
          exact hlen.trans hk
  | above f h ih =>
    rw [bindUp_cons, bindUp_cons]
    cases f.isParameter name with
    | true => exact .above _ h
    | false => exact .above _ ih

theorem Shed.uncons (h : Shed k r (f :: fs) (g :: gs)) :
    f = g ∧ Shed k r fs gs ∨
      ∃ g₀ fs₀, Sheds f g g₀ ∧ g₀.program.length = r + 1 ∧ fs₀.length = k ∧ fs = g₀ :: fs₀ ∧
        gs = g₀ :: fs₀ := by
  cases h with
  | @base c d g fs hcd hr hk => exact .inr ⟨g, fs, hcd, hr, hk, rfl, rfl⟩
  | above f h => exact .inl ⟨rfl, h⟩

theorem Shed.program (h : Shed k r (f :: fs) (g :: gs)) : f.program = g.program := by
  rcases h.uncons with ⟨rfl, -⟩ | ⟨g₀, fs₀, hcd, -⟩
  · rfl
  · exact hcd.program

/-- Both active frames get the same program. -/
theorem Shed.withProgram (h : Shed k r (f :: fs) (g :: gs)) (program : List Pending) :
    Shed k r ({ f with program := program } :: fs) ({ g with program := program } :: gs) := by
  rcases h.uncons with ⟨rfl, hb⟩ | ⟨g₀, fs₀, hcd, hr, hk, rfl, rfl⟩
  · exact .above _ hb
  · exact .base ⟨rfl, hcd.bindings⟩ hr hk

/-- The same stack is loaded into both active frames. -/
theorem Shed.loaded (h : Shed k r (f :: fs) (g :: gs)) (s : Stack) (bound : List (String × Block)) :
    Shed k r (Frame.loaded s bound f :: fs) (Frame.loaded s bound g :: gs) := by
  rcases h.uncons with ⟨rfl, hb⟩ | ⟨g₀, fs₀, hcd, hr, hk, rfl, rfl⟩
  · exact .above _ hb
  · exact .base (hcd.loaded s bound) hr hk

/-- Both active frames wait for the same child. -/
theorem Shed.child (h : Shed k r (f :: fs) (g :: gs)) (c : Frame) :
    Shed k r (c :: Machine.waiting f :: fs) (c :: Machine.waiting g :: gs) := by
  have hprogram := h.withProgram (.child :: f.program)
  rw [Machine.waiting, Machine.waiting, ← h.program]
  exact .above c hprogram

/-- What a step asks of such frames. -/
theorem shed_matching : Matching 0 (Shed k r) where
  length h := h.length.1
  fetch h := h.fetch
  bindUp h := h.bindUp
  isFinished h := by
    rw [Frame.isFinished, Frame.isFinished, h.program]
  nested h _ := by
    have hlen := h.length
    simp only [List.length_cons] at hlen
    omega
  loaded h _ := h.loaded
  child h := h.child

end Shed

end Frame

namespace Machine

open BlockMachine.Frame (Beside Clear Shed Sheds)

/-! ## Machines -/

section Shed

variable {env : Environment} {k r : Nat} {m n : Machine}

/-- The active frames are closed: still two of the frames differ, or these were the last ones. -/
theorem Abreast.shed_close (h : Abreast (Shed k r) m n) :
    Abreast (Shed k r) m.closeFrame n.closeFrame ∨
      Same m.closeFrame n.closeFrame ∧ m.closeFrame.frames = n.closeFrame.frames ∧
        m.closeFrame.isPast k r = true := by
  have hlen := h.related.length
  simp only [frames, List.length_cons] at hlen
  obtain ⟨f, fs, hmo⟩ := List.exists_cons_of_length_pos (show 0 < m.outer.length by omega)
  obtain ⟨g, gs, hno⟩ := List.exists_cons_of_length_pos (show 0 < n.outer.length by omega)
  obtain ⟨hma, hmo'⟩ := closeFrame_cons hmo
  obtain ⟨hna, hno'⟩ := closeFrame_cons hno
  have hsame := ((alike_closeFrame m).symm.trans h.same).trans (alike_closeFrame n)
  have hb := h.related
  rcases hb.uncons with ⟨-, hb⟩ | ⟨g₀, fs₀, -, hr, hk, hmo₀, hno₀⟩
  · refine .inl ⟨hsame, ?_, (h.left.closeFrame hmo).1, (h.right.closeFrame hno).1⟩
    rw [hmo, hno] at hb
    simp only [frames]
    rw [hma, hmo', hna, hno', ← hb.program]
    exact hb.withProgram _
  · rw [hmo] at hmo₀
    rw [hno] at hno₀
    cases hmo₀
    cases hno₀
    refine .inr ⟨hsame, ?_, ?_⟩
    · simp only [frames]
      rw [hma, hmo', hna, hno']
    · rw [isPast_iff, hma, hmo', List.length_tail]
      omega

/-- **One step** of both machines. -/
theorem Abreast.shed_step (hquiet : env.Quiet) (h : Abreast (Shed k r) m n)
    (hinline : m.isInline = true) (run run' : Runner) :
    n.isInline = true ∧
      (Abreast (Shed k r) (m.step (splicing env run) env).2 (n.step (splicing env run') env).2 ∨
        Same (m.step (splicing env run) env).2 (n.step (splicing env run') env).2 ∧
          (m.step (splicing env run) env).2.frames = (n.step (splicing env run') env).2.frames ∧
          (m.step (splicing env run) env).2.isPast k r = true) := by
  have hprogram : m.active.program = n.active.program := h.related.program
  obtain ⟨hinline', u, v, huv, hsteps⟩ := h.step hquiet Frame.shed_matching hinline
    (fun b rest hb => ⟨rest, hprogram.symm.trans hb, h.related.withProgram rest⟩) run run'
  refine ⟨hinline', ?_⟩
  rcases hsteps with ⟨hu, hv⟩ | ⟨-, hu, hv⟩
  · rw [hu, hv]
    exact .inl huv
  · rw [hu, hv]
    exact huv.shed_close

theorem Abreast.shed_not_isPast (h : Abreast (Shed k r) m n) :
    m.isPast k r = false ∧ n.isPast k r = false := by
  have hlen := h.related.length
  simp only [frames, List.length_cons] at hlen
  rw [not_isPast_iff, not_isPast_iff]
  omega

theorem isPast_of_frames (h : m.frames = n.frames) (hm : m.isPast k r = true) :
    n.isPast k r = true := by
  simp only [frames, List.cons.injEq] at h
  rw [isPast_iff] at hm ⊢
  rw [← h.1, ← h.2]
  exact hm

/-- **Segments.** Both machines get to where the frames that differ are closed. -/
theorem Abreast.shed_leads (hquiet : env.Quiet) (run run' : Runner) {c : Nat} {x : Machine} :
    ∀ {m n : Machine}, Abreast (Shed k r) m n → Leads (splicing env run) env k r c m x →
      x.isPast k r = true →
      ∃ y, Reaches (splicing env run') env k r n y ∧ Same x y ∧ x.frames = y.frames := by
  induction c with
  | zero =>
    rintro m n h rfl hpast
    rw [h.shed_not_isPast.1] at hpast
    cases hpast
  | succ c ih =>
    rintro m n h ⟨-, hinline, hrest⟩ hpast
    obtain ⟨hinline', hstep⟩ := h.shed_step hquiet hinline run run'
    have hn : Leads (splicing env run') env k r 1 n (n.step (splicing env run') env).2.counted :=
      ⟨h.shed_not_isPast.2, hinline', rfl⟩
    rcases hstep with h' | ⟨hsame, hframes, hend⟩
    · obtain ⟨y, hy, hxy⟩ := ih h'.counted hrest hpast
      exact ⟨y, hn.reaches hy, hxy⟩
    · have hx : x = (m.step (splicing env run) env).2.counted :=
        Reaches.unique ⟨c, hrest, hpast⟩ ⟨0, rfl, hend⟩
      have hframes' : x.frames = (n.step (splicing env run') env).2.counted.frames := by
        rw [hx]
        exact hframes
      refine ⟨_, hn.reaches ⟨0, rfl, isPast_of_frames hframes' hpast⟩, ?_, hframes'⟩
      rw [hx]
      exact ((alike_counted _).symm.trans hsame).trans (alike_counted _)

end Shed

/-! ## The last block -/

section Last

variable {env : Environment} {run : Runner} {k : Nat} {rest : List Pending} {c g : Frame}
  {b : Block} {m n x y : Machine}

/-- The last block of a stack has been evaluated in the child `m` of the frame that is the active
one of `n`. Nothing is left to run of it, or it runs a stack without blocks, which `n` runs in a
child, or it runs another stack. -/
inductive LastMove (k : Nat) (rest : List Pending) : Machine → Machine → Prop where
  | done {x y : Machine} (g : Frame) : x.active.isFinished = true →
    x.outer = { g with program := .child :: rest } :: y.outer →
    y.active = { g with program := rest } → y.outer.length = k → LastMove k rest x y
  | empty {x y : Machine} (g : Frame) (fs : List Frame) : x.active.isFinished = true →
    x.outer = { g with program := .child :: rest } :: fs → y.outer = x.outer →
    y.active.program = [] → fs.length = k → LastMove k rest x y
  | enter {x y : Machine} : x.active.isFinished = false → Shed k rest.length x.frames y.frames →
    LastMove k rest x y

/-- An assignment in the child reaches the frame below it. -/
theorem lastMove_bind (hclear : Clear c g) (name : String) (v : Block)
    (hx : x.frames = { c with program := [] } :: { g with program := .child :: rest } :: n.outer)
    (hy : y.frames = { g with program := rest } :: n.outer) (hk : n.outer.length = k) :
    LastMove k rest (x.assign name v false) (y.assign name v false) := by
  have hc : Frame.isParameter { c with program := [] } name = false := hclear.isParameter name
  have hxf := assign_frames name v false x
  have hyf := assign_frames name v false y
  rw [hx, Frame.bindUp_cons, hc] at hxf
  rw [hy, Frame.bindUp_cons] at hyf
  simp only [Bool.false_or, Bool.false_eq_true, if_false] at hxf hyf
  rw [Frame.bindUp_cons] at hxf
  simp only [frames, List.cons.injEq] at hxf hyf
  obtain ⟨hxa, hxo⟩ := hxf
  obtain ⟨hya, hyo⟩ := hyf
  refine .done (g.bind name (g.isParameter name) v) (by rw [hxa]; rfl) ?_ hya ?_
  · rw [hxo, hyo]
    rfl
  · rw [hyo]
    split
    · exact hk
    · have hlen := congrArg List.length (Frame.bindUp_programs name v false n.outer)
      rw [List.length_map, List.length_map] at hlen
      exact hlen.trans hk

/-- A stack takes the child's place, and has a child of its own in the other machine. -/
theorem lastMove_insert (env : Environment) (s : Stack) (hclear : Clear c g) (hsame : Same x y)
    (hxa : x.active = { c with program := [] })
    (hxo : x.outer = { g with program := .child :: rest } :: y.outer)
    (hya : y.active = { g with program := rest }) (hk : y.outer.length = k) (hrest : rest ≠ []) :
    Same (x.insert env s) (y.insert env s) ∧ LastMove k rest (x.insert env s) (y.insert env s) := by
  have hwait : waiting y.active :: y.outer = x.outer := by
    rw [hxo, hya]
    rfl
  rw [insert_of_finished (by rw [hxa]; rfl), insert_of_unfinished (by
    rw [hya]
    simpa [Frame.isFinished] using hrest)]
  obtain ⟨hl, hframes⟩ := alike_blind.load (hsame.trans (alike_blind.frames y.active Frame.empty
    y.outer (waiting y.active :: y.outer) (Alike.refl y))) env s
  refine ⟨hl.trans (alike_notify _ _), ?_⟩
  have hxo' := (load_cases env s x).1
  have hyo' := (insertChild_cases env s y).1
  have hya' := insertChild_active env s y
  rcases hframes with ⟨h₁, h₂⟩ | ⟨hblocks, bound, h₁, h₂⟩
  · refine .empty g y.outer (by rw [h₁, hxa]; rfl) (hxo'.trans hxo) ?_ ?_ hk
    · rw [hyo', hxo', hwait]
    · rw [hya', h₂]
      rfl
  · refine .enter ?_ ?_
    · rw [h₁]
      simpa [Frame.isFinished] using hblocks
    · simp only [frames]
      rw [hxo', hyo', hwait, h₁, hya', h₂, hxo]
      refine .base ?_ rfl hk
      have hclear' : Clear x.active { g with program := .child :: rest } := by
        rw [hxa]
        exact hclear
      exact (hclear'.sheds (Frame.extends_self rfl) (by rw [hxa]; rfl)).loaded s bound

/-- The last move of the last block. -/
theorem lastMove_joint (hclear : Clear c g)
    (hma : m.active = { c with program := [] })
    (hmo : m.outer = { g with program := .child :: rest } :: n.outer)
    (hna : n.active = { g with program := rest }) (hk : n.outer.length = k) (hrest : rest ≠ [])
    (hj : Joint (fun x y => Same x y ∧ (x.active = m.active ∧ x.outer = m.outer) ∧
      y.active = n.active ∧ y.outer = n.outer) (Machine.insert env) (Machine.insert env) x y) :
    Same x y ∧ LastMove k rest x y := by
  cases hj with
  | stay h =>
    obtain ⟨ha, ⟨hxa, hxo⟩, hya, hyo⟩ := h
    refine ⟨ha, .done g (by rw [hxa, hma]; rfl) ?_ (hya.trans hna) ?_⟩
    · rw [hxo, hmo, hyo]
    · rw [hyo, hk]
  | bind name v h =>
    obtain ⟨ha, ⟨hxa, hxo⟩, hya, hyo⟩ := h
    refine ⟨alike_assign ha name v, lastMove_bind hclear name v ?_ ?_ hk⟩
    · rw [frames, hxa, hxo, hma, hmo]
    · rw [frames, hya, hyo, hna]
  | enter s h =>
    obtain ⟨ha, ⟨hxa, hxo⟩, hya, hyo⟩ := h
    exact lastMove_insert env s hclear ha (hxa.trans hma) (by rw [hxo, hmo, hyo]) (hya.trans hna)
      (by rw [hyo, hk]) hrest

theorem LastMove.notify (h : LastMove k rest x y) (e : Event) :
    LastMove k rest (x.notify e) (y.notify e) := by
  cases h with
  | done g hfin hxo hya hk => exact .done g (by simpa) (by simpa) (by simpa) (by simpa)
  | empty g fs hfin hxo hyo hya hk =>
    exact .empty g fs (by simpa) (by simpa) (by simpa) (by simpa) hk
  | enter hfin hshed => exact .enter (by simpa) (by simpa [frames] using hshed)

/-- Both machines evaluate the last block. -/
theorem lastMove_afterBlock (env : Environment) (hsame : Same m n) (hclear : Clear c g)
    (hma : m.active = { c with program := [.block b] })
    (hmo : m.outer = { g with program := .child :: rest } :: n.outer)
    (hna : n.active = { g with program := .block b :: rest }) (hk : n.outer.length = k)
    (hrest : rest ≠ []) (hb : m.runsInline b = true) (run run' : Runner) :
    Same (m.afterBlock (splicing env run) env b []) (n.afterBlock (splicing env run') env b rest) ∧
      LastMove k rest (m.afterBlock (splicing env run) env b [])
        (n.afterBlock (splicing env run') env b rest) := by
  have halike : Same (m.withProgram []) (n.withProgram rest) := alike_blind.frames _ _ _ _ hsame
  have hmf : (m.withProgram []).frames =
      { c with program := [] } :: { g with program := .child :: rest } :: n.outer := by
    simp only [frames, withProgram]
    rw [hma, hmo]
  have hnf : (n.withProgram rest).frames = { g with program := rest } :: n.outer := by
    simp only [frames, withProgram]
    rw [hna]
  have hrecalled : ∀ name, (m.withProgram []).recalled env name =
      (n.withProgram rest).recalled env name := by
    intro name
    have hfetch := (Beside.base (p := []) (q := rest) (w := .child :: rest) [] hclear hk).fetch name
    rw [recalled, recalled, fetch, fetch, hmf, hnf, unassigned, unassigned,
      alike_congruent.heap halike]
    simp only [List.nil_append] at hfetch
    rw [hfetch]
  obtain ⟨ha, hmove⟩ := lastMove_joint (m := m.withProgram []) (n := n.withProgram rest) hclear
    (by simp [withProgram, hma]) hmo (by simp [withProgram, hna]) hk hrest
    (halike.evaluate_inline (splicing env run) (splicing env run') env hrecalled hb)
  exact ⟨alike_blind.notify _ _ ha, hmove.notify (.evaluated b)⟩

/-- A child is closed on the way to the next block of its frame, and that is all of the way. -/
theorem closed_of_leads {d : Discipline} {j : Nat} {fs : List Frame}
    (ho : m.outer = { g with program := .child :: rest } :: fs) (hfs : fs.length = k)
    (hj : Leads d env k rest.length j m.closeFrame.counted x)
    (hpast : x.isPast k rest.length = true) :
    Same m x ∧ x.frames = { g with program := rest } :: fs := by
  obtain ⟨hactive, houter⟩ := closeFrame_cons ho
  have hend : m.closeFrame.counted.isPast k rest.length = true := by
    rw [isPast_iff]
    refine .inr ⟨?_, ?_⟩
    · exact (congrArg List.length houter).trans hfs
    · exact Nat.le_of_eq (congrArg (fun f : Frame => f.program.length) hactive)
  obtain rfl : x = m.closeFrame.counted := Reaches.unique ⟨j, hj, hpast⟩ ⟨0, rfl, hend⟩
  refine ⟨(alike_closeFrame m).trans (alike_counted _), ?_⟩
  exact congr (congrArg List.cons hactive) houter

/-- A child with nothing to run is closed in a step of its own. -/
theorem leads_closed {fs : List Frame} (hm : Chained m) (hp : m.active.program = [])
    (ho : m.outer = { g with program := .child :: rest } :: fs) (hfs : fs.length = k)
    (env : Environment) (d : Discipline) :
    ∃ y, Leads d env k rest.length 1 m y ∧ Same m y ∧
      y.frames = { g with program := rest } :: fs := by
  obtain ⟨hactive, houter⟩ := closeFrame_cons ho
  refine ⟨m.closeFrame.counted, ⟨?_, by rw [isInline, hp], ?_⟩,
    (alike_closeFrame m).trans (alike_counted _), congr (congrArg List.cons hactive) houter⟩
  · rw [not_isPast_iff, ho, List.length_cons]
    omega
  · rw [step_nil hm.busy hp, ho]
    rfl

/-- **The last block** of a stack, in a child of the frame that has it in the other machine. -/
theorem reaches_last (hquiet : env.Quiet) (hsame : Same m n) (hm : Chained m) (hn : Chained n)
    (hclear : Clear c g) (hma : m.active = { c with program := [.block b] })
    (hmo : m.outer = { g with program := .child :: rest } :: n.outer)
    (hna : n.active = { g with program := .block b :: rest }) (hk : n.outer.length = k)
    (hrest : rest ≠ []) (run' : Runner) (hx : Reaches (splicing env run) env k rest.length m x) :
    ∃ y, Reaches (splicing env run') env k rest.length n y ∧ Same x y ∧ x.frames = y.frames := by
  obtain ⟨j, hj, hpast⟩ := hx
  have hprogram : m.active.program = .block b :: [] := by rw [hma]
  have hprogram' : n.active.program = .block b :: rest := by rw [hna]
  have hmk : m.outer.length = k + 1 := by rw [hmo, List.length_cons, hk]
  cases j with
  | zero =>
    rw [show x = m from hj, isPast_iff] at hpast
    omega
  | succ j =>
    obtain ⟨-, hinline, hj⟩ := hj
    have hb₀ : m.runsInline b = true := by simpa [isInline, hprogram] using hinline
    have hnpast : n.isPast k rest.length = false := by
      rw [not_isPast_iff, hprogram']
      exact .inr ⟨hk, Nat.lt_succ_self _⟩
    have hn₁ : Leads (splicing env run') env k rest.length 1 n
        (n.step (splicing env run') env).2.counted := by
      refine ⟨hnpast, ?_, rfl⟩
      rw [isInline, hprogram']
      exact (hsame.runsInline b).symm.trans hb₀
    obtain ⟨hsame₁, hmove₁⟩ :=
      lastMove_afterBlock env hsame hclear hma hmo hna hk hrest hb₀ run run'
    have hm₁ := hm.afterBlock env run hprogram
    have hn₁' := hn.afterBlock env run' hprogram'
    have hs := step_block hm.busy hprogram (splicing env run) env
    have hs' := step_block hn.busy hprogram' (splicing env run') env
    rw [afterFrame_of_quiet hquiet, isEmpty_of_lt (by omega)] at hs
    generalize m.afterBlock (splicing env run) env b [] = u at *
    generalize n.afterBlock (splicing env run') env b rest = v at *
    cases hmove₁ with
    | done g' hfin huo hva hvk =>
      rw [if_pos ⟨by rw [huo, List.length_cons, hvk, hmk], hfin⟩] at hs
      rw [if_neg (by simp [hva, Frame.isFinished, hrest])] at hs'
      rw [hs] at hj
      rw [hs'] at hn₁
      obtain ⟨hux, hframes⟩ := closed_of_leads huo hvk hj hpast
      have hframes' : x.frames = v.counted.frames := by
        rw [hframes, ← hva]
        rfl
      exact ⟨_, hn₁.reaches ⟨0, rfl, isPast_of_frames hframes' hpast⟩,
        (hux.symm.trans hsame₁).trans (alike_counted v), hframes'⟩
    | empty g' fs hfin huo hvo hva hfs =>
      rw [if_pos ⟨by rw [huo, List.length_cons, hfs, hmk], hfin⟩] at hs
      rw [if_neg (by rw [hvo, huo, List.length_cons]; omega)] at hs'
      rw [hs] at hj
      rw [hs'] at hn₁
      obtain ⟨hux, hframes⟩ := closed_of_leads huo hfs hj hpast
      obtain ⟨y, hy, hvy, hframes'⟩ := leads_closed hn₁'.counted hva (hvo.trans huo) hfs env
        (splicing env run')
      have hxy : x.frames = y.frames := hframes.trans hframes'.symm
      exact ⟨y, (hn₁.trans hy).reaches ⟨0, rfl, isPast_of_frames hxy hpast⟩,
        (hux.symm.trans hsame₁).trans ((alike_counted v).trans hvy), hxy⟩
    | enter hfin hshed =>
      have hlen := hshed.length
      simp only [frames, List.length_cons] at hlen
      rw [if_neg (by rw [hfin]; simp)] at hs
      rw [if_neg (by omega)] at hs'
      rw [hs] at hj
      rw [hs'] at hn₁
      obtain ⟨y, hy, hxy⟩ := Abreast.shed_leads hquiet run run'
        (Abreast.counted ⟨hsame₁, hshed, hm₁, hn₁'⟩) hj hpast
      exact ⟨y, hn₁.reaches hy, hxy⟩

end Last

/-! ## Stacks -/

/-- A stack without parameters and blocks opens an empty child. -/
theorem insert_empty {s : Stack} {m : Machine} (hinputs : s.inputs = []) (hblocks : s.blocks = [])
    (env : Environment) (hp : m.active.program ≠ []) :
    Same m (m.insert env s) ∧ (m.insert env s).active.program = [] ∧
      (m.insert env s).outer = waiting m.active :: m.outer := by
  obtain ⟨houter, hactive⟩ := insertChild_cases env s m
  rw [insert_of_unfinished (by simpa [Frame.isFinished] using hp)]
  refine ⟨?_, ?_, houter⟩
  · simp only [insertChild, load, hinputs, hblocks, List.length_nil, Nat.not_lt_zero, if_false,
      List.reverse_nil, popInputs, List.isEmpty_nil, if_true]
    exact ((alike_blind.frames _ _ _ _ (Alike.refl m)).trans (alike_notify _ _)).trans
      (alike_notify _ _)
  · rcases hactive with hactive | ⟨hne, -⟩
    · rw [hactive]
      rfl
    · exact absurd hblocks hne

/-- **A stack without parameters**, run in front of another block, does what its blocks do where
they stand. -/
theorem reaches_running {env : Environment} {run run' : Runner} {s : Stack} {m x : Machine}
    (hquiet : env.Quiet) (hinputs : s.inputs = []) (hm : Chained m) (hrest : m.active.program ≠ [])
    (hx : Reaches (splicing env run) env m.outer.length m.active.program.length
      (m.insert env s) x) :
    ∃ y, Reaches (splicing env run') env m.outer.length m.active.program.length
      (m.running s.blocks) y ∧ Same x y ∧ x.frames = y.frames := by
  obtain ⟨j, hj, hpast⟩ := hx
  have hchain := hm.insert env s
  have hrunning : Same m (m.running s.blocks) := alike_blind.frames _ _ _ _ (Alike.refl m)
  rcases List.eq_nil_or_concat s.blocks with hblocks | ⟨init, last, hblocks⟩
  · obtain ⟨hsame, hprogram, houter⟩ := insert_empty hinputs hblocks env hrest
    cases j with
    | zero =>
      rw [show x = m.insert env s from hj, isPast_iff, houter, List.length_cons] at hpast
      omega
    | succ j =>
      obtain ⟨-, -, hj⟩ := hj
      rw [step_nil hchain.busy hprogram, houter] at hj
      obtain ⟨hsame', hframes⟩ := closed_of_leads houter rfl hj hpast
      have hframes' : x.frames = (m.running s.blocks).frames := by
        rw [hframes, hblocks]
        rfl
      exact ⟨_, ⟨0, rfl, isPast_of_frames hframes' hpast⟩,
        hsame'.symm.trans (hsame.symm.trans hrunning), hframes'⟩
  · obtain ⟨hsame, hactive, houter⟩ := insert_opened hinputs (by simp [hblocks]) env hrest
    have habreast : Abreast (Beside [.block last] (.block last :: m.active.program)
        (.child :: m.active.program) m.outer.length) (m.insert env s) (m.running s.blocks) := by
      refine ⟨hsame.symm.trans hrunning, ?_, hchain, hm.running _⟩
      have hbase := Beside.base (p := [.block last]) (q := .block last :: m.active.program)
        (w := .child :: m.active.program) (c := ⟨[], [], s.name⟩) (init.map .block)
        (Frame.clear_of_nil m.active rfl) (rfl : m.outer.length = _)
      simp only [frames, running, withProgram]
      rw [hactive, houter, hblocks]
      simpa [waiting] using hbase
    obtain ⟨i, j', u, rfl, hi, hu, hj'⟩ :=
      hj.stopover (m.outer.length + 1) 1 (by omega) hpast
    obtain ⟨v, hv, huv⟩ := habreast.leads hquiet (by simp) (by simp) (by simp) run run' hi
    obtain ⟨c, g, hclear, hk, hua, huo, hva⟩ := huv.arrive hu
    obtain ⟨y, hy, hxy⟩ := reaches_last hquiet huv.same huv.left huv.right hclear hua huo hva hk
      hrest run' ⟨j', hj', hpast⟩
    exact ⟨y, (hv.weaken (.inr ⟨rfl, by simp⟩)).reaches hy, hxy⟩

end Machine

end BlockMachine
