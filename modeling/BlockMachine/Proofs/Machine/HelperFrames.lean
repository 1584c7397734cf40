import BlockMachine.Proofs.Machine.Abreast

/-!
# Helper frames

A helper runs blocks in a child of its caller, with blocks of its own behind them; another machine
runs the same blocks in the caller's frame itself. A helper has no parameters, so what the blocks
assign reaches the caller's frame in both cases, and as long as neither frame has come to its last
block, both machines take the same steps.

* `Frame.Clear c g` — the frame `c` shows nothing that the frame `g` around it does not show;
* `Frame.Beside p q w k` — the frames of both machines: common ones, and below them the helper's
  frame with `p` behind the common program in one and the caller's frame with `q` behind it in the
  other;
* `Abreast.follow`, `Abreast.leads` — steps and segments of the first machine are followed by the
  second; `Abreast.arrive` — where the common program has come to its end.
-/

namespace BlockMachine

namespace Frame

/-! ## Frames -/

/-- What the frame `c` binds is no parameter there, and has the same value in `g`. -/
def Clear (c g : Frame) : Prop :=
  ∀ name v, c.bindings.find? name = some v →
    v.parameter = false ∧ (g.bindings.find? name).map Binding.block = some v.block

/-- Frames that agree down to those of a helper and its caller. The helper has `p` behind what it
has in common with the other machine, which has `q` there; `w` is the program of the caller, who
waits for the helper, and `k` frames are around the caller. -/
inductive Beside (p q w : List Pending) (k : Nat) : List Frame → List Frame → Prop where
  | base {c g : Frame} {fs : List Frame} (common : List Pending) : Clear c g → fs.length = k →
    Beside p q w k ({ c with program := common ++ p } :: { g with program := w } :: fs)
      ({ g with program := common ++ q } :: fs)
  | above (f : Frame) {fs gs : List Frame} : Beside p q w k fs gs →
    Beside p q w k (f :: fs) (f :: gs)

theorem clear_of_nil {c : Frame} (g : Frame) (h : c.bindings = []) : Clear c g := by
  intro name v hv
  rw [h] at hv
  cases hv

theorem Clear.isParameter {c g : Frame} (h : Clear c g) (name : String) :
    c.isParameter name = false := by
  rw [Frame.isParameter]
  cases hv : c.bindings.find? name with
  | none => rfl
  | some v => simpa using (h name v hv).1

/-- Both frames bind a name to the same block. -/
theorem Clear.bind {c g : Frame} (h : Clear c g) (name : String) (parameter : Bool) (b : Block) :
    Clear (c.bind name false b) (g.bind name parameter b) := by
  intro other v hv
  by_cases hne : other = name
  · subst hne
    rw [find?_bind_self] at hv ⊢
    cases hv
    exact ⟨rfl, rfl⟩
  · rw [find?_bind_of_ne _ _ _ hne] at hv ⊢
    exact h other v hv

section Beside

variable {p q w : List Pending} {k : Nat} {f g : Frame} {fs gs : List Frame}

theorem Beside.length (h : Beside p q w k fs gs) : fs.length = gs.length + 1 ∧ k < gs.length := by
  induction h with
  | base common hclear hk =>
    simp only [List.length_cons, true_and]
    omega
  | above f _ ih =>
    simp only [List.length_cons]
    omega

/-- Both show the same variables. -/
theorem Beside.fetch (h : Beside p q w k fs gs) (name : String) :
    Frame.fetch fs name = Frame.fetch gs name := by
  induction h with
  | @base c g fs common hclear hk =>
    simp only [fetch_cons]
    cases hv : c.bindings.find? name with
    | none => simp
    | some v => simp [(hclear name v hv).2]
  | above f _ ih => rw [fetch_cons, fetch_cons, ih]

/-- Both bind the same name to the same block. -/
theorem Beside.bindUp (h : Beside p q w k fs gs) (name : String) (b : Block) :
    Beside p q w k (Frame.bindUp name b false fs) (Frame.bindUp name b false gs) := by
  induction h with
  | @base c g fs common hclear hk =>
    have hc : Frame.isParameter { c with program := common ++ p } name = false :=
      hclear.isParameter name
    rw [bindUp_cons, hc, bindUp_cons, bindUp_cons]
    have hclear' := hclear.bind name (g.isParameter name) b
    cases hg : g.isParameter name with
    | true =>
      rw [hg] at hclear'
      rw [show Frame.isParameter { g with program := w } name = true from hg,
        show Frame.isParameter { g with program := common ++ q } name = true from hg]
      exact .base common hclear' hk
    | false =>
      rw [hg] at hclear'
      rw [show Frame.isParameter { g with program := w } name = false from hg,
        show Frame.isParameter { g with program := common ++ q } name = false from hg]
      refine .base common hclear' ?_
      have hlen := congrArg List.length (bindUp_programs name b false fs)
      rw [List.length_map, List.length_map] at hlen
      exact hlen.trans hk
  | above f h ih =>
    rw [bindUp_cons, bindUp_cons]
    cases f.isParameter name with
    | true => exact .above _ h
    | false => exact .above _ ih

/-- The active frames are the same, or they are those of the helper and the caller. -/
theorem Beside.uncons (h : Beside p q w k (f :: fs) (g :: gs)) :
    f = g ∧ Beside p q w k fs gs ∨
      ∃ common c g₀, Clear c g₀ ∧ gs.length = k ∧ f = { c with program := common ++ p } ∧
        fs = { g₀ with program := w } :: gs ∧ g = { g₀ with program := common ++ q } := by
  cases h with
  | @base c g fs common hclear hk => exact .inr ⟨common, c, g, hclear, hk, rfl, rfl, rfl⟩
  | above f h => exact .inl ⟨rfl, h⟩

/-- Active frames of which one has nothing left to run are the same. -/
theorem Beside.of_isFinished (hp : p ≠ []) (hq : q ≠ []) (h : Beside p q w k (f :: fs) (g :: gs)) :
    f.isFinished = g.isFinished ∧ (f.isFinished = true → f = g ∧ Beside p q w k fs gs) := by
  rcases h.uncons with ⟨rfl, hb⟩ | ⟨common, c, g₀, -, -, rfl, -, rfl⟩
  · exact ⟨rfl, fun _ => ⟨rfl, hb⟩⟩
  · have hleft : (common ++ p).isEmpty = false := by simp [hp]
    have hright : (common ++ q).isEmpty = false := by simp [hq]
    simp [Frame.isFinished, hleft, hright]

/-- Both active frames wait for the same child. -/
theorem Beside.child (h : Beside p q w k (f :: fs) (g :: gs)) (c : Frame) :
    Beside p q w k (c :: Machine.waiting f :: fs) (c :: Machine.waiting g :: gs) := by
  refine .above c ?_
  rcases h.uncons with ⟨rfl, hb⟩ | ⟨common, c, g₀, hclear, hk, rfl, rfl, rfl⟩
  · exact .above _ hb
  · exact .base (.child :: common) hclear hk

/-- The frame around a finished one drops its mark. -/
theorem Beside.unmark (hc : .child ∉ p) (h : Beside p q w k (f :: fs) (g :: gs)) (hf : f.Waits) :
    Beside p q w k ({ f with program := f.program.tail } :: fs)
      ({ g with program := g.program.tail } :: gs) := by
  rcases h.uncons with ⟨rfl, hb⟩ | ⟨common, c, g₀, hclear, hk, rfl, rfl, rfl⟩
  · exact .above _ hb
  · obtain ⟨b, rest, hb, -⟩ := hf
    cases common with
    | nil =>
      -- the mark is in front of the helper's own blocks
      refine absurd ?_ hc
      simp only [List.nil_append] at hb
      rw [hb]
      exact List.mem_cons_self
    | cons x common => exact .base common hclear hk

/-- What a step asks of such frames, if both have blocks behind the common program. -/
theorem beside_matching (hp : p ≠ []) (hq : q ≠ []) : Matching 1 (Beside p q w k) where
  length h := h.length.1
  fetch h := h.fetch
  bindUp h := h.bindUp
  isFinished h := (h.of_isFinished hp hq).1
  nested h hfin := by
    have hlen := ((h.of_isFinished hp hq).2 hfin).2.length
    omega
  loaded h hfin s bound := by
    obtain ⟨rfl, hb⟩ := (h.of_isFinished hp hq).2 hfin
    exact .above _ hb
  child h := h.child

end Beside

end Frame

namespace Machine

open BlockMachine.Frame (Beside Clear)

/-! ## Machines -/

section Abreast

variable {env : Environment} {p q w : List Pending} {k : Nat} {m n : Machine}

/-- Both come to the end of the common program at once. -/
theorem Abreast.isPast (h : Abreast (Beside p q w k) m n) :
    m.isPast (k + 1) p.length = n.isPast k q.length := by
  rw [Bool.eq_iff_iff, isPast_iff, isPast_iff]
  have hb := h.related
  rcases hb.uncons with ⟨-, hb⟩ | ⟨common, c, g, -, hk, hm, hmo, hn⟩
  · have hlen := hb.length
    omega
  · rw [hm, hmo, hn]
    simp only [List.length_cons, List.length_append]
    omega

/-- Before the end of the common program both have the same block next. -/
theorem Abreast.next (h : Abreast (Beside p q w k) m n)
    (hpast : m.isPast (k + 1) p.length = false) {b : Block} {rest : List Pending}
    (hm : m.active.program = .block b :: rest) :
    ∃ rest', n.active.program = .block b :: rest' ∧
      Beside p q w k (m.withProgram rest).frames (n.withProgram rest').frames := by
  have hb := h.related
  rcases hb.uncons with ⟨hactive, hb⟩ | ⟨common, c, g, hclear, hk, hma, hmo, hna⟩
  · refine ⟨rest, by rw [← hactive]; exact hm, ?_⟩
    simp only [frames, withProgram]
    rw [hactive]
    exact .above _ hb
  · rw [not_isPast_iff, hma, hmo] at hpast
    rw [hma] at hm
    cases common with
    | nil => simp [hk] at hpast
    | cons x common =>
      simp only [List.cons_append, List.cons.injEq] at hm
      obtain ⟨rfl, rfl⟩ := hm
      refine ⟨common ++ q, by rw [hna]; rfl, ?_⟩
      simp only [frames, withProgram]
      rw [hma, hmo, hna]
      exact .base common hclear hk

/-- Finished frames are closed, which are not those of the helper and the caller. -/
theorem Abreast.close (hp : p ≠ []) (hc : .child ∉ p) (hq : q ≠ [])
    (h : Abreast (Beside p q w k) m n) (hfin : m.active.isFinished = true) :
    Abreast (Beside p q w k) m.closeFrame n.closeFrame := by
  obtain ⟨-, hb⟩ := (h.related.of_isFinished hp hq).2 hfin
  have hlen := hb.length
  obtain ⟨f, fs, hmo⟩ := List.exists_cons_of_length_pos (show 0 < m.outer.length by omega)
  obtain ⟨g, gs, hno⟩ := List.exists_cons_of_length_pos (show 0 < n.outer.length by omega)
  rw [hmo, hno] at hb
  obtain ⟨hma, hmo'⟩ := closeFrame_cons hmo
  obtain ⟨hna, hno'⟩ := closeFrame_cons hno
  refine ⟨((alike_closeFrame m).symm.trans h.same).trans (alike_closeFrame n), ?_,
    (h.left.closeFrame hmo).1, (h.right.closeFrame hno).1⟩
  simp only [frames]
  rw [hma, hmo', hna, hno']
  exact hb.unmark hc (h.left.outer f (by rw [hmo]; exact List.mem_cons_self))

/-- **One step.** Before the end of the common program, the second machine follows the first. -/
theorem Abreast.follow (hquiet : env.Quiet) (hp : p ≠ []) (hc : .child ∉ p) (hq : q ≠ [])
    (h : Abreast (Beside p q w k) m n) (hpast : m.isPast (k + 1) p.length = false)
    (hinline : m.isInline = true) (run run' : Runner) :
    n.isInline = true ∧ Abreast (Beside p q w k) (m.step (splicing env run) env).2
      (n.step (splicing env run') env).2 := by
  obtain ⟨hinline', u, v, huv, hsteps⟩ := h.step hquiet (Frame.beside_matching hp hq) hinline
    (fun b rest hb => h.next hpast hb) run run'
  refine ⟨hinline', ?_⟩
  rcases hsteps with ⟨hu, hv⟩ | ⟨hfin, hu, hv⟩
  · rw [hu, hv]
    exact huv
  · rw [hu, hv]
    exact huv.close hp hc hq hfin

/-- **Segments.** The second machine follows the first to the end of the common program. -/
theorem Abreast.leads (hquiet : env.Quiet) (hp : p ≠ []) (hc : .child ∉ p) (hq : q ≠ [])
    (run run' : Runner) {c : Nat} {x : Machine} :
    ∀ {m n : Machine}, Abreast (Beside p q w k) m n →
      Leads (splicing env run) env (k + 1) p.length c m x →
      ∃ y, Leads (splicing env run') env k q.length c n y ∧ Abreast (Beside p q w k) x y := by
  induction c with
  | zero =>
    rintro m n h rfl
    exact ⟨n, rfl, h⟩
  | succ c ih =>
    rintro m n h ⟨hpast, hinline, hrest⟩
    obtain ⟨hinline', h'⟩ := h.follow hquiet hp hc hq hpast hinline run run'
    obtain ⟨y, hy, hxy⟩ := ih h'.counted hrest
    exact ⟨y, ⟨h.isPast.symm.trans hpast, hinline', hy⟩, hxy⟩

/-- At the end of the common program, both are in the frames of the helper and the caller. -/
theorem Abreast.arrive (h : Abreast (Beside p q w k) m n)
    (hpast : m.isPast (k + 1) p.length = true) :
    ∃ c g, Clear c g ∧ n.outer.length = k ∧ m.active = { c with program := p } ∧
      m.outer = { g with program := w } :: n.outer ∧ n.active = { g with program := q } := by
  rw [isPast_iff] at hpast
  rcases h.related.uncons with ⟨-, hb⟩ | ⟨common, c, g, hclear, hk, hma, hmo, hna⟩
  · have hlen := hb.length
    omega
  · rw [hma, hmo] at hpast
    simp only [List.length_cons, List.length_append] at hpast
    obtain rfl : common = [] := List.eq_nil_of_length_eq_zero (by omega)
    exact ⟨c, g, hclear, hk, hma, hmo, hna⟩

end Abreast

end Machine

end BlockMachine
