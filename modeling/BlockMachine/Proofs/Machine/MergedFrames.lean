import BlockMachine.Proofs.Machine.Runs

/-!
# Frames that stand for chains of frames

A call in tail position is spliced into the frame that makes it, so one frame holds the variables of
a whole chain of calls. Here such frames are compared with those of a machine that opens a child for
every call and so keeps one frame per call.

* `Gathers f g gs` — the frame `f` stands for the chain of frames `g :: gs`: a name has the innermost
  value that it has in the chain, and is a parameter if it is one anywhere in the chain;
  `Gathers.extend` — one more call;
* `Merged fs ns` — frame by frame, the frames `fs` stand for successive chains of `ns`;
  `Merged.bindUp`, `Merged.fetch` — assigning and recalling respect this.
-/

namespace BlockMachine

namespace Frame

/-! ## Bindings -/

theorem find?_bind_self (f : Frame) (name : String) (parameter : Bool) (b : Block) :
    (f.bind name parameter b).bindings.find? name = some ⟨parameter, b⟩ :=
  Keyed.find?_insert_self _ _ _

theorem find?_bind_of_ne (f : Frame) {name other : String} (parameter : Bool) (b : Block)
    (h : other ≠ name) : (f.bind name parameter b).bindings.find? other = f.bindings.find? other :=
  Keyed.find?_insert_of_ne _ _ h

theorem isParameter_bind_self (f : Frame) (name : String) (parameter : Bool) (b : Block) :
    (f.bind name parameter b).isParameter name = parameter := by
  simp [isParameter, find?_bind_self]

theorem isParameter_bind_of_ne (f : Frame) {name other : String} (parameter : Bool) (b : Block)
    (h : other ≠ name) : (f.bind name parameter b).isParameter other = f.isParameter other := by
  simp [isParameter, find?_bind_of_ne f parameter b h]

theorem fetch_cons (f : Frame) (fs : List Frame) (name : String) :
    fetch (f :: fs) name = ((f.bindings.find? name).map Binding.block).or (fetch fs name) := by
  rw [fetch]
  rw [List.findSome?_cons]
  cases (f.bindings.find? name).map Binding.block <;> rfl

theorem fetch_append (fs gs : List Frame) (name : String) :
    fetch (fs ++ gs) name = (fetch fs name).or (fetch gs name) := by
  simp only [fetch]
  rw [List.findSome?_append]

/-- What a chain of frames binds a name to: the innermost value, as a parameter if it is one in any
of the frames. -/
def gathered (gs : List Frame) (name : String) : Option Binding :=
  (fetch gs name).map fun b => ⟨gs.any fun g => g.isParameter name, b⟩

/-- A frame stands for a chain of frames, of which all but the first have nothing left to do than to
wait for the one before. -/
structure Gathers (f g : Frame) (gs : List Frame) : Prop where
  program : f.program = g.program
  idle : ∀ x ∈ gs, x.program = [.child]
  bindings : ∀ name, f.bindings.find? name = gathered (g :: gs) name

/-- A parameter is bound. -/
theorem isParameter_of_fetch_eq_none {gs : List Frame} {name : String}
    (h : fetch gs name = none) : (gs.any fun g => g.isParameter name) = false := by
  rw [fetch] at h
  rw [List.findSome?_eq_none_iff] at h
  rw [List.any_eq_false]
  intro g hg
  have hb : g.bindings.find? name = none := by simpa using h g hg
  simp [isParameter, hb]

theorem Gathers.isParameter {f g : Frame} {gs : List Frame} (h : Gathers f g gs) (name : String) :
    f.isParameter name = (g :: gs).any fun x => x.isParameter name := by
  have hp : f.isParameter name = (gathered (g :: gs) name).any Binding.parameter := by
    rw [← h.bindings name]
    rfl
  rw [hp]
  rw [gathered]
  cases hf : fetch (g :: gs) name with
  | none => exact (isParameter_of_fetch_eq_none hf).symm
  | some b => rfl

theorem Gathers.fetch {f g : Frame} {gs : List Frame} (h : Gathers f g gs) (name : String) :
    (f.bindings.find? name).map Binding.block = Frame.fetch (g :: gs) name := by
  rw [h.bindings name]
  rw [gathered]
  cases Frame.fetch (g :: gs) name <;> rfl

/-- A frame stands for itself. -/
theorem gathers_self (f : Frame) : Gathers f f [] := by
  refine ⟨rfl, fun x hx => absurd hx List.not_mem_nil, ?_⟩
  intro name
  simp only [gathered, fetch_cons, List.any_cons, List.any_nil, Bool.or_false, isParameter]
  cases hb : f.bindings.find? name with
  | none => rfl
  | some v => rfl

/-! ## Chains -/

/-- Binding a name in a chain in which it is a parameter stays within the chain. -/
theorem bindUp_append_of_any {gs : List Frame} {name : String} (b : Block) (ns : List Frame)
    (h : (gs.any fun g => g.isParameter name) = true) :
    bindUp name b false (gs ++ ns) = bindUp name b false gs ++ ns := by
  induction gs with
  | nil => cases h
  | cons g gs ih =>
    rw [List.cons_append, bindUp_cons, bindUp_cons]
    cases hg : g.isParameter name with
    | true => simp
    | false =>
      rw [List.any_cons, hg, Bool.false_or] at h
      simp [ih h]

/-- Binding a name in a chain in which it is no parameter goes on beyond the chain. -/
theorem bindUp_append_of_not_any {gs : List Frame} {name : String} (b : Block) (ns : List Frame)
    (h : (gs.any fun g => g.isParameter name) = false) :
    bindUp name b false (gs ++ ns) = bindUp name b false gs ++ bindUp name b false ns := by
  induction gs with
  | nil => rfl
  | cons g gs ih =>
    rw [List.any_cons, Bool.or_eq_false_iff] at h
    rw [List.cons_append, bindUp_cons, bindUp_cons]
    simp [h.1, ih h.2]

/-- Binding a name changes no other. -/
theorem bindUp_of_ne (b : Block) {name other : String} (h : other ≠ name) :
    ∀ gs : List Frame, fetch (bindUp name b false gs) other = fetch gs other ∧
      ((bindUp name b false gs).any fun g => g.isParameter other) =
        gs.any fun g => g.isParameter other := by
  intro gs
  induction gs with
  | nil => exact ⟨rfl, rfl⟩
  | cons g gs ih =>
    rw [bindUp_cons]
    simp only [Bool.false_or, fetch_cons, List.any_cons, find?_bind_of_ne g _ b h,
      isParameter_bind_of_ne g _ b h]
    split
    · exact ⟨rfl, rfl⟩
    · rw [ih.1, ih.2]
      exact ⟨rfl, rfl⟩

theorem gathered_bindUp_of_ne (b : Block) {name other : String} (h : other ≠ name)
    (gs : List Frame) : gathered (bindUp name b false gs) other = gathered gs other := by
  simp only [gathered]
  rw [(bindUp_of_ne b h gs).1, (bindUp_of_ne b h gs).2]

theorem fetch_bindUp_self (name : String) (b : Block) (g : Frame) (gs : List Frame) :
    fetch (bindUp name b false (g :: gs)) name = some b := by
  rw [bindUp_cons]
  simp [fetch_cons, find?_bind_self]

/-- Binding a name in a chain keeps the mark that the chain as a whole has for it. -/
theorem gathered_bindUp_self (name : String) (b : Block) (g : Frame) (gs : List Frame) :
    gathered (bindUp name b false (g :: gs)) name =
      some ⟨(g :: gs).any fun x => x.isParameter name, b⟩ := by
  have hany : ∀ gs : List Frame, ((bindUp name b false gs).any fun g => g.isParameter name) =
      gs.any fun g => g.isParameter name := by
    intro gs
    induction gs with
    | nil => rfl
    | cons g gs ih =>
      rw [bindUp_cons]
      simp only [Bool.false_or, List.any_cons, isParameter_bind_self]
      split
      · rfl
      · rw [ih]
  rw [gathered]
  rw [hany, fetch_bindUp_self]
  rfl

/-- A frame still stands for a chain after a name is bound in both. -/
theorem Gathers.bindUp {f g : Frame} {gs : List Frame} (h : Gathers f g gs) (name : String)
    (b : Block) : ∃ g' gs', Frame.bindUp name b false (g :: gs) = g' :: gs' ∧
      Gathers (f.bind name (f.isParameter name) b) g' gs' := by
  have hprograms := bindUp_programs name b false (g :: gs)
  rcases hb : Frame.bindUp name b false (g :: gs) with _ | ⟨g', gs'⟩
  · cases hb
  · rw [hb] at hprograms
    simp only [List.map_cons, List.cons.injEq] at hprograms
    obtain ⟨hhead, htail⟩ := hprograms
    refine ⟨g', gs', rfl, h.program.trans hhead.symm, ?_, ?_⟩
    · intro x hx
      have hmem : x.program ∈ gs.map Frame.program := by
        rw [← htail]
        exact List.mem_map_of_mem hx
      obtain ⟨y, hy, hxy⟩ := List.mem_map.1 hmem
      rw [← hxy]
      exact h.idle y hy
    · intro other
      rw [← hb]
      by_cases hne : other = name
      · rw [hne, find?_bind_self, gathered_bindUp_self, h.isParameter]
      · rw [find?_bind_of_ne f _ b hne, gathered_bindUp_of_ne b hne, h.bindings]

theorem Gathers.withProgram {f g : Frame} {gs : List Frame} (h : Gathers f g gs)
    (program : List Pending) :
    Gathers { f with program := program } { g with program := program } gs :=
  ⟨rfl, h.idle, h.bindings⟩

/-- A frame still stands for a chain when both wait for a child. -/
theorem Gathers.waiting {f g : Frame} {gs : List Frame} (h : Gathers f g gs) :
    Gathers (Machine.waiting f) (Machine.waiting g) gs :=
  ⟨congrArg (Pending.child :: ·) h.program, h.idle, h.bindings⟩

/-- The frame `f'` is `f` with the parameters of the frame `c` bound in it. -/
def Extends (f' c f : Frame) : Prop :=
  ∀ name, c.bindings.find? name = none ∧ f'.bindings.find? name = f.bindings.find? name ∨
    ∃ b, c.bindings.find? name = some ⟨true, b⟩ ∧ f'.bindings.find? name = some ⟨true, b⟩

theorem Extends.bind {f' c f : Frame} (h : Extends f' c f) (name : String) (b : Block) :
    Extends (f'.bind name true b) (c.bind name true b) f := by
  intro other
  by_cases hne : other = name
  · rw [hne]
    exact .inr ⟨b, find?_bind_self _ _ _ _, find?_bind_self _ _ _ _⟩
  · rw [find?_bind_of_ne c _ b hne, find?_bind_of_ne f' _ b hne]
    exact h other

theorem Extends.bindEach (bound : List (String × Block)) :
    ∀ {f' c f : Frame}, Extends f' c f → Extends (bindEach bound f') (bindEach bound c) f := by
  induction bound with
  | nil =>
    intro f' c f h
    exact h
  | cons p bound ih =>
    intro f' c f h
    exact ih (h.bind p.1 p.2)

theorem extends_self {f c : Frame} (hc : c.bindings = []) : Extends f c f := by
  intro name
  rw [hc]
  exact .inl ⟨rfl, rfl⟩

/-- A new child adds its parameters to what its chain binds. -/
theorem Gathers.extend {f g : Frame} {gs : List Frame} (h : Gathers f g gs) (hg : g.program = [])
    {f' c : Frame} (hx : Extends f' c f) (hp : f'.program = c.program) :
    Gathers f' c (Machine.waiting g :: gs) := by
  refine ⟨hp, ?_, ?_⟩
  · intro x hmem
    rcases List.mem_cons.1 hmem with rfl | hmem
    · simp [Machine.waiting, hg]
    · exact h.idle x hmem
  · intro name
    have hwait : gathered (Machine.waiting g :: gs) name = gathered (g :: gs) name := rfl
    rcases hx name with ⟨hc, hf⟩ | ⟨b, hc, hf⟩
    · have hnot : c.isParameter name = false := by simp [Frame.isParameter, hc]
      rw [hf, h.bindings name, ← hwait]
      simp only [gathered, fetch_cons c, List.any_cons, hc, hnot, Option.map_none, Option.none_or,
        Bool.false_or]
    · have his : c.isParameter name = true := by simp [Frame.isParameter, hc]
      rw [hf]
      simp only [gathered, fetch_cons c, List.any_cons, hc, his, Option.map_some, Option.some_or,
        Bool.true_or]

/-! ## All frames -/

/-- Frames that stand, one after the other, for the chains that a list of frames consists of. -/
inductive Merged : List Frame → List Frame → Prop where
  | nil : Merged [] []
  | cons {f g : Frame} {gs fs ns : List Frame} : Gathers f g gs → Merged fs ns →
    Merged (f :: fs) (g :: (gs ++ ns))

/-- The chain that the first frame stands for, and the rest. -/
theorem Merged.uncons {f g : Frame} {fs ms : List Frame} (h : Merged (f :: fs) (g :: ms)) :
    ∃ gs ns, Gathers f g gs ∧ ms = gs ++ ns ∧ Merged fs ns := by
  cases h with
  | @cons _ _ gs _ ns hg hrest => exact ⟨gs, ns, hg, rfl, hrest⟩

/-- Both bind a name to the same block. -/
theorem Merged.fetch {fs ns : List Frame} (h : Merged fs ns) (name : String) :
    Frame.fetch fs name = Frame.fetch ns name := by
  induction h with
  | nil => rfl
  | @cons f g gs fs ns hg _ ih =>
    rw [fetch_cons, hg.fetch, ih, ← List.cons_append, fetch_append]

/-- **Assignments.** Both still correspond after a name is bound in both. -/
theorem Merged.bindUp {fs ns : List Frame} (h : Merged fs ns) (name : String) (b : Block) :
    Merged (Frame.bindUp name b false fs) (Frame.bindUp name b false ns) := by
  induction h with
  | nil => exact .nil
  | @cons f g gs fs ns hg hrest ih =>
    obtain ⟨g', gs', hb, hg'⟩ := hg.bindUp name b
    rw [← List.cons_append, bindUp_cons, Bool.false_or]
    cases hp : f.isParameter name with
    | true =>
      rw [bindUp_append_of_any b ns (by rw [← hg.isParameter, hp]), hb, List.cons_append]
      rw [hp] at hg'
      exact .cons hg' hrest
    | false =>
      rw [bindUp_append_of_not_any b ns (by rw [← hg.isParameter, hp]), hb, List.cons_append]
      rw [hp] at hg'
      exact .cons hg' ih

/-- If the frames have work left, so have those that they stand for. -/
theorem Merged.unfinished {fs ns : List Frame} (h : Merged fs ns)
    (hfs : ∀ f ∈ fs, f.isFinished = false) : ∀ f ∈ ns, f.isFinished = false := by
  induction h with
  | nil => exact hfs
  | @cons f g gs fs ns hg _ ih =>
    intro x hx
    rcases List.mem_cons.1 hx with rfl | hx
    · have hf := hfs f List.mem_cons_self
      rw [Frame.isFinished] at hf ⊢
      rw [← hg.program]
      exact hf
    · rcases List.mem_append.1 hx with hx | hx
      · simp [Frame.isFinished, hg.idle x hx]
      · exact ih (fun f hf => hfs f (List.mem_cons_of_mem _ hf)) x hx

end Frame

end BlockMachine
