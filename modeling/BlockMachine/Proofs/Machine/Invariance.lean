import BlockMachine.Proofs.Machine.Primitives

/-!
# What all operations keep

Facts about one machine, and about two machines side by side, that every primitive operation keeps.

* `Kept P` — the primitives keep the property `P`, `Congruent.and_kept` — a relation together with
  such properties of its two sides;
* `Alike` — two machines that agree on all but their frames, observers and limits, `Same` — also on
  the counts of anonymous stacks and random modes;
* `kept_frames` — the primitives leave the frames alone;
* `Stable d P` — the property also survives assignments, stacks that are run from the active frame,
  and whatever nested machines do to the world; `Stable.evaluate` — then every block keeps it.
-/

namespace BlockMachine.Machine

/-! ## Fields

An event reaches the log and nothing else; pushing and popping change the value stack, and the
counts of an isolated call's observer. -/

section Fields

variable (m : Machine) (e : Event) (b : Block) (c : Option Block)

/-- An event changes at most the world. -/
theorem notify_eq : m.notify e = { m with world := (m.notify e).world } := by
  rw [notify]
  split <;> rfl

@[simp] theorem notify_world :
    (m.notify e).world.store = m.world.store ∧ (m.notify e).world.memory = m.world.memory := by
  rw [notify]
  split <;> exact ⟨rfl, rfl⟩

@[simp] theorem notify_rest :
    (m.notify e).values = m.values ∧ (m.notify e).view = m.view ∧
      (m.notify e).active = m.active ∧ (m.notify e).outer = m.outer ∧
      (m.notify e).workspace = m.workspace ∧ (m.notify e).anonymous = m.anonymous ∧
      (m.notify e).randModes = m.randModes ∧ (m.notify e).randIndex = m.randIndex := by
  rw [notify_eq]
  exact ⟨rfl, rfl, rfl, rfl, rfl, rfl, rfl, rfl⟩

@[simp] theorem push_values : (m.push b).values = b :: m.values := by
  simp [push]

@[simp] theorem push_view : (m.push b).view = m.view.pushed := by
  simp [push]

@[simp] theorem push_rest :
    (m.push b).active = m.active ∧ (m.push b).outer = m.outer ∧
      (m.push b).world.store = m.world.store ∧ (m.push b).world.memory = m.world.memory ∧
      (m.push b).workspace = m.workspace ∧ (m.push b).anonymous = m.anonymous ∧
      (m.push b).randModes = m.randModes ∧ (m.push b).randIndex = m.randIndex := by
  simp [push]

@[simp] theorem pop_values : (m.pop c).2.values = m.values.tail := by
  rw [pop]
  split
  · rename_i hv
    simp [hv]
  · rename_i hv
    simp [hv]

@[simp] theorem pop_view :
    (m.pop c).2.view = if m.values.isEmpty then m.view else m.view.popped := by
  rw [pop]
  split
  · rename_i hv
    simp [hv]
  · rename_i hv
    cases c <;> simp [hv]

@[simp] theorem pop_rest :
    (m.pop c).2.active = m.active ∧ (m.pop c).2.outer = m.outer ∧
      (m.pop c).2.world.store = m.world.store ∧ (m.pop c).2.world.memory = m.world.memory ∧
      (m.pop c).2.workspace = m.workspace ∧ (m.pop c).2.anonymous = m.anonymous ∧
      (m.pop c).2.randModes = m.randModes ∧ (m.pop c).2.randIndex = m.randIndex := by
  rw [pop]
  split
  · simp
  · cases c <;> simp

/-- What a block in memory changes: the memory, and the log if the block is news. -/
theorem setVariable_eq {m m' : Machine} {id name : String} {v : Option Block}
    (h : m.setVariable id name v = .ok m') :
    ∃ memory changed log, m.world.memory.setVariable m.heap id name v = .ok (memory, changed) ∧
      m' = { m with world := { m.world with memory, log } } := by
  rw [setVariable] at h
  split at h
  · cases h
  · rename_i memory changed hset
    refine ⟨memory, changed, m'.world.log, hset, ?_⟩
    obtain rfl := Except.ok.inj h
    cases v with
    | none => rfl
    | some b =>
      simp only [withMemory]
      split
      · rw [notify_eq]
        simp
      · rfl

/-- Rolling dice changes the dice and which random modes are used up. -/
theorem roll_eq : m.roll.2 =
    { m with
      randIndex := m.roll.2.randIndex
      world := { m.world with store := { m.world.store with dice := m.roll.2.world.store.dice } } } := by
  rw [roll, nextRandMode]
  split
  · rename_i heq
    split at heq
    · cases heq
      rfl
    · cases heq
  · rename_i heq
    split at heq
    · cases heq
      rfl
    · cases heq
  · rename_i heq
    split at heq
    · cases heq
      rfl
    · cases heq
      rfl

end Fields

/-! ## Properties of one machine -/

/-- A property that the primitive operations keep. -/
structure Kept (P : Machine → Prop) : Prop where
  push : ∀ {m} (b : Block), P m → P (m.push b)
  pop : ∀ {m} (c : Option Block), P m → P (m.pop c).2
  alloc : ∀ {m} (s : Stack), P m → P (m.alloc s).2
  roll : ∀ {m}, P m → P m.roll.2
  nextAnonymous : ∀ {m}, P m → P m.nextAnonymous.2
  setVariable : ∀ {m m'} {id name : String} {b : Block}, P m →
    m.setVariable id name (some b) = .ok m' → P m'

section Kept

variable {P : Machine → Prop}

theorem Kept.pushAll (hP : Kept P) (bs : List Block) :
    ∀ {m : Machine}, P m → P (m.pushAll bs) := by
  induction bs with
  | nil =>
    intro m h
    exact h
  | cons b bs ih =>
    intro m h
    exact ih (hP.push b h)

theorem Kept.drop (hP : Kept P) (k : Nat) : ∀ {m : Machine}, P m → P (m.drop k) := by
  induction k with
  | zero =>
    intro m h
    exact h
  | succ k ih =>
    intro m h
    exact ih (hP.pop none h)

/-- Taking over what an isolated call left is a matter of pushes and pops. -/
theorem Kept.adopt (hP : Kept P) {m : Machine} (h : P m) (result : List Block) (sub : Machine) :
    P (m.adopt result sub) := by
  rw [Machine.adopt]
  split
  · exact hP.pushAll _ (hP.drop _ h)
  · exact hP.pushAll _ h

end Kept

/-- The primitives leave the frames alone. -/
theorem kept_frames (active : Frame) (outer : List Frame) :
    Kept fun m => m.active = active ∧ m.outer = outer where
  push b h := by simpa using h
  pop c h := by simpa using h
  alloc s h := h
  roll h := by
    rw [roll_eq]
    exact h
  nextAnonymous h := h
  setVariable h hs := by
    obtain ⟨memory, changed, log, -, rfl⟩ := setVariable_eq hs
    exact h

/-! ## Pairs of machines -/

/-- Two machines that agree on all but their frames, observers and limits; on the count of anonymous
stacks if `named`, and on the random modes if `rolled`. -/
structure Alike (named rolled : Prop) (m n : Machine) : Prop where
  values : m.values = n.values
  workspace : m.workspace = n.workspace
  store : m.world.store = n.world.store
  memory : m.world.memory = n.world.memory
  anonymous : named → m.anonymous = n.anonymous
  randModes : rolled → m.randModes = n.randModes
  randIndex : rolled → m.randIndex = n.randIndex

/-- Machines that differ at most in their frames, observers and limits. -/
abbrev Same := Alike True True

section Alike

variable {named rolled : Prop}

theorem Alike.refl (m : Machine) : Alike named rolled m m :=
  ⟨rfl, rfl, rfl, rfl, fun _ => rfl, fun _ => rfl, fun _ => rfl⟩

theorem Alike.symm {m n : Machine} (h : Alike named rolled m n) : Alike named rolled n m :=
  ⟨h.values.symm, h.workspace.symm, h.store.symm, h.memory.symm, fun ha => (h.anonymous ha).symm,
    fun hr => (h.randModes hr).symm, fun hr => (h.randIndex hr).symm⟩

theorem Alike.trans {l m n : Machine} (h : Alike named rolled l m) (h' : Alike named rolled m n) :
    Alike named rolled l n :=
  ⟨h.values.trans h'.values, h.workspace.trans h'.workspace, h.store.trans h'.store,
    h.memory.trans h'.memory, fun ha => (h.anonymous ha).trans (h'.anonymous ha),
    fun hr => (h.randModes hr).trans (h'.randModes hr),
    fun hr => (h.randIndex hr).trans (h'.randIndex hr)⟩

theorem alike_notify (m : Machine) (e : Event) : Alike named rolled m (m.notify e) := by
  constructor <;> simp

/-- Machines that are alike stay so under the primitives. -/
theorem alike_congruent : Congruent (Alike named rolled) where
  values h := h.values
  workspace h := h.workspace
  store h := h.store
  memory h := h.memory
  push b h := by
    obtain ⟨h₁, h₂, h₃, h₄, h₅, h₆, h₇⟩ := h
    refine ⟨?_, ?_, ?_, ?_, ?_, ?_, ?_⟩
    · simp [h₁]
    · simp [h₂]
    · simp [h₃]
    · simp [h₄]
    · simpa using h₅
    · simpa using h₆
    · simpa using h₇
  pop c h := by
    obtain ⟨h₁, h₂, h₃, h₄, h₅, h₆, h₇⟩ := h
    refine ⟨?_, ?_, ?_, ?_, ?_, ?_, ?_⟩
    · simp [h₁]
    · simp [h₂]
    · simp [h₃]
    · simp [h₄]
    · simpa using h₅
    · simpa using h₆
    · simpa using h₇
  alloc s h := by
    obtain ⟨h₁, h₂, h₃, h₄, h₅, h₆, h₇⟩ := h
    refine ⟨h₁, h₂, ?_, h₄, h₅, h₆, h₇⟩
    simp only [alloc, withStore, h₃]
  setVariable {m n m' n' id name b} h hm hn := by
    obtain ⟨memory, changed, log, hs, rfl⟩ := setVariable_eq hm
    obtain ⟨memory', changed', log', hs', rfl⟩ := setVariable_eq hn
    obtain ⟨h₁, h₂, h₃, h₄, h₅, h₆, h₇⟩ := h
    have hh : m.heap = n.heap := by
      simp only [heap]
      rw [h₃]
    rw [h₄, hh, hs'] at hs
    obtain ⟨rfl, -⟩ := Prod.mk.inj (Except.ok.inj hs)
    exact ⟨h₁, h₂, h₃, rfl, h₅, h₆, h₇⟩

theorem alike_naming (hn : named) : Naming (Alike named rolled) where
  anonymous h := h.anonymous hn
  nextAnonymous h := ⟨h.values, h.workspace, h.store, h.memory,
    fun ha => congrArg (· + 1) (h.anonymous ha), h.randModes, h.randIndex⟩

theorem alike_rolling (hr : rolled) : Rolling (Alike named rolled) where
  roll {m n} h := by
    have hmodes := h.randModes hr
    have hindex := h.randIndex hr
    have hroll : m.roll.1 = n.roll.1 ∧ m.roll.2.randIndex = n.roll.2.randIndex ∧
        m.roll.2.world.store.dice = n.roll.2.world.store.dice := by
      simp only [roll, nextRandMode]
      rw [hmodes, hindex]
      rcases n.randModes[n.randIndex]? with _ | ⟨_ | _ | _⟩ <;> simp [withStore, hindex, h.store]
    refine ⟨hroll.1, ?_⟩
    rw [roll_eq m, roll_eq n]
    refine ⟨h.values, h.workspace, ?_, h.memory, h.anonymous, h.randModes, fun _ => hroll.2.1⟩
    simp only [h.store, hroll.2.2]

end Alike

theorem eq_congruent : Congruent fun m n => m = n where
  values h := by rw [h]
  workspace h := by rw [h]
  store h := by rw [h]
  memory h := by rw [h]
  push b h := by rw [h]
  pop c h := by rw [h]
  alloc s h := by rw [h]
  setVariable h hm hn := by
    subst h
    exact Except.ok.inj (hm.symm.trans hn)

/-- A congruent relation together with properties of its two sides that the primitives keep. -/
theorem Congruent.and_kept {R : Machine → Machine → Prop} {P Q : Machine → Prop}
    (hR : Congruent R) (hP : Kept P) (hQ : Kept Q) :
    Congruent fun m n => R m n ∧ P m ∧ Q n where
  values h := hR.values h.1
  workspace h := hR.workspace h.1
  store h := hR.store h.1
  memory h := hR.memory h.1
  push b h := ⟨hR.push b h.1, hP.push b h.2.1, hQ.push b h.2.2⟩
  pop c h := ⟨hR.pop c h.1, hP.pop c h.2.1, hQ.pop c h.2.2⟩
  alloc s h := ⟨hR.alloc s h.1, hP.alloc s h.2.1, hQ.alloc s h.2.2⟩
  setVariable h hm hn :=
    ⟨hR.setVariable h.1 hm hn, hP.setVariable h.2.1 hm, hQ.setVariable h.2.2 hn⟩

theorem Naming.and_kept {R : Machine → Machine → Prop} {P Q : Machine → Prop}
    (hR : Naming R) (hP : Kept P) (hQ : Kept Q) : Naming fun m n => R m n ∧ P m ∧ Q n where
  anonymous h := hR.anonymous h.1
  nextAnonymous h := ⟨hR.nextAnonymous h.1, hP.nextAnonymous h.2.1, hQ.nextAnonymous h.2.2⟩

theorem Rolling.and_kept {R : Machine → Machine → Prop} {P Q : Machine → Prop}
    (hR : Rolling R) (hP : Kept P) (hQ : Kept Q) : Rolling fun m n => R m n ∧ P m ∧ Q n where
  roll h := ⟨(hR.roll h.1).1, (hR.roll h.1).2, hP.roll h.2.1, hQ.roll h.2.2⟩

theorem eq_naming : Naming fun m n => m = n where
  anonymous h := by rw [h]
  nextAnonymous h := by rw [h]

theorem eq_rolling : Rolling fun m n => m = n where
  roll h := ⟨by rw [h], by rw [h]⟩

/-! ## Blocks, steps and runs -/

/-- A property that also survives assignments, stacks that are run from the active frame, and
whatever nested machines do to the world. -/
structure Stable (d : Discipline) (P : Machine → Prop) : Prop extends Kept P where
  assign : ∀ {m} (name : String) (b : Block), P m → P (m.assign name b false)
  insert : ∀ {m} (s : Stack), P m → P (d.insert s m)
  nested : ∀ {m} (w : World), P m → P { m with world := w }

/-- Sampling a function changes at most the world. -/
theorem sampling_eq (x : Sampling Block) (m : Machine) :
    (m.sampling x).2 = { m with world := (x m.world).2 } := by
  unfold sampling
  simp only
  split
  · rename_i hx
    rw [hx]
    rfl
  · rename_i hx
    rw [hx]
    rfl

/-- An operator that samples a function changes at most the world. -/
theorem operate_calculus {op : Operator} (hop : op.isCalculus = true) (d : Discipline)
    (env : Environment) (this : Block) (overload : Nat) (operands : List Block) (m : Machine) :
    ∃ w, (m.operate d env this op overload operands).2 = { m with world := w } := by
  have hs : ∀ x : Sampling Block, ∃ w, (m.sampling x).2 = { m with world := w } :=
    fun x => ⟨_, sampling_eq x m⟩
  have hm : ∃ w, m = { m with world := w } := ⟨m.world, rfl⟩
  simp only [operate]
  split
  iterate 19
    · exact absurd hop (by decide)
  · rw [integral]
    split
    · split
      · exact hm
      · exact hs _
    · exact hm
  · rw [derivative]
    split
    · exact hs _
    · exact hm
  · rw [sum, series]
    split
    · split
      · exact hm
      · exact hs _
    · exact hm
  · rw [product, series]
    split
    · split
      · exact hm
      · exact hs _
    · exact hm
  · rw [sideLimit]
    split
    · exact hs _
    · exact hm
  · rw [sideLimit]
    split
    · exact hs _
    · exact hm
  · exact ⟨_, rfl⟩
  · exact absurd hop (by decide)
  · exact absurd hop (by decide)
  · exact hm

namespace Stable

variable {d : Discipline} {P : Machine → Prop} {m : Machine}

theorem notify (hP : Stable d P) (e : Event) (h : P m) : P (m.notify e) := by
  rw [notify_eq]
  exact hP.nested _ h

theorem assignEach (hP : Stable d P) (withParameters : Bool) (bindings : Keyed Binding) :
    ∀ {m : Machine}, P m → P (m.assignEach withParameters bindings) := by
  induction bindings with
  | nil =>
    intro m h
    exact h
  | cons p bindings ih =>
    intro m h
    obtain ⟨name, v⟩ := p
    refine ih ?_
    simp only
    split
    · exact hP.assign name v.block h
    · exact h

theorem callIsolated (hP : Stable d P) (run : Runner) (env : Environment) (loc : Loc) (h : P m) :
    P (m.callIsolated run env loc) := by
  unfold Machine.callIsolated obfuscate modifyStack withStore withoutWorld
  simp only
  exact hP.nested _ (hP.adopt (hP.assignEach _ _ (hP.nested _ (hP.nested _ h))) _ _)

/-- A machine beside itself, after its last move. -/
theorem of_joint (hP : Stable d P) {x y : Machine}
    (h : Joint (fun m n => m = n ∧ P m ∧ P n) d.insert d.insert x y) : P x := by
  cases h with
  | stay h => exact h.2.1
  | enter s h => exact hP.insert s h.2.1
  | bind name b h => exact hP.assign name b h.2.1

/-- **Every block keeps a stable property**, also one that runs nested machines. -/
theorem evaluate (hP : Stable d P) (env : Environment) (this : Block) (h : P m) :
    P (m.evaluate d env this) := by
  have hR := eq_congruent.and_kept hP.toKept hP.toKept
  by_cases hp : m.isPlain this = true
  · exact hP.of_joint (hR.evaluate_joint ⟨rfl, h, h⟩ d d env (fun _ => rfl) this hp
      (fun _ => eq_rolling.and_kept hP.toKept hP.toKept)
      (fun _ => eq_naming.and_kept hP.toKept hP.toKept))
  · cases this with
    | operator op =>
      have hop : op.isCalculus = true := by simpa [isPlain] using hp
      obtain ⟨taken, m', n', hm, -, -, h', -⟩ :=
        (hR.takeFor ⟨rfl, h, h⟩ env (.operator op) op).elim
      simp only [Machine.evaluate, evaluateOperator, hm]
      cases taken with
      | none => exact h'
      | some taken =>
        obtain ⟨operands, overload⟩ := taken
        obtain ⟨w, hw⟩ := operate_calculus hop d env (.operator op) overload operands m'
        have hP' : P (m'.operate d env (.operator op) op overload operands).2 := by
          rw [hw]
          exact hP.nested w h'
        simp only
        generalize m'.operate d env (.operator op) op overload operands = x at hP' ⊢
        obtain ⟨_ | b, m''⟩ := x
        · exact hP'
        · exact hP.push b hP'
    | code name target =>
      simp only [Machine.evaluate, call]
      split
      · split
        · exact hP.callIsolated _ _ _ h
        · exact hP.insert _ h
      · exact hP.push _ h
    | extension ext =>
      simp only [Machine.evaluate]
      split
      · exact hP.push _ h
      · exact (hR.respread ⟨rfl, h, h⟩ _ _ _).2.1
    | _ => exact absurd rfl hp

end Stable

end BlockMachine.Machine
