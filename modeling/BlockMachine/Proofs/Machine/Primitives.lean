import BlockMachine.Machine.Host
import BlockMachine.Proofs.Heap.Relocation

/-!
# What a step can do to a machine

Every operator works on a machine through a few primitive operations: it pushes and pops blocks,
adds stacks to the heap, rolls dice, counts anonymous stacks and random modes, and writes memory.
Then it either stops, or runs one stack from the active frame. So a relation between two machines
that all primitives keep is kept by every operator, up to that stack. The stacks of the two machines
may stand in different places.

* `CongruentAlong σ R` — the primitives keep the relation `R`, and related machines agree on all
  that an operator reads, up to a relocation `σ` of stacks; `Rolling R`, `Naming R` — and on the
  dice, and on the count of anonymous stacks;
* `RelatedBy f R` — two outcomes with corresponding answers and related machines;
* `JointAlong σ R` — two machines that come from related ones by the same last move: none, a stack
  that is run from the active frame, or a name that is bound;
* `CongruentAlong.evaluate_joint` — evaluating one block on related machines ends jointly, as long
  as it asks for no nested machine;
* `Congruent R`, `Related R`, `Joint R`, `Congruent.evaluate_joint` — the same where all stacks
  stand in the same places.
-/

namespace BlockMachine

/-- Whether an operator samples its operand on nested machines. -/
def Operator.isCalculus : Operator → Bool
  | .integral | .derivative | .sum | .product | .positiveLimit | .negativeLimit | .limit => true
  | _ => false

/-- Whether an operator may name a new stack by the count of anonymous ones. -/
def Operator.isNaming : Operator → Bool
  | .filterHelper | .insert | .append | .replace | .delete | .write => true
  | _ => false

/-- Whether a block rolls dice when it is evaluated. -/
def Block.rolls : Block → Bool
  | .operator .random => true
  | _ => false

/-- Whether a block may name an anonymous stack when it is evaluated. -/
def Block.names : Block → Bool
  | .operator op => op.isNaming
  | _ => false

namespace Machine

/-- What a name stands for when it is recalled. -/
def recalled (env : Environment) (m : Machine) (name : String) : Block :=
  (m.fetch name).getD (m.unassigned env (.fetch name))

/-- Whether a block is evaluated without a nested machine and without the help of a module: it is no
calculus operator, no call of a marked stack and no module's block. -/
def isPlain (m : Machine) : Block → Bool
  | .operator op => !op.isCalculus
  | .code name target =>
    match m.resolve (.code name target) with
    | .code _ (some loc) => !(m.heap.get loc).obfuscated
    | _ => true
  | .extension _ => false
  | _ => true

/-- A relation that the primitive operations keep, between machines that differ at most in their
frames, their observers and their limits. -/
structure Congruent (R : Machine → Machine → Prop) : Prop where
  values : ∀ {m n}, R m n → m.values = n.values
  workspace : ∀ {m n}, R m n → m.workspace = n.workspace
  store : ∀ {m n}, R m n → m.world.store = n.world.store
  memory : ∀ {m n}, R m n → m.world.memory = n.world.memory
  push : ∀ {m n} (b : Block), R m n → R (m.push b) (n.push b)
  pop : ∀ {m n} (c : Option Block), R m n → R (m.pop c).2 (n.pop c).2
  alloc : ∀ {m n} (s : Stack), R m n → R (m.alloc s).2 (n.alloc s).2
  setVariable : ∀ {m n m' n'} {id name : String} {b : Block}, R m n →
    m.setVariable id name (some b) = .ok m' → n.setVariable id name (some b) = .ok n' → R m' n'

/-- A relation that the primitive operations keep, between machines that differ at most in their
frames, observers, limits and dice, and in the places of their stacks. -/
structure CongruentAlong (σ : Loc → Loc) (R : Machine → Machine → Prop) : Prop where
  values : ∀ {m n}, R m n → n.values = m.values.map (Block.relocate σ)
  workspace : ∀ {m n}, R m n → n.workspace = m.workspace.relocate σ
  heap : ∀ {m n}, R m n → Heap.Relocates σ m.heap n.heap
  memory : ∀ {m n}, R m n → n.world.memory = m.world.memory.relocate σ
  push : ∀ {m n} (b : Block), R m n → R (m.push b) (n.push (b.relocate σ))
  pop : ∀ {m n} (c : Option Block), R m n → R (m.pop c).2 (n.pop (c.map (Block.relocate σ))).2
  alloc : ∀ {m n} (s : Stack), R m n → R (m.alloc s).2 (n.alloc (s.relocate σ)).2
  setVariable : ∀ {m n m' n'} {id name : String} {b : Block}, R m n →
    m.setVariable id name (some b) = .ok m' →
    n.setVariable id name (some (b.relocate σ)) = .ok n' → R m' n'

/-- Two outcomes with the same answer, on related machines. -/
def Related {α : Type} (R : Machine → Machine → Prop) (x y : α × Machine) : Prop :=
  x.1 = y.1 ∧ R x.2 y.2

/-- Two outcomes, on related machines, of which `f` takes the first answer to the second. -/
def RelatedBy {α : Type} (f : α → α) (R : Machine → Machine → Prop) (x y : α × Machine) : Prop :=
  y.1 = f x.1 ∧ R x.2 y.2

/-- Related outcomes have one answer. -/
theorem Related.elim {α : Type} {R : Machine → Machine → Prop} {x y : α × Machine}
    (h : Related R x y) : ∃ a m n, x = (a, m) ∧ y = (a, n) ∧ R m n := by
  obtain ⟨a, m⟩ := x
  obtain ⟨b, n⟩ := y
  obtain ⟨rfl, hR⟩ := h
  exact ⟨a, m, n, rfl, rfl, hR⟩

/-- Outcomes that are related by a map have corresponding answers. -/
theorem RelatedBy.elim {α : Type} {f : α → α} {R : Machine → Machine → Prop} {x y : α × Machine}
    (h : RelatedBy f R x y) : ∃ a m n, x = (a, m) ∧ y = (f a, n) ∧ R m n := by
  obtain ⟨a, m⟩ := x
  obtain ⟨b, n⟩ := y
  obtain ⟨rfl, hR⟩ := h
  exact ⟨a, m, n, rfl, rfl, hR⟩

/-- Two blocks as answers of an operator. -/
theorem RelatedBy.answer {σ : Loc → Loc} {R : Machine → Machine → Prop} {x y : Block × Machine}
    (h : RelatedBy (Block.relocate σ) R x y) :
    RelatedBy (Option.map (Block.relocate σ)) R (some x.1, x.2) (some y.1, y.2) :=
  ⟨congrArg some h.1, h.2⟩

/-- Related machines roll the same numbers. -/
structure Rolling (R : Machine → Machine → Prop) : Prop where
  roll : ∀ {m n}, R m n → Related R m.roll n.roll

/-- Related machines have named as many anonymous stacks. -/
structure Naming (R : Machine → Machine → Prop) : Prop where
  anonymous : ∀ {m n}, R m n → m.anonymous = n.anonymous
  nextAnonymous : ∀ {m n}, R m n → R m.nextAnonymous.2 n.nextAnonymous.2

/-- Two outcomes of an operator: related ones, or one stack that both run from their active
frames. -/
inductive ParallelAlong (σ : Loc → Loc) (R : Machine → Machine → Prop) (ins ins' : Inserter) :
    Option Block × Machine → Option Block × Machine → Prop where
  | stay {x y : Option Block × Machine} : RelatedBy (Option.map (Block.relocate σ)) R x y →
    ParallelAlong σ R ins ins' x y
  | enter (s : Stack) {m n : Machine} : R m n →
    ParallelAlong σ R ins ins' (none, ins s m) (none, ins' (s.relocate σ) n)

/-- Two machines that come from related ones by the same last move. -/
inductive JointAlong (σ : Loc → Loc) (R : Machine → Machine → Prop) (ins ins' : Inserter) :
    Machine → Machine → Prop where
  | stay {m n : Machine} : R m n → JointAlong σ R ins ins' m n
  | enter (s : Stack) {m n : Machine} : R m n →
    JointAlong σ R ins ins' (ins s m) (ins' (s.relocate σ) n)
  | bind (name : String) (b : Block) {m n : Machine} : R m n →
    JointAlong σ R ins ins' (m.assign name b false) (n.assign name (b.relocate σ) false)

/-- Two machines that come from related ones by the same last move, with all stacks in the same
places. -/
inductive Joint (R : Machine → Machine → Prop) (ins ins' : Inserter) : Machine → Machine → Prop
    where
  | stay {m n : Machine} : R m n → Joint R ins ins' m n
  | enter (s : Stack) {m n : Machine} : R m n → Joint R ins ins' (ins s m) (ins' s n)
  | bind (name : String) (b : Block) {m n : Machine} : R m n →
    Joint R ins ins' (m.assign name b false) (n.assign name b false)

/-- Operands fit tags wherever their stacks are. -/
theorem fits_relocate (σ : Loc → Loc) (tags : List Tag) (operands : List Block) :
    fits tags (operands.map (Block.relocate σ)) = fits tags operands := by
  simp only [fits, List.length_map, List.zip_map_right, List.all_map]
  congr 2
  funext p
  simp

theorem elementAt?_relocate (σ : Loc → Loc) (blocks : List Block) (i : Float) :
    elementAt? (blocks.map (Block.relocate σ)) i =
      (elementAt? blocks i).map (Block.relocate σ) := by
  simp only [elementAt?, List.length_map, List.getElem?_map]
  split <;> rfl

theorem dropBefore_relocate (σ : Loc → Loc) (i : Float) (blocks : List Block) :
    (dropBefore i blocks).map (Block.relocate σ) =
      dropBefore i (blocks.map (Block.relocate σ)) := by
  simp only [dropBefore]
  split
  · rw [List.eraseIdx_map]
  · rfl

/-- Rolled numbers refer to no stack. -/
theorem relocate_roll (σ : Loc → Loc) (m : Machine) : m.roll.1.relocate σ = m.roll.1 := by
  rw [roll]
  split <;> rfl

namespace CongruentAlong

variable {σ : Loc → Loc} {R : Machine → Machine → Prop} {m n : Machine} {ins ins' : Inserter}

/-! ## What is read -/

theorem resolve (hR : CongruentAlong σ R) (h : R m n) (b : Block) :
    n.resolve (b.relocate σ) = (m.resolve b).relocate σ := by
  rw [Machine.resolve, Machine.resolve, hR.workspace h, (hR.heap h).resolve]

theorem dataLoc? (hR : CongruentAlong σ R) (h : R m n) (b : Block) :
    n.dataLoc? (b.relocate σ) = (m.dataLoc? b).map σ := by
  rw [Machine.dataLoc?, Machine.dataLoc?, hR.resolve h, Block.stack?_relocate]

theorem callOf? (hR : CongruentAlong σ R) (h : R m n) (b : Block) :
    n.callOf? (b.relocate σ) = (m.callOf? b).map (Block.relocate σ) := by
  simp only [Machine.callOf?, hR.dataLoc? h]
  cases m.dataLoc? b with
  | none => rfl
  | some loc =>
    simp only [Option.map_some, Option.bind_eq_bind, Option.bind_some, (hR.heap h).nameOf]
    rfl

/-! ## The value stack -/

theorem popped (hR : CongruentAlong σ R) (h : R m n) (c : Option Block) :
    RelatedBy (Option.map (Block.relocate σ)) R (m.pop c) (n.pop (c.map (Block.relocate σ))) := by
  refine ⟨?_, hR.pop c h⟩
  have hv := hR.values h
  simp only [Machine.pop]
  rw [hv]
  cases m.values with
  | nil => rfl
  | cons b rest => rfl

theorem pushAll (hR : CongruentAlong σ R) (bs : List Block) :
    ∀ {m n : Machine}, R m n → R (m.pushAll bs) (n.pushAll (bs.map (Block.relocate σ))) := by
  induction bs with
  | nil =>
    intro m n h
    exact h
  | cons b bs ih =>
    intro m n h
    exact ih (hR.push b h)

theorem drop (hR : CongruentAlong σ R) (k : Nat) :
    ∀ {m n : Machine}, R m n → R (m.drop k) (n.drop k) := by
  induction k with
  | zero =>
    intro m n h
    exact h
  | succ k ih =>
    intro m n h
    exact ih (hR.pop none h)

theorem popInputs (hR : CongruentAlong σ R) (names : List String) :
    ∀ {m n : Machine}, R m n → RelatedBy (List.map (Prod.map id (Block.relocate σ))) R
      (Machine.popInputs names m) (Machine.popInputs names n) := by
  induction names with
  | nil =>
    intro m n h
    exact ⟨rfl, h⟩
  | cons name names ih =>
    intro m n h
    obtain ⟨b, m', n', hm, hn, h'⟩ := (hR.popped h none).elim
    rw [Option.map_none] at hn
    simp only [Machine.popInputs]
    rw [hm, hn]
    cases b with
    | none => exact ih h'
    | some b =>
      obtain ⟨bound, m'', n'', hm', hn', h''⟩ := (ih h').elim
      simp only [Option.map_some, hm', hn']
      exact ⟨rfl, h''⟩

theorem popOperands (hR : CongruentAlong σ R) (this : Block) (k : Nat) :
    ∀ {m n : Machine}, R m n → RelatedBy (List.map (Block.relocate σ)) R (m.popOperands this k)
      (n.popOperands (this.relocate σ) k) := by
  induction k with
  | zero =>
    intro m n h
    exact ⟨rfl, h⟩
  | succ k ih =>
    intro m n h
    obtain ⟨b, m', n', hm, hn, h'⟩ := (hR.popped h (some this)).elim
    rw [Option.map_some] at hn
    simp only [Machine.popOperands]
    rw [hm, hn]
    cases b with
    | none => exact ⟨rfl, h'⟩
    | some b =>
      obtain ⟨bs, m'', n'', hm', hn', h''⟩ := (ih h').elim
      simp only [Option.map_some, hm', hn']
      exact ⟨by simp, h''⟩

theorem takeOperands (hR : CongruentAlong σ R) (h : R m n) (env : Environment) (this : Block)
    (name : String) (tags : List Tag) :
    RelatedBy (Option.map (List.map (Block.relocate σ))) R (m.takeOperands env this name tags)
      (n.takeOperands env (this.relocate σ) name tags) := by
  obtain ⟨bs, m', n', hm, hn, h'⟩ := (hR.popOperands this tags.length h).elim
  simp only [Machine.takeOperands, hm, hn, fits_relocate]
  split
  · exact ⟨rfl, h'⟩
  · exact ⟨rfl, hR.push _ h'⟩

theorem takeOverloaded (hR : CongruentAlong σ R) (h : R m n) (env : Environment) (this : Block)
    (name : String) (combinations : List (List Tag)) :
    RelatedBy (Option.map (Prod.map (List.map (Block.relocate σ)) id)) R
      (m.takeOverloaded env this name combinations)
      (n.takeOverloaded env (this.relocate σ) name combinations) := by
  obtain ⟨bs, m', n', hm, hn, h'⟩ :=
    (hR.popOperands this ((combinations.head?.map List.length).getD 0) h).elim
  simp only [Machine.takeOverloaded, hm, hn, fits_relocate]
  split
  · exact ⟨rfl, h'⟩
  · exact ⟨rfl, hR.push _ h'⟩

theorem takeFor (hR : CongruentAlong σ R) (h : R m n) (env : Environment) (this : Block)
    (op : Operator) :
    RelatedBy (Option.map (Prod.map (List.map (Block.relocate σ)) id)) R (m.takeFor env this op)
      (n.takeFor env (this.relocate σ) op) := by
  unfold Machine.takeFor
  split
  · rename_i tags _
    obtain ⟨bs, m', n', hm, hn, h'⟩ := (hR.takeOperands h env this op.name tags).elim
    simp only [hm, hn]
    refine ⟨?_, h'⟩
    cases bs <;> rfl
  · exact hR.takeOverloaded h env this op.name _
  · exact ⟨rfl, h⟩

theorem respread (hR : CongruentAlong σ R) (h : R m n) (this : Block) (copies : Nat)
    (whenEmpty : String) :
    R (m.respread this copies whenEmpty) (n.respread (this.relocate σ) copies whenEmpty) := by
  obtain ⟨b, m', n', hm, hn, h'⟩ := (hR.popped h (some this)).elim
  rw [Option.map_some] at hn
  unfold Machine.respread
  rw [hm, hn]
  cases b with
  | none => exact hR.push _ h'
  | some b =>
    have hall := hR.pushAll (List.replicate copies b) h'
    rwa [List.map_replicate] at hall

/-! ## The heap -/

theorem newData (hR : CongruentAlong σ R) (h : R m n) (name : String) (blocks : List Block) :
    RelatedBy (Block.relocate σ) R (m.newData name blocks)
      (n.newData name (blocks.map (Block.relocate σ))) :=
  ⟨congrArg Block.ofStack ((hR.heap h).alloc (Stack.make name blocks)).1, hR.alloc _ h⟩

theorem newNull (hR : CongruentAlong σ R) (h : R m n) :
    RelatedBy (Block.relocate σ) R m.newNull n.newNull :=
  ⟨congrArg Block.null ((hR.heap h).alloc (Stack.make "null" [])).1, hR.alloc _ h⟩

theorem nextName (hR : CongruentAlong σ R) (hN : Naming R) (h : R m n) (loc : Loc) :
    RelatedBy id R (m.nextName loc) (n.nextName (σ loc)) := by
  have ha := hN.nextAnonymous h
  unfold Machine.nextName
  rw [(hR.heap h).get, show versionBase ((m.heap.get loc).relocate σ) =
    versionBase (m.heap.get loc) from rfl]
  simp only [Machine.nextAnonymous] at ha ⊢
  split
  · refine ⟨?_, ha⟩
    simp only [hN.anonymous h, id]
  · exact ⟨rfl, h⟩

theorem newVersion (hR : CongruentAlong σ R) (hN : Naming R) (h : R m n) (loc : Loc)
    {edit edit' : List Block → List Block}
    (hedit : ∀ bs, (edit bs).map (Block.relocate σ) = edit' (bs.map (Block.relocate σ))) :
    RelatedBy (Block.relocate σ) R (m.newVersion loc edit) (n.newVersion (σ loc) edit') := by
  obtain ⟨name, m', n', hm, hn, h'⟩ := (hR.nextName hN h loc).elim
  unfold Machine.newVersion
  simp only [hm, hn, id, (hR.heap h').blocks, ← hedit]
  exact hR.newData h' _ _

/-! ## Data -/

theorem readAll (hR : CongruentAlong σ R) (h : R m n) (array : Block) :
    R (m.readAll array) (n.readAll (array.relocate σ)) := by
  unfold Machine.readAll
  rw [hR.dataLoc? h]
  cases m.dataLoc? array with
  | none => exact h
  | some loc =>
    simp only [Option.map_some, (hR.heap h).blocks]
    exact hR.pushAll _ h

theorem count (hR : CongruentAlong σ R) (h : R m n) (array : Block) :
    n.count (array.relocate σ) = (m.count array).map (Block.relocate σ) := by
  unfold Machine.count
  rw [hR.dataLoc? h]
  cases m.dataLoc? array with
  | none => rfl
  | some loc =>
    simp only [Option.map_some, (hR.heap h).blocks, List.length_map]
    rfl

theorem elementByIndex (hR : CongruentAlong σ R) (h : R m n) (l : Localizer) (array i : Block) :
    n.elementByIndex l (array.relocate σ) (i.relocate σ) =
      (m.elementByIndex l array i).map (Block.relocate σ) := by
  unfold Machine.elementByIndex
  rw [hR.dataLoc? h, Block.float?_relocate]
  cases m.dataLoc? array with
  | none => rfl
  | some loc =>
    cases i.float? with
    | none => rfl
    | some x =>
      simp only [Option.map_some, Option.bind_eq_bind, Option.bind_some, (hR.heap h).blocks,
        List.length_map, List.getElem?_map]
      split <;> rfl

theorem elementByKey (hR : CongruentAlong σ R) (h : R m n) (l : Localizer) (array key : Block) :
    n.elementByKey l (array.relocate σ) (key.relocate σ) =
      (m.elementByKey l array key).map (Block.relocate σ) := by
  unfold Machine.elementByKey
  rw [hR.dataLoc? h, Block.string?_relocate]
  cases m.dataLoc? array with
  | none => rfl
  | some loc =>
    cases key.string? with
    | none => rfl
    | some key =>
      -- the member that is found, and its value
      have hfound : ((m.heap.blocks loc).map (Block.relocate σ)).findSome? (fun b =>
            (n.dataLoc? b).filter fun member => n.heap.nameOf member == key) =
          ((m.heap.blocks loc).findSome? fun b =>
            (m.dataLoc? b).filter fun member => m.heap.nameOf member == key).map σ := by
        rw [List.findSome?_map, List.map_findSome?]
        congr 1
        funext b
        simp only [Function.comp, hR.dataLoc? h]
        cases m.dataLoc? b with
        | none => rfl
        | some member =>
          simp only [Option.map_some, Option.filter_some, (hR.heap h).nameOf]
          split <;> rfl
      simp only [Option.map_some, Option.bind_eq_bind, Option.bind_some, (hR.heap h).blocks, hfound]
      cases (m.heap.blocks loc).findSome? fun b =>
          (m.dataLoc? b).filter fun member => m.heap.nameOf member == key with
      | none =>
        simp only [Option.map_none, Option.bind_none, (hR.heap h).nameOf]
        rfl
      | some member =>
        simp only [Option.map_some, Option.bind_some, (hR.heap h).blocks, (hR.heap h).nameOf]
        cases m.heap.blocks member <;> rfl

theorem memberIndex? (hR : CongruentAlong σ R) (h : R m n) (blocks : List Block) (key : String) :
    Machine.memberIndex? n.heap (blocks.map (Block.relocate σ)) key =
      Machine.memberIndex? m.heap blocks key := by
  simp only [Machine.memberIndex?, List.findIdx?_map]
  congr 1
  funext b
  simp only [Function.comp, Block.stack?_relocate]
  cases b.stack? with
  | none => rfl
  | some loc => simp [(hR.heap h).nameOf]

theorem editAt (hR : CongruentAlong σ R) (hN : Naming R) (h : R m n) (l : Localizer)
    (mark : String) {edit edit' : Nat → List Block → List Block}
    (hedit : ∀ k bs, (edit k bs).map (Block.relocate σ) = edit' k (bs.map (Block.relocate σ)))
    (array i : Block) :
    RelatedBy (Option.map (Block.relocate σ)) R (m.editAt l mark edit array i)
      (n.editAt l mark edit' (array.relocate σ) (i.relocate σ)) := by
  unfold Machine.editAt
  rw [hR.dataLoc? h, Block.float?_relocate]
  cases m.dataLoc? array with
  | none => exact ⟨rfl, h⟩
  | some loc =>
    cases i.float? with
    | none => exact ⟨rfl, h⟩
    | some x =>
      simp only [Option.map_some, (hR.heap h).blocks, List.length_map]
      split
      · exact (hR.newVersion hN h loc (hedit _)).answer
      · exact ⟨rfl, h⟩

theorem setMember (hR : CongruentAlong σ R) (hN : Naming R) (h : R m n)
    (array value key : Block) :
    RelatedBy (Option.map (Block.relocate σ)) R (m.setMember array value key)
      (n.setMember (array.relocate σ) (value.relocate σ) (key.relocate σ)) := by
  unfold Machine.setMember
  rw [hR.dataLoc? h, Block.string?_relocate]
  cases m.dataLoc? array with
  | none => exact ⟨rfl, h⟩
  | some loc =>
    cases key.string? with
    | none => exact ⟨rfl, h⟩
    | some key =>
      obtain ⟨b, m', n', hm, hn, h'⟩ := (hR.newData h key [value]).elim
      rw [List.map_cons, List.map_nil] at hn
      simp only [Option.map_some, hm, hn, (hR.heap h').blocks, hR.memberIndex? h']
      refine (hR.newVersion hN h' loc ?_).answer
      intro bs
      cases Machine.memberIndex? m'.heap (m'.heap.blocks loc) key <;> simp

theorem insertAt (hR : CongruentAlong σ R) (hN : Naming R) (h : R m n) (l : Localizer)
    (array value i : Block) :
    RelatedBy (Option.map (Block.relocate σ)) R (m.insertAt l array value i)
      (n.insertAt l (array.relocate σ) (value.relocate σ) (i.relocate σ)) := by
  refine hR.editAt hN h l "." ?_ array i
  intro k bs
  exact List.map_insertIdx _ bs k value

theorem replaceAt (hR : CongruentAlong σ R) (hN : Naming R) (h : R m n) (l : Localizer)
    (array value i : Block) :
    RelatedBy (Option.map (Block.relocate σ)) R (m.replaceAt l array value i)
      (n.replaceAt l (array.relocate σ) (value.relocate σ) (i.relocate σ)) := by
  refine hR.editAt hN h l "." ?_ array i
  intro k bs
  simp only [List.length_map]
  split <;> simp

theorem deleteAt (hR : CongruentAlong σ R) (hN : Naming R) (h : R m n) (l : Localizer)
    (array i : Block) :
    RelatedBy (Option.map (Block.relocate σ)) R (m.deleteAt l array i)
      (n.deleteAt l (array.relocate σ) (i.relocate σ)) :=
  hR.editAt hN h l "" (fun _ _ => (List.eraseIdx_map ..).symm) array i

theorem deleteMember (hR : CongruentAlong σ R) (hN : Naming R) (h : R m n) (l : Localizer)
    (array key : Block) :
    RelatedBy (Option.map (Block.relocate σ)) R (m.deleteMember l array key)
      (n.deleteMember l (array.relocate σ) (key.relocate σ)) := by
  unfold Machine.deleteMember
  rw [hR.dataLoc? h, Block.string?_relocate]
  cases m.dataLoc? array with
  | none => exact ⟨rfl, h⟩
  | some loc =>
    cases key.string? with
    | none => exact ⟨rfl, h⟩
    | some key =>
      simp only [Option.map_some, (hR.heap h).blocks, hR.memberIndex? h, (hR.heap h).shown]
      cases Machine.memberIndex? m.heap (m.heap.blocks loc) key with
      | none => exact ⟨rfl, h⟩
      | some i => exact (hR.newVersion hN h loc fun _ => (List.eraseIdx_map ..).symm).answer

theorem appendTo (hR : CongruentAlong σ R) (hN : Naming R) (h : R m n) (array value : Block) :
    RelatedBy (Option.map (Block.relocate σ)) R (m.appendTo array value)
      (n.appendTo (array.relocate σ) (value.relocate σ)) := by
  unfold Machine.appendTo
  rw [hR.dataLoc? h]
  cases m.dataLoc? array with
  | none => exact ⟨rfl, h⟩
  | some loc =>
    simp only [Option.map_some]
    refine (hR.newVersion hN h loc ?_).answer
    intro bs
    simp

theorem gather (hR : CongruentAlong σ R) (this : Block) (count : Float) (fuel : Nat) :
    ∀ {m n : Machine} (found : Float) (blocks : List Block), R m n →
      RelatedBy (Except.map (List.map (Block.relocate σ))) R
        (Machine.gather this count fuel found blocks m)
        (Machine.gather (this.relocate σ) count fuel found (blocks.map (Block.relocate σ)) n) := by
  induction fuel with
  | zero =>
    intro m n found blocks h
    exact ⟨rfl, h⟩
  | succ fuel ih =>
    intro m n found blocks h
    unfold Machine.gather
    split
    · obtain ⟨b, m', n', hm, hn, h'⟩ := (hR.popped h (some this)).elim
      rw [Option.map_some] at hn
      rw [hm, hn]
      cases b with
      | none => exact ⟨rfl, h'⟩
      | some b => exact ih _ (b :: blocks) h'
    · exact ⟨rfl, h⟩

theorem write (hR : CongruentAlong σ R) (hN : Naming R) (h : R m n) (l : Localizer)
    (this : Block) :
    RelatedBy (Option.map (Block.relocate σ)) R (m.write l this) (n.write l (this.relocate σ)) := by
  obtain ⟨top, m', n', hm, hn, h'⟩ := (hR.popped h (some this)).elim
  rw [Option.map_some] at hn
  have htop : (top.map (Block.relocate σ)).bind Block.float? = top.bind Block.float? := by
    cases top <;> simp
  unfold Machine.write
  simp only [hm, hn, htop]
  cases top.bind Block.float? with
  | none => exact ⟨rfl, h'⟩
  | some x =>
    have ha := hN.nextAnonymous h'
    have hi : m'.nextAnonymous.1 = n'.nextAnonymous.1 := by
      simp only [Machine.nextAnonymous, hN.anonymous h']
    obtain ⟨i, m'', n'', hm', hn', h''⟩ := Related.elim ⟨hi, ha⟩
    simp only [hm', hn', hR.values h'', List.length_map]
    obtain ⟨found, m₃, n₃, hm₃, hn₃, h₃⟩ :=
      (hR.gather this (Decimal.floor x) (m''.values.length + 1) 0 [] h'').elim
    rw [List.map_nil] at hn₃
    rw [hm₃, hn₃]
    cases found with
    | error found => exact ⟨rfl, h₃⟩
    | ok blocks => exact (hR.newData h₃ _ blocks).answer

/-! ## Memory -/

theorem variableOf (hR : CongruentAlong σ R) (h : R m n) (l : Localizer) (id name : String) :
    n.variableOf l id name = (m.variableOf l id name).relocate σ := by
  rw [Machine.variableOf, Machine.variableOf, hR.memory h, Memory.variableOf_relocate]

theorem stored (hR : CongruentAlong σ R) (h : R m n) (l : Localizer) (id name : String)
    (b : Block) :
    RelatedBy (Option.map (Block.relocate σ)) R (m.store l id name b)
      (n.store l id name (b.relocate σ)) := by
  have hset := (hR.heap h).setVariable σ m.world.memory id name b
  rw [← hR.memory h] at hset
  unfold Machine.store
  cases hmem : m.world.memory.setVariable m.heap id name (some b) with
  | error e =>
    rw [hmem] at hset
    have hm : m.setVariable id name (some b) = .error e := by rw [Machine.setVariable, hmem]
    have hn : n.setVariable id name (some (b.relocate σ)) = .error e := by
      rw [Machine.setVariable, hset]
      rfl
    rw [hm, hn]
    exact ⟨rfl, h⟩
  | ok written =>
    rw [hmem] at hset
    obtain ⟨m', hm⟩ : ∃ m', m.setVariable id name (some b) = .ok m' := by
      rw [Machine.setVariable, hmem]
      exact ⟨_, rfl⟩
    obtain ⟨n', hn⟩ : ∃ n', n.setVariable id name (some (b.relocate σ)) = .ok n' := by
      rw [Machine.setVariable, hset]
      exact ⟨_, rfl⟩
    rw [hm, hn]
    exact ⟨rfl, hR.setVariable h hm hn⟩

theorem getSymbol (hR : CongruentAlong σ R) (h : R m n) (env : Environment) (this : Block)
    (name : String) : R (m.getSymbol env this name) (n.getSymbol env (this.relocate σ) name) := by
  obtain ⟨bs, m', n', hm, hn, h'⟩ :=
    (hR.takeOperands h env this "GetSymbolOperator" [.memory]).elim
  unfold Machine.getSymbol
  rw [hm, hn]
  match bs with
  | none | some [] => exact h'
  | some (object :: rest) =>
    cases object with
    | memory id =>
      cases rest with
      | nil =>
        simp only [Option.map_some, List.map_cons, List.map_nil, Block.relocate, hR.variableOf h']
        exact hR.push _ h'
      | cons b rest => exact h'
    | _ => exact h'

theorem setSymbol (hR : CongruentAlong σ R) (h : R m n) (env : Environment) (this : Block)
    (name : String) : R (m.setSymbol env this name) (n.setSymbol env (this.relocate σ) name) := by
  obtain ⟨bs, m', n', hm, hn, h'⟩ :=
    (hR.takeOperands h env this "SetSymbolOperator" [.block, .memory]).elim
  unfold Machine.setSymbol
  rw [hm, hn]
  match bs with
  | none | some [] | some [_] => exact h'
  | some (b :: object :: rest) =>
    cases object with
    | memory id =>
      cases rest with
      | nil =>
        obtain ⟨c, m'', n'', hm', hn', h''⟩ := (hR.stored h' env.localizer id name b).elim
        simp only [Option.map_some, List.map_cons, List.map_nil, Block.relocate_memory, hm', hn']
        cases c with
        | none => exact h''
        | some c => exact hR.push c h''
      | cons c rest => exact h'
    | _ => exact h'

/-! ## Control -/

theorem runHelper (h : R m n) (name : String) (blocks : List Block) :
    ParallelAlong σ R ins ins' (none, m.runHelper ins name blocks)
      (none, n.runHelper ins' name (blocks.map (Block.relocate σ))) :=
  .enter (Stack.make name blocks) h

theorem execute (hR : CongruentAlong σ R) (h : R m n) (f : Block) :
    ParallelAlong σ R ins ins' (none, m.execute ins f) (none, n.execute ins' (f.relocate σ)) := by
  unfold Machine.execute
  rw [hR.dataLoc? h]
  cases m.dataLoc? f with
  | none => exact .stay ⟨rfl, h⟩
  | some loc =>
    simp only [Option.map_some, (hR.heap h).get]
    exact .enter _ h

theorem mapArray (hR : CongruentAlong σ R) (h : R m n) (array f : Block) :
    ParallelAlong σ R ins ins' (none, m.mapArray ins array f)
      (none, n.mapArray ins' (array.relocate σ) (f.relocate σ)) := by
  obtain ⟨b, m', n', hm, hn, h'⟩ := (hR.newData h "append" [.operator .append]).elim
  obtain ⟨c, m'', n'', hm', hn', h''⟩ := (hR.newNull h').elim
  simp only [List.map_cons, List.map_nil, Block.relocate] at hn
  unfold Machine.mapArray
  simp only [hm, hn, hm', hn', hR.resolve h]
  exact runHelper h'' "map" _

theorem round (hR : CongruentAlong σ R) (h : R m n) (name : String) (helper : Operator)
    (element array f : Block) (next : Float) :
    ParallelAlong σ R ins ins' (none, m.round ins name helper element array f next)
      (none, n.round ins' name helper (element.relocate σ) (array.relocate σ) (f.relocate σ)
        next) := by
  unfold Machine.round
  rw [hR.callOf? h]
  simp only [hR.resolve h]
  cases m.callOf? f with
  | none => exact .stay ⟨rfl, h⟩
  | some call => exact runHelper h name _

theorem foldArray (hR : CongruentAlong σ R) (h : R m n) (array f : Block) :
    ParallelAlong σ R ins ins' (none, m.foldArray ins array f)
      (none, n.foldArray ins' (array.relocate σ) (f.relocate σ)) := by
  unfold Machine.foldArray
  rw [hR.dataLoc? h]
  cases m.dataLoc? array with
  | none => exact .stay ⟨rfl, h⟩
  | some loc =>
    simp only [Option.map_some, Option.bind_some, (hR.heap h).blocks, List.head?_map]
    cases (m.heap.blocks loc).head? with
    | none => exact .stay ⟨rfl, h⟩
    | some first => exact hR.round h _ _ _ _ _ _

theorem foldFrom (hR : CongruentAlong σ R) (h : R m n) (array f i : Block) :
    ParallelAlong σ R ins ins' (none, m.foldFrom ins array f i)
      (none, n.foldFrom ins' (array.relocate σ) (f.relocate σ) (i.relocate σ)) := by
  unfold Machine.foldFrom
  rw [hR.dataLoc? h, Block.float?_relocate]
  cases i.float? with
  | none => exact .stay ⟨rfl, h⟩
  | some x =>
    cases m.dataLoc? array with
    | none => exact .stay ⟨rfl, h⟩
    | some loc =>
      simp only [Option.map_some, Option.bind_eq_bind, Option.bind_some, (hR.heap h).blocks,
        elementAt?_relocate]
      cases elementAt? (m.heap.blocks loc) x with
      | none => exact .stay ⟨rfl, h⟩
      | some element => exact hR.round h _ _ _ _ _ _

theorem maybe (hR : CongruentAlong σ R) (h : R m n) (value condition f : Block) :
    ParallelAlong σ R ins ins' (none, m.maybe ins value condition f)
      (none, n.maybe ins' (value.relocate σ) (condition.relocate σ) (f.relocate σ)) := by
  unfold Machine.maybe
  rw [hR.callOf? h, hR.callOf? h]
  cases m.callOf? condition with
  | none => exact .stay ⟨rfl, h⟩
  | some test =>
    cases m.callOf? f with
    | none => exact .stay ⟨rfl, h⟩
    | some call =>
      obtain ⟨b, m', n', hm, hn, h'⟩ := (hR.newData h "do-op" [value, call]).elim
      obtain ⟨c, m'', n'', hm', hn', h''⟩ := (hR.newNull h').elim
      simp only [List.map_cons, List.map_nil] at hn
      simp only [Option.map_some, hm, hn, hm', hn']
      exact runHelper h'' "maybe" _

theorem filterArray (hR : CongruentAlong σ R) (h : R m n) (array f : Block) :
    ParallelAlong σ R ins ins' (m.filterArray ins array f)
      (n.filterArray ins' (array.relocate σ) (f.relocate σ)) := by
  unfold Machine.filterArray
  rw [hR.dataLoc? h, hR.resolve h]
  cases m.dataLoc? array with
  | none => exact .stay ⟨rfl, h⟩
  | some loc =>
    simp only [Option.map_some, (hR.heap h).blocks, List.head?_map]
    cases (m.heap.blocks loc).head? with
    | none => exact .stay ⟨rfl, h⟩
    | some first => exact hR.round h _ _ _ _ _ _

/-- The test of the next element, or the array if there is none. -/
theorem filterNext (hR : CongruentAlong σ R) (h : R m n) (array f : Block) (i : Float) :
    ParallelAlong σ R ins ins'
      (match (array.stack?).bind fun loc => elementAt? (m.heap.blocks loc) i with
        | some element => (none, m.round ins "filter`" .filterHelper element array f (i + 1))
        | none => (some array, m))
      (match ((array.relocate σ).stack?).bind fun loc => elementAt? (n.heap.blocks loc) i with
        | some element =>
          (none, n.round ins' "filter`" .filterHelper element (array.relocate σ) (f.relocate σ)
            (i + 1))
        | none => (some (array.relocate σ), n)) := by
  rw [Block.stack?_relocate]
  cases array.stack? with
  | none => exact .stay ⟨rfl, h⟩
  | some loc =>
    simp only [Option.map_some, Option.bind_some, (hR.heap h).blocks, elementAt?_relocate]
    cases elementAt? (m.heap.blocks loc) i with
    | none => exact .stay ⟨rfl, h⟩
    | some element => exact hR.round h _ _ _ _ _ _

theorem filterFrom (hR : CongruentAlong σ R) (hN : Naming R) (h : R m n)
    (keep array f i : Block) :
    ParallelAlong σ R ins ins' (m.filterFrom ins keep array f i)
      (n.filterFrom ins' (keep.relocate σ) (array.relocate σ) (f.relocate σ) (i.relocate σ)) := by
  unfold Machine.filterFrom
  rw [hR.dataLoc? h, hR.resolve h, Block.boolean?_relocate, Block.float?_relocate]
  cases keep.boolean? with
  | none => exact .stay ⟨rfl, h⟩
  | some keep =>
    cases m.dataLoc? array with
    | none => exact .stay ⟨rfl, h⟩
    | some loc =>
      cases i.float? with
      | none => exact .stay ⟨rfl, h⟩
      | some x =>
        cases keep with
        | true =>
          simp only [Option.map_some, if_true]
          exact hR.filterNext h (m.resolve array) f x
        | false =>
          obtain ⟨b, m', n', hm, hn, h'⟩ :=
            (hR.newVersion hN h loc (dropBefore_relocate σ x)).elim
          simp only [Option.map_some, Bool.false_eq_true, if_false, hm, hn]
          exact hR.filterNext h' b f (x - 1)

theorem repeatTimes (hR : CongruentAlong σ R) (h : R m n) (f k : Block) :
    ParallelAlong σ R ins ins' (none, m.repeatTimes ins f k)
      (none, n.repeatTimes ins' (f.relocate σ) (k.relocate σ)) := by
  unfold Machine.repeatTimes
  rw [hR.callOf? h, Block.float?_relocate]
  simp only [hR.resolve h]
  cases k.float? with
  | none => exact .stay ⟨rfl, h⟩
  | some x =>
    cases m.callOf? f with
    | none => exact .stay ⟨rfl, h⟩
    | some call =>
      simp only [Option.map_some]
      split
      · exact .stay ⟨rfl, h⟩
      · exact runHelper h "repeat" _

theorem iterate (hR : CongruentAlong σ R) (h : R m n) (f i k : Block) :
    ParallelAlong σ R ins ins' (none, m.iterate ins f i k)
      (none, n.iterate ins' (f.relocate σ) (i.relocate σ) (k.relocate σ)) := by
  unfold Machine.iterate
  rw [hR.callOf? h, Block.float?_relocate, Block.float?_relocate]
  simp only [hR.resolve h]
  cases i.float? with
  | none => exact .stay ⟨rfl, h⟩
  | some x =>
    cases k.float? with
    | none => exact .stay ⟨rfl, h⟩
    | some y =>
      cases m.callOf? f with
      | none => exact .stay ⟨rfl, h⟩
      | some call =>
        simp only [Option.map_some]
        split
        · exact .stay ⟨rfl, h⟩
        · exact runHelper h "iter" _

/-! ## Operators and blocks -/

/-- An operator that needs no nested machine acts alike on related machines. On too many or too few
operands it does nothing. -/
theorem operate (hR : CongruentAlong σ R) (h : R m n) (d d' : Discipline) (env : Environment)
    (this : Block) (op : Operator) (overload : Nat) (operands : List Block)
    (hop : op.isCalculus = false) (hroll : op = .random → Rolling R)
    (hname : op.isNaming = true → Naming R) :
    ParallelAlong σ R d.insert d'.insert (m.operate d env this op overload operands)
      (n.operate d' env (this.relocate σ) op overload (operands.map (Block.relocate σ))) := by
  have hnone : ParallelAlong σ R d.insert d'.insert (none, m) (none, n) := .stay ⟨rfl, h⟩
  cases op with
  | random =>
    obtain ⟨hb, h'⟩ := (hroll rfl).roll h
    refine .stay ⟨congrArg some ?_, h'⟩
    exact hb.symm.trans (relocate_roll σ m).symm
  | execute =>
    match operands with
    | [f] => exact hR.execute h f
    | [] | _ :: _ :: _ => exact hnone
  | branch =>
    -- a branch runs one of its two stacks
    match operands with
    | [condition, yes, no] =>
      simp only [Machine.operate, List.map_cons, List.map_nil, Block.boolean?_relocate]
      rcases condition.boolean? with _ | ⟨_ | _⟩
      · exact hnone
      · exact hR.execute h no
      · exact hR.execute h yes
    | [] | [_] | [_, _] | _ :: _ :: _ :: _ :: _ => exact hnone
  | map =>
    match operands with
    | [array, f] => exact hR.mapArray h array f
    | [] | [_] | _ :: _ :: _ :: _ => exact hnone
  | fold =>
    match operands with
    | [array, f] => exact hR.foldArray h array f
    | [] | [_] | _ :: _ :: _ :: _ => exact hnone
  | foldHelper =>
    match operands with
    | [array, f, i] => exact hR.foldFrom h array f i
    | [] | [_] | [_, _] | _ :: _ :: _ :: _ :: _ => exact hnone
  | maybe =>
    match operands with
    | [value, condition, f] => exact hR.maybe h value condition f
    | [] | [_] | [_, _] | _ :: _ :: _ :: _ :: _ => exact hnone
  | filter =>
    match operands with
    | [array, f] => exact hR.filterArray h array f
    | [] | [_] | _ :: _ :: _ :: _ => exact hnone
  | filterHelper =>
    match operands with
    | [keep, array, f, i] => exact hR.filterFrom (hname rfl) h keep array f i
    | [] | [_] | [_, _] | [_, _, _] | _ :: _ :: _ :: _ :: _ :: _ => exact hnone
  | compose =>
    match operands with
    | [f, k] => exact hR.repeatTimes h f k
    | [] | [_] | _ :: _ :: _ :: _ => exact hnone
  | iterate =>
    match operands with
    | [f, i, k] => exact hR.iterate h f i k
    | [] | [_] | [_, _] | _ :: _ :: _ :: _ :: _ => exact hnone
  | count =>
    match operands with
    | [array] => exact .stay ⟨hR.count h array, h⟩
    | [] | _ :: _ :: _ => exact hnone
  | read =>
    match operands with
    | [array] => exact .stay ⟨rfl, hR.readAll h array⟩
    | [] | _ :: _ :: _ => exact hnone
  | elem =>
    match operands with
    | [array, key] =>
      simp only [Machine.operate, List.map_cons, List.map_nil]
      split
      · exact .stay ⟨hR.elementByIndex h _ _ _, h⟩
      · exact .stay ⟨hR.elementByKey h _ _ _, h⟩
    | [] | [_] | _ :: _ :: _ :: _ => exact hnone
  | insert =>
    match operands with
    | [array, value, key] =>
      simp only [Machine.operate, List.map_cons, List.map_nil]
      split
      · exact .stay (hR.insertAt (hname rfl) h _ _ _ _)
      · exact .stay (hR.setMember (hname rfl) h _ _ _)
    | [] | [_] | [_, _] | _ :: _ :: _ :: _ :: _ => exact hnone
  | append =>
    match operands with
    | [array, value] => exact .stay (hR.appendTo (hname rfl) h array value)
    | [] | [_] | _ :: _ :: _ :: _ => exact hnone
  | replace =>
    match operands with
    | [array, value, key] =>
      simp only [Machine.operate, List.map_cons, List.map_nil]
      split
      · exact .stay (hR.replaceAt (hname rfl) h _ _ _ _)
      · exact .stay (hR.setMember (hname rfl) h _ _ _)
    | [] | [_] | [_, _] | _ :: _ :: _ :: _ :: _ => exact hnone
  | delete =>
    match operands with
    | [array, key] =>
      simp only [Machine.operate, List.map_cons, List.map_nil]
      split
      · exact .stay (hR.deleteAt (hname rfl) h _ _ _)
      · exact .stay (hR.deleteMember (hname rfl) h _ _ _)
    | [] | [_] | _ :: _ :: _ :: _ => exact hnone
  | write => exact .stay (hR.write (hname rfl) h _ _)
  | integral | derivative | sum | product | positiveLimit | negativeLimit | limit => cases hop
  | getMemory =>
    match operands with
    | [] => exact hnone
    | object :: rest =>
      cases object with
      | memory id =>
        match rest with
        | [] => exact hnone
        | reference :: rest =>
          cases reference with
          | memoryReference name =>
            cases rest with
            | nil => exact .stay ⟨congrArg some (hR.variableOf h _ id name), h⟩
            | cons _ _ => exact hnone
          | _ => exact hnone
      | _ => exact hnone
  | setMemory =>
    match operands with
    | [] => exact hnone
    | object :: rest =>
      cases object with
      | memory id =>
        match rest with
        | [] | [_] => exact hnone
        | value :: reference :: rest =>
          cases reference with
          | memoryReference name =>
            cases rest with
            | nil => exact .stay (hR.stored h _ id name value)
            | cons _ _ => exact hnone
          | _ => exact hnone
      | _ => exact hnone
  | _ =>
    -- all others are calculated from the operands and the heap
    exact .stay ⟨(hR.heap h).calculate _ _ operands, h⟩

/-- Evaluating an operator that needs no nested machine. -/
theorem evaluateOperator (hR : CongruentAlong σ R) (h : R m n) (d d' : Discipline)
    (env : Environment) (this : Block) (op : Operator) (hop : op.isCalculus = false)
    (hroll : op = .random → Rolling R) (hname : op.isNaming = true → Naming R) :
    JointAlong σ R d.insert d'.insert (m.evaluateOperator d env this op)
      (n.evaluateOperator d' env (this.relocate σ) op) := by
  obtain ⟨taken, m', n', hm, hn, h'⟩ := (hR.takeFor h env this op).elim
  unfold Machine.evaluateOperator
  rw [hm, hn]
  cases taken with
  | none => exact .stay h'
  | some taken =>
    obtain ⟨operands, overload⟩ := taken
    simp only [Option.map_some, Prod.map, id]
    have hp := hR.operate h' d d' env this op overload operands hop hroll hname
    generalize m'.operate d env this op overload operands = x at hp ⊢
    generalize n'.operate d' env (this.relocate σ) op overload (operands.map (Block.relocate σ)) =
      y at hp ⊢
    cases hp with
    | stay hr =>
      obtain ⟨b, m'', n'', rfl, rfl, h''⟩ := hr.elim
      cases b with
      | none => exact .stay h''
      | some b => exact .stay (hR.push b h'')
    | enter s h'' => exact .enter s h''

/-- A call of a stack that is not marked. -/
theorem call (hR : CongruentAlong σ R) (h : R m n) (d d' : Discipline) (env : Environment)
    (name : String) (target : Option Loc) (hp : m.isPlain (.code name target) = true) :
    JointAlong σ R d.insert d'.insert (m.call d env name target)
      (n.call d' env name (target.map σ)) := by
  have hres := hR.resolve h (.code name target)
  simp only [isPlain] at hp
  unfold Machine.call
  rw [show Block.code name (target.map σ) = (Block.code name target).relocate σ from rfl, hres]
  generalize m.resolve (.code name target) = b at hp ⊢
  cases b with
  | code name' found =>
    cases found with
    | none => exact .stay (hR.push _ h)
    | some loc =>
      have hmark : (m.heap.get loc).obfuscated = false := by simpa using hp
      have hmark' : ((m.heap.get loc).relocate σ).obfuscated = false := hmark
      simp only [Block.relocate, Option.map_some, (hR.heap h).get, hmark, hmark',
        Bool.false_eq_true, if_false]
      exact .enter (m.heap.get loc) h
  | _ => exact .stay (hR.push _ h)

/-- **One block on two machines.** Related machines that recall corresponding blocks evaluate a
plain block jointly. -/
theorem evaluate_joint (hR : CongruentAlong σ R) (h : R m n) (d d' : Discipline)
    (env : Environment) (hf : ∀ name, n.recalled env name = (m.recalled env name).relocate σ)
    (this : Block) (hp : m.isPlain this = true) (hroll : this.rolls = true → Rolling R)
    (hname : this.names = true → Naming R) :
    JointAlong σ R d.insert d'.insert (m.evaluate d env this)
      (n.evaluate d' env (this.relocate σ)) := by
  cases this with
  | operator op =>
    refine hR.evaluateOperator h d d' env _ op (by simpa [isPlain] using hp) ?_ hname
    rintro rfl
    exact hroll rfl
  | assign name =>
    obtain ⟨b, m', n', hm, hn, h'⟩ := (hR.popped h (some (.assign name))).elim
    simp only [Option.map_some, Block.relocate] at hn
    simp only [Machine.evaluate, Block.relocate]
    rw [hm, hn]
    cases b with
    | none => exact .stay (hR.push _ h')
    | some b => exact .bind _ b h'
  | fetch name =>
    have hv := hf name
    unfold recalled at hv
    simp only [Machine.evaluate, Block.relocate]
    rw [hv]
    exact .stay (hR.push _ h)
  | data loc resolved =>
    have hres := hR.resolve h (.data loc resolved)
    simp only [Block.relocate] at hres
    simp only [Machine.evaluate, Block.relocate]
    rw [hres]
    exact .stay (hR.push _ h)
  | code name target => exact hR.call h d d' env name target hp
  | getSymbol name => exact .stay (hR.getSymbol h env _ name)
  | setSymbol name => exact .stay (hR.setSymbol h env _ name)
  | extension ext => cases hp
  | _ => exact .stay (hR.push _ h)

end CongruentAlong

/-! ## Stacks in the same places -/

namespace Congruent

variable {R : Machine → Machine → Prop} {m n : Machine}

theorem heap (hR : Congruent R) (h : R m n) : m.heap = n.heap := by
  simp only [Machine.heap]
  rw [hR.store h]

/-- No stack stands elsewhere. -/
theorem along (hR : Congruent R) : CongruentAlong id R where
  values h := by simp [hR.values h]
  workspace h := by simp [hR.workspace h]
  heap h := by
    rw [hR.heap h]
    exact .refl _
  memory h := by simp [hR.memory h]
  push b h := by simpa using hR.push b h
  pop c h := by simpa using hR.pop c h
  alloc s h := by simpa using hR.alloc s h
  setVariable h hm hn := hR.setVariable h hm (by simpa using hn)

theorem resolve (hR : Congruent R) (h : R m n) (b : Block) : m.resolve b = n.resolve b := by
  simpa using (hR.along.resolve h b).symm

theorem pushAll (hR : Congruent R) (bs : List Block) (h : R m n) :
    R (m.pushAll bs) (n.pushAll bs) := by
  simpa using hR.along.pushAll bs h

theorem popInputs (hR : Congruent R) (h : R m n) (names : List String) :
    Related R (Machine.popInputs names m) (Machine.popInputs names n) := by
  have hpop := hR.along.popInputs names h
  simp only [Block.relocate_id, Prod.map_id, List.map_id_fun] at hpop
  exact ⟨hpop.1.symm, hpop.2⟩

theorem takeFor (hR : Congruent R) (h : R m n) (env : Environment) (this : Block)
    (op : Operator) : Related R (m.takeFor env this op) (n.takeFor env this op) := by
  have htake := hR.along.takeFor h env this op
  simp only [Block.relocate_id, List.map_id_fun, Prod.map_id, Option.map_id_fun, id] at htake
  exact ⟨htake.1.symm, htake.2⟩

theorem respread (hR : Congruent R) (h : R m n) (this : Block) (copies : Nat)
    (whenEmpty : String) :
    R (m.respread this copies whenEmpty) (n.respread this copies whenEmpty) := by
  simpa using hR.along.respread h this copies whenEmpty

/-- **One block on two machines.** Related machines that recall the same blocks evaluate a plain
block jointly. -/
theorem evaluate_joint (hR : Congruent R) (h : R m n) (d d' : Discipline) (env : Environment)
    (hf : ∀ name, m.recalled env name = n.recalled env name) (this : Block)
    (hp : m.isPlain this = true) (hroll : this.rolls = true → Rolling R)
    (hname : this.names = true → Naming R) :
    Joint R d.insert d'.insert (m.evaluate d env this) (n.evaluate d' env this) := by
  have hj := hR.along.evaluate_joint h d d' env (by simpa using fun name => (hf name).symm) this hp
    hroll hname
  simp only [Block.relocate_id, id] at hj
  generalize m.evaluate d env this = x at hj ⊢
  generalize n.evaluate d' env this = y at hj ⊢
  cases hj with
  | stay h => exact .stay h
  | enter s h => simpa using Joint.enter s h
  | bind name b h => simpa using Joint.bind name b h

end Congruent

end Machine

end BlockMachine
