import BlockMachine.Proofs.Decimal.Places
import BlockMachine.Proofs.Machine.KeyedEdits

/-!
# Arrays as lists

A number, rounded down, points to a place of an array; places are counted from one. The operators
that edit an array at a place answer with a new version, or with an error. Numbers are doubles, so
the arrays are those whose length and the place behind it are exact: up to `2 ^ 53`, which is more
elements than any memory holds.

* `Block.PointsTo`, `inRange_iff` — the places that numbers point to;
* `Machine.elements`, `Machine.Reads` — what an array holds: `reads_of_getElem?`,
  `answer_elem_error`;
* `IndexedEdit`, `answer_edit`, `answer_edit_error_iff` — the operators that edit at a place, all
  alike;
* `restores_write_read` — writing blocks to a stack and reading it again;
* `indexed_edits` — the laws of lists; `delete_fails_iff` — where deleting does not keep to them.
-/

namespace BlockMachine

namespace Block

variable {k : Block} {i j : Nat} {x : Float}

/-- A number that is at place `i` once it is rounded down. -/
def PointsTo (k : Block) (i : Nat) : Prop :=
  k.float?.map Decimal.floor = some (Float.ofNat i)

theorem pointsTo_iff (hx : k.float? = some x) :
    k.PointsTo i ↔ Decimal.floor x = Float.ofNat i := by
  rw [PointsTo, hx, Option.map_some, Option.some.injEq]

/-- A number points to one place at most. -/
theorem PointsTo.unique (hi : k.PointsTo i) (hj : k.PointsTo j) (hle : i ≤ 2 ^ 53)
    (hle' : j ≤ 2 ^ 53) : i = j :=
  Decimal.ofNat_injective hle hle' (Option.some.inj (hi.symm.trans hj))

/-- The place that a number points to. -/
theorem PointsTo.wholePart_floor (hi : k.PointsTo i) (hx : k.float? = some x) (hle : i ≤ 2 ^ 53) :
    Decimal.wholePart (Decimal.floor x) = i := by
  rw [(pointsTo_iff hx).1 hi, Decimal.wholePart_ofNat hle]

/-- A number that points neither to the first `n` places nor to the one behind them. -/
theorem not_pointsTo_succ {n : Nat} (hnone : ∀ i, 1 ≤ i → i ≤ n → ¬ k.PointsTo i)
    (hnot : ¬ k.PointsTo (n + 1)) : ∀ i, 1 ≤ i → i ≤ n + 1 → ¬ k.PointsTo i := by
  intro i hpos hle
  rcases Nat.lt_or_eq_of_le hle with hlt | rfl
  · exact hnone i hpos (Nat.le_of_lt_succ hlt)
  · exact hnot

end Block

/-- What is done to an array at a place. -/
inductive IndexedEdit where
  | insert (value : Block)
  | replace (value : Block)
  | delete

namespace IndexedEdit

def operator : IndexedEdit → Operator
  | .insert _ => .insert
  | .replace _ => .replace
  | .delete => .delete

/-- The value that is put at the place. -/
def value? : IndexedEdit → Option Block
  | .insert value => some value
  | .replace value => some value
  | .delete => none

/-- What the error for a place outside of the array ends with. -/
def mark : IndexedEdit → String
  | .insert _ => "."
  | .replace _ => "."
  | .delete => ""

/-- The elements afterwards. Places are counted from zero here. -/
def apply : IndexedEdit → Nat → List Block → List Block
  | .insert value, place, blocks => blocks.insertIdx place value
  | .replace value, place, blocks =>
    if place < blocks.length then blocks.set place value else blocks ++ [value]
  | .delete, place, blocks => blocks.eraseIdx place

/-- The operands: the array, the value if there is one, and the place. -/
def operands (e : IndexedEdit) (array k : Block) : List Block :=
  array :: (e.value?.toList ++ [k])

end IndexedEdit

namespace Machine

/-- The elements of an array. -/
def elements (m : Machine) (array : Block) : List Block :=
  ((m.dataLoc? array).map m.heap.blocks).getD []

/-- The operator `elem` answers `x` at place `j`, whichever number points there. -/
def Reads (d : Discipline) (env : Environment) (m : Machine) (array : Block) (j : Nat)
    (x : Block) : Prop :=
  ∀ k : Block, k.isA .number = true → k.PointsTo j → (m.answer d env .elem [array, k]).1 = some x

section Places

variable {m n : Machine} {d : Discipline} {env : Environment} {array k b : Block} {i j : Nat}
  {x : Float} {loc : Loc}

theorem elements_of_dataLoc? (hloc : m.dataLoc? array = some loc) :
    m.elements array = m.heap.blocks loc := by
  rw [elements, hloc]
  rfl

theorem elements_same (h : Same m n) (array : Block) : n.elements array = m.elements array := by
  have hheap : n.heap = m.heap := (alike_congruent.heap h).symm
  rw [elements, elements, hheap, dataLoc?, dataLoc?, ← alike_congruent.resolve h]

/-- **Range tests** ask for a place. -/
theorem inRange_iff (hx : k.float? = some x) {count : Nat} (hcount : count ≤ 2 ^ 53) :
    inRange (Decimal.floor x) count = true ↔ ∃ i, 1 ≤ i ∧ i ≤ count ∧ k.PointsTo i := by
  rw [inRange, Bool.and_eq_true, decide_eq_true_iff, decide_eq_true_iff,
    Decimal.floor_mem_iff hcount]
  simp only [Block.pointsTo_iff hx]

/-! ## Reading -/

theorem findIdx?_fits_indexed (harray : array.isA .data = true) (hk : k.isA .number = true) :
    ([[Tag.data, .number], [.data, .string]].findIdx? fun tags => fits tags [array, k]) =
      some 0 := by
  simp [List.findIdx?_cons, fits, harray, hk]

/-- An element is read at its place, by any number that points there. -/
theorem reads_of_getElem? (harray : array.isA .data = true) (hpos : 1 ≤ j)
    (hj : (m.elements array)[j - 1]? = some b) (hcount : (m.elements array).length ≤ 2 ^ 53)
    (d : Discipline) (env : Environment) : m.Reads d env array j b := by
  intro k hk hpoints
  obtain ⟨p, hp, hanswer⟩ :=
    answer_of_operate d env .elem m rfl rfl (findIdx?_fits_indexed harray hk)
  obtain ⟨loc, hloc⟩ := exists_dataLoc_of_isA harray p
  obtain ⟨x, hx⟩ := exists_float_of_isA hk
  rw [← elements_same hp, elements_of_dataLoc? hloc] at hj hcount
  have hle : j - 1 < (p.heap.blocks loc).length := (List.getElem?_eq_some_iff.1 hj).1
  have hrange : inRange (Decimal.floor x) (p.heap.blocks loc).length = true :=
    (inRange_iff hx hcount).2 ⟨j, hpos, by omega, hpoints⟩
  have helem : p.elementByIndex env.localizer array k = some b := by
    simp only [elementByIndex, hloc, hx, Option.bind_eq_bind, Option.bind_some]
    rw [if_pos hrange, hpoints.wholePart_floor hx (by omega), hj]
  obtain ⟨n, hn, -⟩ := hanswer (Prod.ext helem rfl)
  rw [hn]

/-- Where no place is, there is an error. -/
theorem answer_elem_error (harray : array.isA .data = true) (hk : k.isA .number = true)
    (hx : k.float? = some x) (hcount : (m.elements array).length ≤ 2 ^ 53)
    (hnone : ∀ i, 1 ≤ i → i ≤ (m.elements array).length → ¬ k.PointsTo i) (d : Discipline)
    (env : Environment) : (m.answer d env .elem [array, k]).1 =
      some (outOfRange env.localizer (Decimal.floor x) ".") := by
  obtain ⟨p, hp, hanswer⟩ :=
    answer_of_operate d env .elem m rfl rfl (findIdx?_fits_indexed harray hk)
  obtain ⟨loc, hloc⟩ := exists_dataLoc_of_isA harray p
  rw [← elements_same hp, elements_of_dataLoc? hloc] at hnone hcount
  have hrange : ¬ inRange (Decimal.floor x) (p.heap.blocks loc).length = true := by
    rw [inRange_iff hx hcount]
    rintro ⟨i, hpos, hle, hpoints⟩
    exact hnone i hpos hle hpoints
  have helem : p.elementByIndex env.localizer array k =
      some (outOfRange env.localizer (Decimal.floor x) ".") := by
    simp only [elementByIndex, hloc, hx, Option.bind_eq_bind, Option.bind_some]
    exact if_neg hrange
  obtain ⟨n, hn, -⟩ := hanswer (Prod.ext helem rfl)
  rw [hn]

/-! ## Editing -/

theorem editAt_of_pointsTo (l : Localizer) (mark : String) (edit : Nat → List Block → List Block)
    (harray : array.isA .data = true) (hk : k.isA .number = true) (hpos : 1 ≤ i)
    (hle : i ≤ (m.elements array).length + 1) (hcount : (m.elements array).length < 2 ^ 53)
    (hpoints : k.PointsTo i) :
    ∃ n, m.editAt l mark edit array k = (some (.data m.heap.size true), n) ∧
      n.elements (.data m.heap.size true) = edit (i - 1) (m.elements array) := by
  obtain ⟨loc, hloc⟩ := exists_dataLoc_of_isA harray m
  obtain ⟨x, hx⟩ := exists_float_of_isA hk
  rw [elements_of_dataLoc? hloc] at hle hcount ⊢
  have hrange : inRange (Decimal.floor x) ((m.heap.blocks loc).length + 1) = true :=
    (inRange_iff hx hcount).2 ⟨i, hpos, hle, hpoints⟩
  obtain ⟨n, hversion, -, -, hget⟩ := newVersion_eq loc (edit (i - 1)) m
  refine ⟨n, ?_, ?_⟩
  · simp only [editAt, hloc, hx]
    rw [if_pos hrange, hpoints.wholePart_floor hx (by omega), hversion]
  · change (n.heap.get m.heap.size).blocks = _
    rw [hget]
    rfl

theorem editAt_error (l : Localizer) (mark : String) (edit : Nat → List Block → List Block)
    (harray : array.isA .data = true) (hx : k.float? = some x)
    (hcount : (m.elements array).length < 2 ^ 53)
    (hnone : ∀ i, 1 ≤ i → i ≤ (m.elements array).length + 1 → ¬ k.PointsTo i) :
    m.editAt l mark edit array k = (some (outOfRange l (Decimal.floor x) mark), m) := by
  obtain ⟨loc, hloc⟩ := exists_dataLoc_of_isA harray m
  rw [elements_of_dataLoc? hloc] at hnone hcount
  have hrange : ¬ inRange (Decimal.floor x) ((m.heap.blocks loc).length + 1) = true := by
    rw [inRange_iff hx hcount]
    rintro ⟨i, hpos, hle, hpoints⟩
    exact hnone i hpos hle hpoints
  simp only [editAt, hloc, hx]
  rw [if_neg hrange]

/-- The operators that edit at a place are all alike. -/
theorem operate_indexed (d : Discipline) (env : Environment) (e : IndexedEdit) (array k : Block)
    (m : Machine) : m.operate d env (.operator e.operator) e.operator 0 (e.operands array k) =
      m.editAt env.localizer e.mark e.apply array k := by
  cases e <;> rfl

theorem exists_signature (e : IndexedEdit) (harray : array.isA .data = true)
    (hk : k.isA .number = true) : ∃ combinations,
      e.operator.info.signature = .overloaded combinations ∧
        (combinations.head?.map List.length).getD 0 = (e.operands array k).length ∧
        (combinations.findIdx? fun tags => fits tags (e.operands array k)) = some 0 := by
  have hblock : ∀ value : Block, value.isA .block = true := fun _ => rfl
  cases e with
  | insert value =>
    exact ⟨_, rfl, rfl, by
      simp [List.findIdx?_cons, fits, IndexedEdit.operands, IndexedEdit.value?, harray, hk, hblock]⟩
  | replace value =>
    exact ⟨_, rfl, rfl, by
      simp [List.findIdx?_cons, fits, IndexedEdit.operands, IndexedEdit.value?, harray, hk, hblock]⟩
  | delete => exact ⟨_, rfl, rfl, findIdx?_fits_indexed harray hk⟩

/-- **Editing at a place.** From one to the place behind the last element, the answer is a new
version. -/
theorem answer_edit (e : IndexedEdit) (harray : array.isA .data = true)
    (hk : k.isA .number = true) (hpos : 1 ≤ i) (hle : i ≤ (m.elements array).length + 1)
    (hcount : (m.elements array).length < 2 ^ 53) (hpoints : k.PointsTo i) (d : Discipline)
    (env : Environment) : ∃ array' n,
      m.answer d env e.operator (e.operands array k) = (some array', n) ∧
        array'.isA .data = true ∧ n.elements array' = e.apply (i - 1) (m.elements array) := by
  obtain ⟨combinations, hsig, harity, hfit⟩ := exists_signature e harray hk
  obtain ⟨p, hp, hanswer⟩ := answer_of_operate d env e.operator m hsig harity hfit
  rw [← elements_same hp] at hle hcount ⊢
  obtain ⟨n, hedit, helements⟩ := editAt_of_pointsTo env.localizer e.mark e.apply harray hk hpos
    hle hcount hpoints
  obtain ⟨n', hn', hsame⟩ := hanswer ((operate_indexed d env e array k p).trans hedit)
  exact ⟨_, n', hn', rfl, (elements_same hsame _).trans helements⟩

/-- **Editing elsewhere** is answered by an error, which tells the number. -/
theorem answer_edit_error (e : IndexedEdit) (harray : array.isA .data = true)
    (hk : k.isA .number = true) (hx : k.float? = some x)
    (hcount : (m.elements array).length < 2 ^ 53)
    (hnone : ∀ i, 1 ≤ i → i ≤ (m.elements array).length + 1 → ¬ k.PointsTo i) (d : Discipline)
    (env : Environment) : (m.answer d env e.operator (e.operands array k)).1 =
      some (outOfRange env.localizer (Decimal.floor x) e.mark) := by
  obtain ⟨combinations, hsig, harity, hfit⟩ := exists_signature e harray hk
  obtain ⟨p, hp, hanswer⟩ := answer_of_operate d env e.operator m hsig harity hfit
  rw [← elements_same hp] at hnone hcount
  have hedit := editAt_error env.localizer e.mark e.apply harray hx hcount hnone
  obtain ⟨n', hn', -⟩ := hanswer ((operate_indexed d env e array k p).trans hedit)
  rw [hn']

/-- An edit is answered by an error exactly if the number points to no such place. -/
theorem answer_edit_error_iff (e : IndexedEdit) (harray : array.isA .data = true)
    (hk : k.isA .number = true) (hcount : (m.elements array).length < 2 ^ 53) (d : Discipline)
    (env : Environment) :
    (∃ message, (m.answer d env e.operator (e.operands array k)).1 = some (.error message)) ↔
      ∀ i, 1 ≤ i → i ≤ (m.elements array).length + 1 → ¬ k.PointsTo i := by
  constructor
  · rintro ⟨message, herror⟩ i hpos hle hpoints
    obtain ⟨array', n, hanswer, harray', -⟩ :=
      answer_edit e harray hk hpos hle hcount hpoints d env
    rw [hanswer] at herror
    rw [Option.some.inj herror] at harray'
    cases harray'
  · intro hnone
    obtain ⟨x, hx⟩ := exists_float_of_isA hk
    exact ⟨_, answer_edit_error e harray hk hx hcount hnone d env⟩

/-! ## Writing and reading -/

/-- Blocks are gathered until there are as many as asked for, and the others stay. The count of
those that were found is exact as long as it is a double. -/
theorem gather_eq (this : Block) (count : Float) :
    ∀ (fuel found : Nat) (blocks : List Block) (m : Machine), m.values.length < fuel →
      found + m.values.length ≤ 2 ^ 53 →
      ¬ Float.ofNat (found + m.values.length) < count →
      ∃ blocks' n, gather this count fuel (Float.ofNat found) blocks m = (.ok blocks', n) ∧
        blocks'.reverse ++ n.values = blocks.reverse ++ m.values := by
  intro fuel
  induction fuel with
  | zero =>
    intro found blocks m hfuel
    exact absurd hfuel (Nat.not_lt_zero _)
  | succ fuel ih =>
    intro found blocks m hfuel hexact henough
    rw [gather]
    split
    case isFalse => exact ⟨blocks, m, rfl, rfl⟩
    case isTrue hmore =>
      cases hvalues : m.values with
      | nil =>
        rw [hvalues] at henough
        exact absurd hmore henough
      | cons b rest =>
        have hmoved := moved_pop (some this) m
        have hpop : m.pop (some this) = (some b, (m.pop (some this)).2) := by
          rw [pop]
          simp only [hvalues]
        rw [hvalues, List.tail_cons] at hmoved
        rw [hvalues, List.length_cons] at hfuel hexact henough
        have hcount : Float.ofNat found + 1 = Float.ofNat (found + 1) :=
          Decimal.ofNat_add_one (by omega)
        have hsum : found + 1 + rest.length = found + (rest.length + 1) := by omega
        obtain ⟨blocks', n, hgather, hall⟩ := ih (found + 1) (b :: blocks)
          (m.pop (some this)).2 (by rw [hmoved.values]; omega)
          (by rw [hmoved.values]; omega) (by rw [hmoved.values, hsum]; exact henough)
        refine ⟨blocks', n, ?_, ?_⟩
        · rw [hpop]
          simp only
          rw [hcount, hgather]
        · rw [hall, hmoved.values, List.reverse_cons, List.append_assoc]
          rfl

/-- Blocks are written to a stack of their own. -/
theorem write_eq (l : Localizer) (this : Block) (hx : k.float? = some x) {vals : List Block}
    (hv : m.values = k :: vals) (hexact : vals.length ≤ 2 ^ 53)
    (henough : ¬ Float.ofNat vals.length < Decimal.floor x) :
    ∃ loc n, m.write l this = (some (.data loc true), n) ∧ loc < n.heap.size ∧
      (n.heap.blocks loc).reverse ++ n.values = vals := by
  have hmoved := moved_pop (some this) m
  have hpop : m.pop (some this) = (some k, (m.pop (some this)).2) := by
    rw [pop]
    simp only [hv]
  rw [hv, List.tail_cons] at hmoved
  obtain ⟨q, hq⟩ : ∃ q, q = (m.pop (some this)).2.nextAnonymous.2 := ⟨_, rfl⟩
  have hvalues : q.values = vals := hq ▸ hmoved.values
  rw [← hvalues] at hexact henough
  obtain ⟨es, n, hgather, hall⟩ := gather_eq this (Decimal.floor x) (q.values.length + 1) 0 [] q
    (Nat.lt_succ_self _) (by rwa [Nat.zero_add]) (by rwa [Nat.zero_add])
  obtain ⟨name, hwrite⟩ : ∃ name, m.write l this =
      (some (n.newData name es).1, (n.newData name es).2) := by
    refine ⟨"a" ++ Decimal.natText (m.pop (some this)).2.nextAnonymous.1, ?_⟩
    rw [write, hpop]
    have hstart : gather this (Decimal.floor x) (q.values.length + 1) 0 [] q = (.ok es, n) :=
      hgather
    simp only [Option.bind_some, hx]
    rw [← hq, hstart]
  have hblocks : (n.newData name es).2.heap.blocks n.heap.size = es :=
    congrArg Stack.blocks (Heap.get_alloc_size _ _)
  refine ⟨n.heap.size, _, hwrite, Heap.size_lt_alloc _ _, ?_⟩
  rw [hblocks, ← hvalues]
  exact hall

/-- **Writing and reading.** If there are as many blocks as a number says, writing so many of them
to a stack and reading it leaves all of them where they were. -/
theorem restores_write_read (hk : k.isA .number = true) (hexact : m.values.length ≤ 2 ^ 53)
    (henough : ∀ x, k.float? = some x → ¬ Float.ofNat m.values.length < Decimal.floor x)
    (d : Discipline) (env : Environment) :
    (((m.push k).evaluate d env (.operator .write)).evaluate d env (.operator .read)).values =
      m.values := by
  obtain ⟨x, hx⟩ := exists_float_of_isA hk
  obtain ⟨loc, n, hwrite, hsize, hall⟩ := write_eq env.localizer (.operator .write) hx
    (push_values m k) hexact (henough x hx)
  have heval : (m.push k).evaluate d env (.operator .write) = n.push (.data loc true) := by
    -- the operator takes its operands itself
    have htake : (m.push k).takeFor env (.operator .write) .write = (some ([], 0), m.push k) := rfl
    have hoperate : (m.push k).operate d env (.operator .write) .write 0 [] =
        (some (.data loc true), n) := hwrite
    simp only [evaluate, evaluateOperator, htake, hoperate]
  have hpush := moved_push (.data loc true) n
  have harray : IsArray (n.push (.data loc true)).heap (.data loc true) loc (n.heap.blocks loc) :=
    ⟨.inr rfl, by rwa [hpush.heap], by rw [hpush.heap]⟩
  have hread := evaluate_read harray hpush.values d env (n.push (.data loc true)).active.program
  rw [heval]
  exact hread.values.trans hall

/-! ## The laws of lists -/

/-- Every place of an array is read. -/
theorem exists_reads (harray : array.isA .data = true) (hpos : 1 ≤ j)
    (hle : j ≤ (m.elements array).length) (hcount : (m.elements array).length ≤ 2 ^ 53)
    (d : Discipline) (env : Environment) :
    ∃ x, (m.elements array)[j - 1]? = some x ∧ m.Reads d env array j x := by
  obtain ⟨x, hx⟩ : ∃ x, (m.elements array)[j - 1]? = some x :=
    ⟨_, List.getElem?_eq_getElem (by omega)⟩
  exact ⟨x, hx, reads_of_getElem? harray hpos hx hcount d env⟩

/-- What an insertion makes of the places of an array. -/
theorem reads_inserted {inserted v : Block} (harray : array.isA .data = true)
    (hinserted : inserted.isA .data = true)
    (helements : n.elements inserted = (m.elements array).insertIdx (i - 1) v) (hpos : 1 ≤ i)
    (hle : i ≤ (m.elements array).length + 1) (hcount : (m.elements array).length < 2 ^ 53)
    (d : Discipline) (env : Environment) :
    n.Reads d env inserted i v ∧
      (∀ j, 1 ≤ j → j < i → ∃ x, (m.elements array)[j - 1]? = some x ∧
        m.Reads d env array j x ∧ n.Reads d env inserted j x) ∧
      ∀ j, i ≤ j → j ≤ (m.elements array).length → ∃ x, (m.elements array)[j - 1]? = some x ∧
        m.Reads d env array j x ∧ n.Reads d env inserted (j + 1) x := by
  have hlength : (n.elements inserted).length ≤ 2 ^ 53 := by
    rw [helements, List.length_insertIdx_of_le_length (by omega)]
    exact hcount
  refine ⟨?_, fun j hj hlt => ?_, fun j hge hjle => ?_⟩
  · refine reads_of_getElem? hinserted hpos ?_ hlength d env
    rw [helements, List.getElem?_insertIdx_self, if_pos (by omega)]
  · obtain ⟨x, hx, hread⟩ := exists_reads (m := m) harray hj (by omega) (by omega) d env
    refine ⟨x, hx, hread, reads_of_getElem? hinserted hj ?_ hlength d env⟩
    rw [helements, List.getElem?_insertIdx_of_lt (by omega), hx]
  · obtain ⟨x, hx, hread⟩ := exists_reads (m := m) harray (by omega) hjle (by omega) d env
    refine ⟨x, hx, hread, reads_of_getElem? hinserted (Nat.succ_pos j) ?_ hlength d env⟩
    rw [helements, List.getElem?_insertIdx_of_gt (by omega), ← hx]
    rfl

/-- What a replacement makes of them. Behind the last element, it appends. -/
theorem reads_replaced {replaced v : Block} (harray : array.isA .data = true)
    (hreplaced : replaced.isA .data = true)
    (helements : n.elements replaced = (IndexedEdit.replace v).apply (i - 1) (m.elements array))
    (hpos : 1 ≤ i) (hle : i ≤ (m.elements array).length + 1)
    (hcount : (m.elements array).length < 2 ^ 53) (d : Discipline) (env : Environment) :
    n.Reads d env replaced i v ∧
      (n.elements replaced).length = max i (m.elements array).length ∧
      ∀ j, 1 ≤ j → j ≤ (m.elements array).length → j ≠ i → ∃ x,
        (m.elements array)[j - 1]? = some x ∧ m.Reads d env array j x ∧
          n.Reads d env replaced j x := by
  rw [IndexedEdit.apply] at helements
  have hlength : (n.elements replaced).length = max i (m.elements array).length := by
    rw [helements]
    split
    · rw [List.length_set]
      omega
    · rw [List.length_append, List.length_singleton]
      omega
  refine ⟨?_, hlength, fun j hj hjle hne => ?_⟩
  · refine reads_of_getElem? hreplaced hpos ?_ (by omega) d env
    rw [helements]
    split
    case isTrue hlt => exact List.getElem?_set_self hlt
    case isFalse hlast =>
      rw [show i - 1 = (m.elements array).length by omega]
      exact List.getElem?_concat_length
  · obtain ⟨x, hx, hread⟩ := exists_reads harray hj hjle (Nat.le_of_lt hcount) d env
    refine ⟨x, hx, hread, reads_of_getElem? hreplaced hj ?_ (by omega) d env⟩
    rw [helements]
    split
    · rw [List.getElem?_set_ne (by omega), hx]
    · rw [List.getElem?_append_left (by omega), hx]

/-- **Arrays obey the laws of lists.** A value that is inserted at a place is read there; the
elements in front of it are read where they were, and those behind it one place on. Deleting at that
place gives back the elements that there were. A value that replaces an element is read in its
place, or behind the last one, and nothing else changes. For numbers that point nowhere, inserting
and replacing answer with an error. And writing as many blocks as a number says and reading them
again leaves the value stack as it was, if there are so many. -/
theorem indexed_edits (d : Discipline) (env : Environment) (m : Machine) (array v k : Block)
    (harray : array.isA .data = true) (hk : k.isA .number = true)
    (hcount : (m.elements array).length + 1 < 2 ^ 53) :
    (∀ i, 1 ≤ i → i ≤ (m.elements array).length + 1 → k.PointsTo i →
      (∃ inserted n, m.answer d env .insert [array, v, k] = (some inserted, n) ∧
        inserted.isA .data = true ∧
        n.elements inserted = (m.elements array).insertIdx (i - 1) v ∧
        n.Reads d env inserted i v ∧
        (∀ j, 1 ≤ j → j < i → ∃ x, (m.elements array)[j - 1]? = some x ∧
          m.Reads d env array j x ∧ n.Reads d env inserted j x) ∧
        (∀ j, i ≤ j → j ≤ (m.elements array).length → ∃ x, (m.elements array)[j - 1]? = some x ∧
          m.Reads d env array j x ∧ n.Reads d env inserted (j + 1) x) ∧
        ∃ deleted p, n.answer d env .delete [inserted, k] = (some deleted, p) ∧
          deleted.isA .data = true ∧ p.elements deleted = m.elements array) ∧
      ∃ replaced n, m.answer d env .replace [array, v, k] = (some replaced, n) ∧
        replaced.isA .data = true ∧ n.Reads d env replaced i v ∧
        (n.elements replaced).length = max i (m.elements array).length ∧
        ∀ j, 1 ≤ j → j ≤ (m.elements array).length → j ≠ i → ∃ x,
          (m.elements array)[j - 1]? = some x ∧ m.Reads d env array j x ∧
            n.Reads d env replaced j x) ∧
    ((∀ i, 1 ≤ i → i ≤ (m.elements array).length + 1 → ¬ k.PointsTo i) → ∃ message,
      (m.answer d env .insert [array, v, k]).1 = some (.error message) ∧
        (m.answer d env .replace [array, v, k]).1 = some (.error message)) ∧
    ∀ (n : Machine) (count : Block), count.isA .number = true → n.values.length ≤ 2 ^ 53 →
      (∀ x, count.float? = some x → ¬ Float.ofNat n.values.length < Decimal.floor x) →
      (((n.push count).evaluate d env (.operator .write)).evaluate d env (.operator .read)).values =
        n.values := by
  have hlt : (m.elements array).length < 2 ^ 53 := Nat.lt_of_succ_lt hcount
  refine ⟨fun i hpos hle hpoints => ⟨?_, ?_⟩, fun hnone => ?_, fun n count hcount hexact henough =>
    restores_write_read hcount hexact henough d env⟩
  · obtain ⟨inserted, n, hinsert, hinserted, helements⟩ :=
      answer_edit (.insert v) harray hk hpos hle hlt hpoints d env
    have hlength : (n.elements inserted).length = (m.elements array).length + 1 := by
      rw [helements]
      exact List.length_insertIdx_of_le_length (by omega) v
    obtain ⟨deleted, p, hdelete, hdeleted, hback⟩ := answer_edit (m := n) .delete hinserted hk
      hpos (by omega) (by rwa [hlength]) hpoints d env
    obtain ⟨hself, hbefore, hbehind⟩ :=
      reads_inserted harray hinserted helements hpos hle hlt d env
    refine ⟨inserted, n, hinsert, hinserted, helements, hself, hbefore, hbehind, deleted, p,
      hdelete, hdeleted, ?_⟩
    rw [hback, helements]
    exact List.eraseIdx_insertIdx_self v
  · obtain ⟨replaced, n, hreplace, hreplaced, helements⟩ :=
      answer_edit (.replace v) harray hk hpos hle hlt hpoints d env
    exact ⟨replaced, n, hreplace, hreplaced,
      reads_replaced harray hreplaced helements hpos hle hlt d env⟩
  · obtain ⟨x, hx⟩ := exists_float_of_isA hk
    exact ⟨_, answer_edit_error (.insert v) harray hk hx hlt hnone d env,
      answer_edit_error (.replace v) harray hk hx hlt hnone d env⟩

/-- A machine with an array of three numbers. -/
def threeNumbers : Machine :=
  (newData "a" [.ofFloat 1, .ofFloat 2, .ofFloat 3]
    (make 10 Workspace.empty (World.ofSeed 0))).2

/-- A value is inserted as the second of three numbers, at 2.5. Nothing is at 5. And two blocks are
written and read again. -/
theorem indexed_edits_threeNumbers :
    (threeNumbers.elements (.data 0 true)).length + 1 < 2 ^ 53 ∧
      (∃ inserted n, threeNumbers.answer standardDiscipline Environment.standard .insert
          [.data 0 true, .boolean true, .ofFloat 2.5] = (some inserted, n) ∧
        n.elements inserted = [.ofFloat 1, .boolean true, .ofFloat 2, .ofFloat 3] ∧
        n.Reads standardDiscipline Environment.standard inserted 2 (.boolean true)) ∧
      (∃ message, (threeNumbers.answer standardDiscipline Environment.standard .insert
        [.data 0 true, .boolean true, .ofFloat 5]).1 = some (.error message)) ∧
      ((((threeNumbers.pushAll [.ofFloat 1, .boolean true, .ofFloat 3]).push
        (.ofFloat 2)).evaluate standardDiscipline Environment.standard
          (.operator .write)).evaluate standardDiscipline Environment.standard
            (.operator .read)).values = [.ofFloat 3, .boolean true, .ofFloat 1] := by
  have hcount : (threeNumbers.elements (.data 0 true)).length + 1 < 2 ^ 53 := by decide
  have hlaws := fun x : Float => indexed_edits standardDiscipline Environment.standard
    threeNumbers (.data 0 true) (.boolean true) (.ofFloat x) rfl rfl hcount
  refine ⟨hcount, ?_, ?_, ?_⟩
  · obtain ⟨⟨inserted, n, hinsert, -, helements, hreads, -⟩, -⟩ :=
      (hlaws 2.5).1 2 (by decide) (by decide) rfl
    exact ⟨inserted, n, hinsert, helements, hreads⟩
  · have hnone : ∀ i, 1 ≤ i → i ≤ (threeNumbers.elements (.data 0 true)).length + 1 →
        ¬ (Block.ofFloat 5).PointsTo i := by
      intro i hpos hle hpoints
      have hlast : i ≤ 4 := hle
      have hfive : i = 5 := hpoints.unique rfl (by omega) (by decide)
      omega
    obtain ⟨message, hinsert, -⟩ := (hlaws 5).2.1 hnone
    exact ⟨message, hinsert⟩
  · refine (hlaws 1).2.2 (threeNumbers.pushAll [.ofFloat 1, .boolean true, .ofFloat 3])
      (.ofFloat 2) rfl (by decide) fun x hx => ?_
    have htwo : Decimal.floor x = Float.ofNat 2 := (Block.pointsTo_iff hx).1 rfl
    rw [htwo]
    exact Decimal.not_ofNat_lt (by decide) (by decide)

/-- **Deleting at a place.** At the place of an element, the answer is a new array without that
element. Elsewhere it is an error, as it is for `elem`, but for the place behind the last element:
there is no element there to be read, and deleting it gives all elements again. So deleting fails
just where reading does unless the number points to that place. -/
theorem delete_fails_iff (d : Discipline) (env : Environment) (m : Machine) (array k : Block)
    (harray : array.isA .data = true) (hk : k.isA .number = true)
    (hcount : (m.elements array).length < 2 ^ 53) :
    (∀ i, 1 ≤ i → i ≤ (m.elements array).length → k.PointsTo i →
      (∃ x, (m.elements array)[i - 1]? = some x ∧
        (m.answer d env .elem [array, k]).1 = some x) ∧
      ∃ deleted n, m.answer d env .delete [array, k] = (some deleted, n) ∧
        deleted.isA .data = true ∧ n.elements deleted = (m.elements array).eraseIdx (i - 1) ∧
        (n.elements deleted).length + 1 = (m.elements array).length) ∧
    ((∀ i, 1 ≤ i → i ≤ (m.elements array).length → ¬ k.PointsTo i) →
      (∃ x, k.float? = some x ∧ (m.answer d env .elem [array, k]).1 =
        some (outOfRange env.localizer (Decimal.floor x) ".")) ∧
      (¬ k.PointsTo ((m.elements array).length + 1) → ∃ x, k.float? = some x ∧
        (m.answer d env .delete [array, k]).1 =
          some (outOfRange env.localizer (Decimal.floor x) "")) ∧
      (k.PointsTo ((m.elements array).length + 1) → ∃ deleted n,
        m.answer d env .delete [array, k] = (some deleted, n) ∧ deleted.isA .data = true ∧
          n.elements deleted = m.elements array)) ∧
    (((∃ message, (m.answer d env .delete [array, k]).1 = some (.error message)) ↔
        ∀ i, 1 ≤ i → i ≤ (m.elements array).length → ¬ k.PointsTo i) ↔
      ¬ k.PointsTo ((m.elements array).length + 1)) := by
  obtain ⟨x, hx⟩ := exists_float_of_isA hk
  have hdeletes : ∀ i, 1 ≤ i → i ≤ (m.elements array).length + 1 → k.PointsTo i → ∃ deleted n,
      m.answer d env .delete [array, k] = (some deleted, n) ∧ deleted.isA .data = true ∧
        n.elements deleted = (m.elements array).eraseIdx (i - 1) :=
    fun i hpos hle hpoints => answer_edit .delete harray hk hpos hle hcount hpoints d env
  have hfails : (∃ message, (m.answer d env .delete [array, k]).1 = some (.error message)) ↔
      ∀ i, 1 ≤ i → i ≤ (m.elements array).length + 1 → ¬ k.PointsTo i :=
    answer_edit_error_iff .delete harray hk hcount d env
  refine ⟨fun i hpos hle hpoints => ⟨?_, ?_⟩,
    fun hnone => ⟨?_, fun hnot => ?_, fun hpoints => ?_⟩, ?_⟩
  · obtain ⟨x, hx, hread⟩ := exists_reads harray hpos hle (Nat.le_of_lt hcount) d env
    exact ⟨x, hx, hread k hk hpoints⟩
  · obtain ⟨deleted, n, hdelete, hdeleted, helements⟩ :=
      hdeletes i hpos (Nat.le_succ_of_le hle) hpoints
    refine ⟨deleted, n, hdelete, hdeleted, helements, ?_⟩
    rw [helements, List.length_eraseIdx_of_lt (by omega)]
    omega
  · exact ⟨x, hx, answer_elem_error harray hk hx (Nat.le_of_lt hcount) hnone d env⟩
  · have hnowhere := Block.not_pointsTo_succ hnone hnot
    exact ⟨x, hx, answer_edit_error .delete harray hk hx hcount hnowhere d env⟩
  · obtain ⟨deleted, n, hdelete, hdeleted, helements⟩ := hdeletes _ (by omega) (by omega) hpoints
    refine ⟨deleted, n, hdelete, hdeleted, helements.trans (List.eraseIdx_of_length_le ?_)⟩
    omega
  · rw [hfails]
    constructor
    · intro hiff hpoints
      refine hiff.2 (fun i hpos hle hi => ?_) _ (by omega) (Nat.le_refl _) hpoints
      have := hi.unique hpoints (by omega) (by omega)
      omega
    · intro hnot
      exact ⟨fun hnone i hpos hle => hnone i hpos (Nat.le_succ_of_le hle),
        fun hnone => Block.not_pointsTo_succ hnone hnot⟩

/-- The element behind the last of three is deleted, but it is not there to be read. -/
theorem delete_fails_iff_threeNumbers :
    (threeNumbers.elements (.data 0 true)).length < 2 ^ 53 ∧
      (∃ deleted n, threeNumbers.answer standardDiscipline Environment.standard .delete
          [.data 0 true, .ofFloat 4] = (some deleted, n) ∧ deleted.isA .data = true ∧
        n.elements deleted = [.ofFloat 1, .ofFloat 2, .ofFloat 3]) ∧
      (threeNumbers.answer standardDiscipline Environment.standard .elem
        [.data 0 true, .ofFloat 4]).1 = some (outOfRange .plain 4 ".") := by
  have hcount : (threeNumbers.elements (.data 0 true)).length < 2 ^ 53 := by decide
  obtain ⟨-, helsewhere, -⟩ := delete_fails_iff standardDiscipline Environment.standard
    threeNumbers (.data 0 true) (.ofFloat 4) rfl rfl hcount
  obtain ⟨⟨x, hx, helem⟩, -, hdelete⟩ := helsewhere fun i hpos hle hpoints => by
    have hlast : i ≤ 3 := hle
    have hfour : i = 4 := hpoints.unique rfl (by omega) (by decide)
    omega
  refine ⟨hcount, hdelete rfl, helem.trans ?_⟩
  have hfour : Decimal.floor x = Float.ofNat 4 := (Block.pointsTo_iff hx).1 rfl
  rw [hfour]
  rfl

end Places

end Machine

end BlockMachine
