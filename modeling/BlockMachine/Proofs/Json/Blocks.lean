import BlockMachine.Conversion
import BlockMachine.Proofs.Fraction.Rereading
import BlockMachine.Proofs.Machine.WriteBack
import BlockMachine.Proofs.Workspace.Building

/-!
# Values read back from their blocks

A value that has exactly the shape of a signature is read back from its block, in whatever workspace
and however deep its arrays and objects nest.

* `Json.HasShape` — a value has exactly the shape of a signature;
* `Json.Proper` — doubles are finite, members are in order and their keys are not empty;
* `Json.asDoubles` — the value with each number as the double nearest to it;
* `Json.ReadsBack` — a value is read back, also later on and inside of other stacks; one lemma for
  each kind of value;
* `toBlock_read_back` — a proper value is read back from its block.
-/

namespace BlockMachine

namespace Keyed

variable {α : Type} {m m' : Keyed α}

theorem find?_isSome_iff {key : String} : (m.find? key).isSome ↔ key ∈ m.map Prod.fst := by
  refine ⟨fun h => ?_, fun h => ?_⟩
  · obtain ⟨value, hvalue⟩ := Option.isSome_iff_exists.1 h
    exact List.mem_map_of_mem (mem_of_find? hvalue)
  · rw [Option.isSome_iff_ne_none, find?, Ne, List.lookup_eq_none_iff]
    obtain ⟨p, hp, rfl⟩ := List.mem_map.1 h
    exact fun hall => by simpa using hall p hp

/-- A map in order is determined by its look-ups. -/
theorem Ordered.ext (h : Ordered m) (h' : Ordered m')
    (heq : ∀ key, m.find? key = m'.find? key) : m = m' := by
  have find_of_mem {m : Keyed α} (h : Ordered m) {p : String × α} (hp : p ∈ m) :
      m.find? p.1 = some p.2 := by
    obtain ⟨l₁, l₂, rfl⟩ := List.append_of_mem hp
    rw [find?, List.lookup_eq_some_iff]
    refine ⟨l₁, l₂, rfl, fun q hq => ?_⟩
    have hlt : q.1 < p.1 := (List.pairwise_append.1 h).2.2 q hq p List.mem_cons_self
    simpa using hlt.ne'
  have hmem : ∀ p, p ∈ m ↔ p ∈ m' := fun p =>
    ⟨fun hp => mem_of_find? (heq p.1 ▸ find_of_mem h hp),
      fun hp => mem_of_find? ((heq p.1).symm ▸ find_of_mem h' hp)⟩
  have hperm : m.Perm m' :=
    (List.perm_ext_iff_of_nodup h.nodup.of_map h'.nodup.of_map).2 hmem
  exact hperm.eq_of_pairwise (fun _ _ _ _ hlt hgt => absurd (hlt.trans hgt) (lt_irrefl _)) h h'

end Keyed

/-! ## Shapes -/

namespace Json

/-- A value has exactly the shape of a signature: an object has the members of the signature and no
others, and null stands for any object. No alternatives are offered. -/
inductive HasShape : Json → Signature → Prop where
  | number (n : Number) : HasShape (.number n) .number
  | string (s : String) : HasShape (.string s) .string
  | bool (b : Bool) : HasShape (.bool b) .boolean
  | array {items : List Json} {element : Signature} :
    (∀ item ∈ items, HasShape item element) → HasShape (.array items) (.arrayOf element)
  | null (fields : List (String × Signature)) : HasShape .null (.object fields)
  | object {members : List (String × Json)} {fields : List (String × Signature)} :
    (∀ key, key ∈ members.map Prod.fst ↔ key ∈ fields.map Prod.fst) →
    (∀ p ∈ members, ∀ q ∈ fields, q.1 = p.1 → HasShape p.2 q.2) →
    HasShape (.object members) (.object fields)

/-- Numbers are finite as doubles; the members of an object are in the order of their keys, and no
key is empty. -/
inductive Proper : Json → Prop where
  | null : Proper .null
  | bool (b : Bool) : Proper (.bool b)
  | number {n : Number} : n.toFloat.isFinite = true → Proper (.number n)
  | string (s : String) : Proper (.string s)
  | array {items : List Json} : (∀ item ∈ items, Proper item) → Proper (.array items)
  | object {members : List (String × Json)} : Keyed.Ordered members →
    (∀ p ∈ members, p.1 ≠ "") → (∀ p ∈ members, Proper p.2) → Proper (.object members)

mutual

/-- The value with each number as the double nearest to it. -/
def asDoubles : Json → Json
  | .null => .null
  | .bool b => .bool b
  | .number n => .number (.float n.toFloat)
  | .string s => .string s
  | .array items => .array (itemsAsDoubles items)
  | .object members => .object (membersAsDoubles members)

/-- The items with doubles for numbers. -/
def itemsAsDoubles : List Json → List Json
  | [] => []
  | item :: items => item.asDoubles :: itemsAsDoubles items

/-- The members with doubles for numbers. -/
def membersAsDoubles : List (String × Json) → List (String × Json)
  | [] => []
  | (key, value) :: members => (key, value.asDoubles) :: membersAsDoubles members

end

theorem ordered_membersAsDoubles {members : List (String × Json)} (h : Keyed.Ordered members) :
    Keyed.Ordered (membersAsDoubles members) := by
  have hmap : membersAsDoubles members = members.map fun p => (p.1, p.2.asDoubles) := by
    induction members with
    | nil => rfl
    | cons p rest ih => rw [membersAsDoubles, List.map_cons, ih (List.pairwise_cons.1 h).2]
  rw [hmap]
  exact List.pairwise_map.2 h

theorem find?_membersAsDoubles (members : List (String × Json)) (key : String) :
    Keyed.find? (membersAsDoubles members) key = (Keyed.find? members key).map asDoubles := by
  induction members with
  | nil => rfl
  | cons p rest ih =>
    obtain ⟨k, v⟩ := p
    simp only [membersAsDoubles, Keyed.find?, List.lookup_cons] at ih ⊢
    split
    · rfl
    · exact ih

/-! ## Making the block of a value -/

/-- A data block adds one stack, at the end of the heap. -/
theorem data_grows (st : Store) (name : String) (blocks : List Block) :
    st.heap.Grows (st.data name blocks).2.heap :=
  .alloc _ _

mutual

/-- Making a block only adds stacks. -/
theorem toBlock_grows (name : String) : ∀ (v : Json) (st : Store),
    st.heap.Grows (v.toBlock name st).2.heap
  | .null, _ => .alloc _ _
  | .bool _, _ | .number _, _ | .string _, _ => .refl _
  | .array items, st => (itemBlocks_grows name 1 items st).trans (data_grows _ _ _)
  | .object members, st => (memberBlocks_grows members st).trans (data_grows _ _ _)

theorem itemBlocks_grows (name : String) : ∀ (place : Nat) (items : List Json) (st : Store),
    st.heap.Grows (itemBlocks name place items st).2.heap
  | _, [], _ => .refl _
  | place, item :: items, st =>
    (toBlock_grows (name ++ Decimal.natText place) item st).trans (itemBlocks_grows name _ items _)

theorem memberBlocks_grows : ∀ (members : List (String × Json)) (st : Store),
    st.heap.Grows (memberBlocks members st).2.heap
  | [], _ => .refl _
  | (key, value) :: members, st =>
    ((toBlock_grows (key ++ "Value") value st).trans (data_grows _ key _)).trans
      (memberBlocks_grows members _)

end

/-! ## Reading it back -/

section Reading

variable {ws : Workspace}

/-- A value is read back from its block, also when the heap has grown since, and inside of stacks
that are younger than all that the block consists of. -/
def ReadsBack (ws : Workspace) (s : Signature) (v : Json) : Prop :=
  ∀ (name : String) (st : Store) (h : Heap) (path : List Loc),
    (v.toBlock name st).2.heap.Grows h → (∀ l ∈ path, (v.toBlock name st).2.heap.size ≤ l) →
    Signature.readAt ws h s path (v.toBlock name st).1 = .ok v.asDoubles

theorem readsBack_number {n : Number} (h : n.toFloat.isFinite = true) :
    ReadsBack ws .number (.number n) := by
  intro _ _ heap path _ _
  have hvalue : (Fraction.ofFloat n.toFloat).value = n.toFloat := Fraction.value_ofFloat _
  simp only [toBlock, Block.ofFloat, Block.ofFraction, Signature.readAt, asDoubles, hvalue, if_pos h]

/-- The stack of a new data block can be entered, and holds the blocks. -/
theorem enter_data (ws : Workspace) (s : Signature) {st : Store} {h : Heap} {name : String}
    {blocks : List Block} {path : List Loc} (hgrows : (st.data name blocks).2.heap.Grows h)
    (hpath : ∀ l ∈ path, (st.data name blocks).2.heap.size ≤ l) :
    Signature.enter ws h path (st.data name blocks).1 s = .ok st.heap.size ∧
      h.get st.heap.size = Stack.make name blocks := by
  have hlt : st.heap.size < (st.data name blocks).2.heap.size := Heap.size_lt_alloc _ _
  have hfree : path.contains st.heap.size = false := by
    rw [List.contains_eq_mem, decide_eq_false_iff_not]
    exact fun hmem => absurd (hpath _ hmem) (Nat.not_le_of_lt hlt)
  refine ⟨?_, (hgrows.get hlt).trans (Heap.get_alloc_size _ _)⟩
  change (if path.contains st.heap.size = true then _ else Except.ok st.heap.size) = _
  rw [hfree, if_neg Bool.false_ne_true]

/-- The items of an array are read back one after the other. -/
theorem read_itemBlocks {s : Signature} {items : List Json}
    (hitems : ∀ item ∈ items, ReadsBack ws s item) (name : String) (place : Nat) (st : Store)
    (h : Heap) (path : List Loc) (hgrows : (itemBlocks name place items st).2.heap.Grows h)
    (hpath : ∀ l ∈ path, (itemBlocks name place items st).2.heap.size ≤ l) :
    (itemBlocks name place items st).1.mapM (fun b => Signature.readAt ws h s path b) =
      .ok (itemsAsDoubles items) := by
  induction items generalizing place st with
  | nil => rfl
  | cons item items ih =>
    rw [itemBlocks] at hgrows hpath ⊢
    have hrest := itemBlocks_grows name (place + 1) items
      (item.toBlock (name ++ Decimal.natText place) st).2
    have hitem := hitems item List.mem_cons_self _ st h path (hrest.trans hgrows)
      fun l hl => hrest.size.trans (hpath l hl)
    rw [List.mapM_cons, hitem,
      ih (fun v hv => hitems v (List.mem_cons_of_mem _ hv)) _ _ hgrows hpath]
    rfl

theorem readsBack_array {element : Signature} {items : List Json}
    (hitems : ∀ item ∈ items, ReadsBack ws element item) :
    ReadsBack ws (.arrayOf element) (.array items) := by
  intro name st h path hgrows hpath
  rw [toBlock] at hgrows hpath ⊢
  obtain ⟨henter, hget⟩ := enter_data ws (.arrayOf element) hgrows hpath
  have hblocks : h.blocks (itemBlocks name 1 items st).2.heap.size =
      (itemBlocks name 1 items st).1 := by
    rw [Heap.blocks, hget]
    rfl
  have hread := read_itemBlocks hitems name 1 st h ((itemBlocks name 1 items st).2.heap.size :: path)
    ((data_grows _ _ _).trans hgrows) (by
      intro l hl
      rcases List.mem_cons.1 hl with rfl | hl
      · exact Nat.le_refl _
      · exact (data_grows _ _ _).size.trans (hpath l hl))
  simp only [Store.data, Store.alloc, Block.ofStack] at henter ⊢
  rw [Signature.readAt, henter, asDoubles]
  simp only [bind, Except.bind, hblocks, hread, pure, Except.pure]

theorem member?_cons (h : Heap) (loc : Loc) (bs : List Block) (key : String) :
    Signature.member? ws h (.ofStack loc :: bs) key =
      if h.nameOf loc = key then some loc else Signature.member? ws h bs key := by
  have hstack : Signature.stackOf? ws h (.ofStack loc) = some loc := rfl
  rw [Signature.member?, Signature.member?, List.findSome?_cons]
  simp only [Block.ofStack] at hstack ⊢
  rw [hstack]
  by_cases hname : h.nameOf loc = key
  · rw [Option.filter_some_pos (by simpa using hname), if_pos hname]
  · rw [Option.filter_some_neg (by simpa using hname), if_neg hname]

/-- The member of a key is found by its name, and holds the block of its value alone. -/
theorem member?_memberBlocks (ws : Workspace) {members : List (String × Json)}
    (hkeys : ∀ p ∈ members, p.1 ≠ "") {key : String} {v : Json}
    (hfind : Keyed.find? members key = some v) (st : Store) {h : Heap}
    (hgrows : (memberBlocks members st).2.heap.Grows h) :
    ∃ m st₁, Signature.member? ws h (memberBlocks members st).1 key = some m ∧
      h.blocks m = [(v.toBlock (key ++ "Value") st₁).1] ∧
      (v.toBlock (key ++ "Value") st₁).2.heap.Grows (memberBlocks members st).2.heap := by
  induction members generalizing st with
  | nil => cases hfind
  | cons p rest ih =>
    obtain ⟨k, w⟩ := p
    rw [memberBlocks] at hgrows ⊢
    have hmember := data_grows (w.toBlock (k ++ "Value") st).2 k [(w.toBlock (k ++ "Value") st).1]
    have hrest := memberBlocks_grows rest
      ((w.toBlock (k ++ "Value") st).2.data k [(w.toBlock (k ++ "Value") st).1]).2
    have hget : h.get (w.toBlock (k ++ "Value") st).2.heap.size =
        Stack.make k [(w.toBlock (k ++ "Value") st).1] :=
      ((hrest.trans hgrows).get (Heap.size_lt_alloc _ _)).trans (Heap.get_alloc_size _ _)
    have hname : h.nameOf (w.toBlock (k ++ "Value") st).2.heap.size = k := by
      have hk : k.isEmpty = false := by simpa using hkeys _ List.mem_cons_self
      rw [Heap.nameOf, hget, Stack.make, hk, if_neg Bool.false_ne_true]
    rw [Keyed.find?, List.lookup_cons] at hfind
    by_cases heq : key = k
    · subst heq
      obtain rfl : w = v := by simpa using hfind
      refine ⟨_, st, ?_, by rw [Heap.blocks, hget, Stack.make], hmember.trans hrest⟩
      exact (member?_cons ..).trans (if_pos hname)
    · have hne : (key == k) = false := by simpa using heq
      rw [hne] at hfind
      obtain ⟨m, st₁, hm, hblocks, hgrow⟩ :=
        ih (fun q hq => hkeys q (List.mem_cons_of_mem _ hq)) hfind _ hgrows
      refine ⟨m, st₁, ?_, hblocks, hgrow⟩
      exact (member?_cons ..).trans ((if_neg fun hk => heq (hk.symm.trans hname)).trans hm)

/-- The members that are read are those of the signature, with the values that they have. -/
theorem readFields_of_members {h : Heap} {loc : Loc} {fields : List (String × Signature)}
    {path : List Loc} (values : List (String × Json))
    (hfields : ∀ q ∈ fields, ∃ m b v,
      Signature.member? ws h (h.blocks loc) q.1 = some m ∧ h.blocks m = [b] ∧
        Signature.readAt ws h q.2 path b = .ok v ∧ Keyed.find? values q.1 = some v)
    {found : List (String × Json)} (hfound : Keyed.Ordered found) :
    ∃ r, Signature.readFields ws h loc fields path found = .ok r ∧ Keyed.Ordered r ∧
      ∀ key, Keyed.find? r key =
        if key ∈ fields.map Prod.fst then Keyed.find? values key else Keyed.find? found key := by
  induction fields generalizing found with
  | nil => exact ⟨found, by rw [Signature.readFields], hfound, fun _ => rfl⟩
  | cons q rest ih =>
    obtain ⟨name, s⟩ := q
    obtain ⟨m, b, v, hm, hblocks, hread, hvalue⟩ := hfields _ List.mem_cons_self
    obtain ⟨r, hr, hordered, hfind⟩ :=
      ih (fun q hq => hfields q (List.mem_cons_of_mem _ hq)) (hfound.insert name v)
    refine ⟨r, ?_, hordered, fun key => ?_⟩
    · rw [Signature.readFields]
      simp only [hm, hblocks, hread, bind, Except.bind, hr]
    · rw [hfind key, List.map_cons]
      by_cases hrest : key ∈ rest.map Prod.fst
      · rw [if_pos hrest, if_pos (List.mem_cons_of_mem _ hrest)]
      · rw [if_neg hrest]
        by_cases heq : key = name
        · rw [if_pos (heq ▸ List.mem_cons_self), heq, Keyed.find?_insert_self, hvalue]
        · rw [if_neg (by simpa [heq] using hrest), Keyed.find?_insert_of_ne _ _ heq]

theorem readsBack_object {members : List (String × Json)} {fields : List (String × Signature)}
    (hkeys : ∀ key, key ∈ members.map Prod.fst ↔ key ∈ fields.map Prod.fst)
    (hordered : Keyed.Ordered members) (hnames : ∀ p ∈ members, p.1 ≠ "")
    (hvalues : ∀ p ∈ members, ∀ q ∈ fields, q.1 = p.1 → ReadsBack ws q.2 p.2) :
    ReadsBack ws (.object fields) (.object members) := by
  intro name st h path hgrows hpath
  rw [toBlock] at hgrows hpath ⊢
  obtain ⟨henter, hget⟩ := enter_data ws (.object fields) hgrows hpath
  have hdata := data_grows (memberBlocks members st).2 name (memberBlocks members st).1
  have hblocks : h.blocks (memberBlocks members st).2.heap.size = (memberBlocks members st).1 := by
    rw [Heap.blocks, hget]
    rfl
  have hfields : ∀ q ∈ fields, ∃ m b v,
      Signature.member? ws h (h.blocks (memberBlocks members st).2.heap.size) q.1 = some m ∧
        h.blocks m = [b] ∧
        Signature.readAt ws h q.2 ((memberBlocks members st).2.heap.size :: path) b = .ok v ∧
        Keyed.find? (membersAsDoubles members) q.1 = some v := by
    intro q hq
    obtain ⟨v, hv⟩ := Option.isSome_iff_exists.1
      (Keyed.find?_isSome_iff.2 ((hkeys q.1).2 (List.mem_map_of_mem hq)))
    obtain ⟨m, st₁, hm, hone, hgrow⟩ := member?_memberBlocks ws hnames hv st (hdata.trans hgrows)
    refine ⟨m, _, v.asDoubles, hblocks ▸ hm, hone, ?_, ?_⟩
    · refine hvalues _ (Keyed.mem_of_find? hv) q hq rfl _ st₁ h _
        (hgrow.trans (hdata.trans hgrows)) fun l hl => ?_
      rcases List.mem_cons.1 hl with rfl | hl
      · exact hgrow.size
      · exact hgrow.size.trans (hdata.size.trans (hpath l hl))
    · rw [find?_membersAsDoubles, hv]
      rfl
  obtain ⟨r, hread, hsorted, hfind⟩ :=
    readFields_of_members (membersAsDoubles members) hfields List.Pairwise.nil
  have heq : r = membersAsDoubles members := by
    refine hsorted.ext (ordered_membersAsDoubles hordered) fun key => ?_
    rw [hfind key]
    split
    · rfl
    · rename_i hkey
      rw [find?_membersAsDoubles, Keyed.find?_eq_none fun hmem => hkey ((hkeys key).1 hmem)]
      rfl
  simp only [Store.data, Store.alloc, Block.ofStack] at henter ⊢
  rw [Signature.readAt, henter, asDoubles, ← heq]
  simp only [bind, Except.bind, hread, pure, Except.pure]

/-- Every proper value with the shape of a signature is read back. -/
theorem HasShape.readsBack {v : Json} {s : Signature} (hshape : v.HasShape s) (hproper : v.Proper) :
    ReadsBack ws s v := by
  induction hshape with
  | number n =>
    cases hproper with
    | number h => exact readsBack_number h
  | string _ =>
    intro _ _ _ _ _ _
    rw [toBlock, Signature.readAt, asDoubles]
  | bool _ =>
    intro _ _ _ _ _ _
    rw [toBlock, Signature.readAt, asDoubles]
  | null fields =>
    intro _ _ _ _ _ _
    rw [toBlock, asDoubles]
    simp only [Store.null, Signature.readAt]
  | array _ ih =>
    cases hproper with
    | array hitems => exact readsBack_array fun item hitem => ih item hitem (hitems item hitem)
  | object hkeys _ ih =>
    cases hproper with
    | object hordered hnames hmembers =>
      exact readsBack_object hkeys hordered hnames fun p hp q hq heq =>
        ih p hp q hq heq (hmembers p hp)

end Reading

/-! ## The round trip -/

/-- Values survive the trip through data blocks: a proper value with exactly the shape of a signature
is read back from its block, whatever the name of the block, the store it is made in and the
workspace. -/
theorem toBlock_read_back (ws : Workspace) {v : Json} {s : Signature} (hshape : v.HasShape s)
    (hproper : v.Proper) (name : String) (st : Store) :
    Signature.read ws (v.toBlock name st).2.heap s (v.toBlock name st).1 = .ok v.asDoubles :=
  hshape.readsBack hproper name st _ [] (.refl _) fun _ hl => by cases hl

/-- A state with rows, one of them empty, and a home that is null. -/
def robot : Json :=
  .object [("home", .null), ("name", .string "Toby"),
    ("rows", .array [.array [], .array [.number (.integer 9007199254740993), .number (.float 0.5)]])]

/-- The shape of the state. -/
def robotShape : Signature :=
  .object [("rows", .arrayOf (.arrayOf .number)), ("home", .object [("x", .number)]),
    ("name", .string)]

/-- A workspace whose stacks have names that stacks inside of the state have. -/
def rowStacks : Workspace × Store :=
  let (b, st) := Store.alloc (.ofSeed 0) (Stack.make "rows" [.boolean true])
  let (c, st) := st.alloc (Stack.make "rowsValue1" [])
  ((Workspace.empty.add b).add c, st)

theorem toBlock_read_back_robot :
    robot.HasShape robotShape ∧ robot.Proper ∧
      Signature.read rowStacks.1 (robot.toBlock "rows" rowStacks.2).2.heap robotShape
        (robot.toBlock "rows" rowStacks.2).1 = .ok robot.asDoubles := by
  have hrows : HasShape (.array [.array [], .array [.number (.integer 9007199254740993),
      .number (.float 0.5)]]) (.arrayOf (.arrayOf .number)) := by
    refine .array ?_
    simp only [List.forall_mem_cons]
    refine ⟨.array (by simp), .array ?_, by simp⟩
    simp only [List.forall_mem_cons]
    exact ⟨.number _, .number _, by simp⟩
  have hshape : robot.HasShape robotShape :=
    .object (by simp; tauto) (by simpa using ⟨.null _, .string _, hrows⟩)
  have hproper : robot.Proper := by
    refine .object (by rw [Keyed.Ordered]; decide +kernel) (by decide) ?_
    simp only [List.forall_mem_cons]
    refine ⟨.null, .string _, .array ?_, by simp⟩
    simp only [List.forall_mem_cons]
    refine ⟨.array (by simp), .array ?_, by simp⟩
    simp only [List.forall_mem_cons]
    exact ⟨.number (by decide +kernel), .number (by decide +kernel), by simp⟩
  exact ⟨hshape, hproper, toBlock_read_back _ hshape hproper _ _⟩

end Json

end BlockMachine
