import BlockMachine.Proofs.Machine.Mapping
import BlockMachine.Proofs.Workspace.DeepCopy
import BlockMachine.Proofs.Workspace.Rereading

/-!
# Data blocks as maps

A member of a data block is a block with a stack of its own; the name of the stack is its key, and
the first block in it is its value. Inserting and replacing by key put a new member where the first
one with that key is, or behind the last block. All versions share the members that stay.

* `Heap.key?`, `Heap.keys`, `Machine.valueIn?` — keys and values: `elementByKey_eq`;
* `Machine.IsMap` — a data block in which no key stands twice; `Machine.Updated` — one key of it is
  changed: `IsMap.setMember`, `IsMap.deleteMember`;
* `KeyedEdit`, `Machine.edit`, `Machine.editAll` — the operators that edit by key, on operands from
  the value stack: `IsMap.edit` is one of them, `IsMap.editAll` any sequence;
* `keyed_edits` — what keys find after edits; `elemAfter_differs` — where that is not what a map
  would give.
-/

namespace BlockMachine

/-! ## Members -/

namespace Heap

/-- The key of a member: the name of its stack. Other blocks have none. -/
def key? (h : Heap) (b : Block) : Option String :=
  b.stack?.map h.nameOf

/-- The keys of the members among blocks, in order. -/
def keys (h : Heap) (bs : List Block) : List String :=
  bs.filterMap h.key?

variable {h h' : Heap} {b : Block} {bs : List Block} {key : String}

theorem keys_append (h : Heap) (l r : List Block) : h.keys (l ++ r) = h.keys l ++ h.keys r :=
  List.filterMap_append

theorem memberIndex?_cons : Machine.memberIndex? h (b :: bs) key =
    if h.key? b = some key then some 0 else (Machine.memberIndex? h bs key).map (· + 1) := by
  have htest : (b.stack?.any fun loc => h.nameOf loc == key) = true ↔ h.key? b = some key := by
    cases hb : b.stack? <;> simp [key?, hb]
  rw [Machine.memberIndex?, List.findIdx?_cons, ← Machine.memberIndex?]
  simp only [htest]

/-- The first member with a key stands behind blocks without it. -/
theorem split_of_memberIndex? (h : Heap) (key : String) (bs : List Block) :
    (Machine.memberIndex? h bs key = none ∧ key ∉ h.keys bs) ∨
      ∃ l x r, Machine.memberIndex? h bs key = some l.length ∧ bs = l ++ x :: r ∧
        h.key? x = some key ∧ key ∉ h.keys l := by
  induction bs with
  | nil => exact .inl ⟨rfl, nofun⟩
  | cons b bs ih =>
    rw [memberIndex?_cons]
    by_cases hb : h.key? b = some key
    · exact .inr ⟨[], b, bs, by simp [hb], rfl, hb, nofun⟩
    have hkeys : ∀ l, key ∉ h.keys l → key ∉ h.keys (b :: l) := by
      intro l hl hmem
      simp only [keys, List.mem_filterMap, List.mem_cons] at hl hmem
      obtain ⟨c, rfl | hc, hkey⟩ := hmem
      · exact hb hkey
      · exact hl ⟨c, hc, hkey⟩
    rw [if_neg hb]
    rcases ih with ⟨hnone, hbs⟩ | ⟨l, x, r, hsome, rfl, hx, hl⟩
    · exact .inl ⟨by rw [hnone]; rfl, hkeys bs hbs⟩
    · exact .inr ⟨b :: l, x, r, by rw [hsome]; rfl, rfl, hx, hkeys l hl⟩

theorem key?_of_grows (hg : h.Grows h') (hb : b.Inside h.size) : h'.key? b = h.key? b := by
  rw [key?, key?]
  cases hstack : b.stack? with
  | none => rfl
  | some loc =>
    have hget := hg.get (hb loc (Block.target?_of_stack? hstack))
    exact congrArg (fun s : Stack => some s.name) hget

theorem keys_of_grows (hg : h.Grows h') (hbs : ∀ b ∈ bs, b.Inside h.size) :
    h'.keys bs = h.keys bs :=
  List.filterMap_congr fun b hb => key?_of_grows hg (hbs b hb)

end Heap

namespace Machine

/-- The value of the first member with a key. -/
def valueIn? (m : Machine) (bs : List Block) (key : String) : Option Block := do
  let b ← bs.find? fun b => m.heap.key? b == some key
  let loc ← m.dataLoc? b
  (m.heap.blocks loc).head?

variable {m n : Machine} {b array member : Block} {bs l r : List Block} {key key' : String}
  {loc : Loc}

/-- A member has its key from the stack that it stands for, bound or not. -/
theorem key?_eq_dataLoc? (m : Machine) (b : Block) :
    m.heap.key? b = (m.dataLoc? b).map m.heap.nameOf := by
  rw [Heap.key?, dataLoc?, resolve]
  cases b with
  | data loc resolved =>
    cases resolved with
    | true => rfl
    | false =>
      simp only [Workspace.resolve]
      cases hfound : m.workspace.find? m.heap (m.heap.nameOf loc) with
      | none => rfl
      | some found => exact congrArg some (Workspace.nameOf_of_find? hfound).symm
  | code name target => cases target <;> rfl
  | _ => rfl

/-- **What a key finds.** The value of the first member with the key, or an error. -/
theorem elementByKey_eq (hloc : m.dataLoc? array = some loc) (l : Localizer) (key : String) :
    m.elementByKey l array (.string key) = some ((m.valueIn? (m.heap.blocks loc) key).getD
      (undefinedProperty l key (m.heap.nameOf loc))) := by
  have hfound : ∀ bs : List Block, (bs.findSome? fun b =>
      (m.dataLoc? b).filter fun member => m.heap.nameOf member == key) =
        (bs.find? fun b => m.heap.key? b == some key).bind m.dataLoc? := by
    intro bs
    induction bs with
    | nil => rfl
    | cons b bs ih =>
      rw [List.findSome?_cons, List.find?_cons, ih, key?_eq_dataLoc?]
      cases hb : m.dataLoc? b with
      | none => rfl
      | some member =>
        rw [Option.filter_some, Option.map_some]
        cases htest : m.heap.nameOf member == key <;> simp [htest, hb]
  simp only [elementByKey, hloc, Block.string?, Option.bind_eq_bind, Option.bind_some, hfound,
    valueIn?, Option.bind_assoc]
  split
  case h_1 value hvalue =>
    rw [hvalue]
    rfl
  case h_2 hnone =>
    rw [hnone]
    rfl

theorem find?_split_of_ne (h : Heap) {x : Block} (hx : h.key? x ≠ some key) :
    ((l ++ x :: r).find? fun b => h.key? b == some key) =
      (l ++ r).find? fun b => h.key? b == some key := by
  rw [List.find?_append, List.find?_append, List.find?_cons_of_neg (by simpa using hx)]

theorem valueIn?_split_of_ne {x : Block} (hx : m.heap.key? x ≠ some key) :
    m.valueIn? (l ++ x :: r) key = m.valueIn? (l ++ r) key := by
  rw [valueIn?, find?_split_of_ne _ hx, valueIn?]

theorem find?_eq_none_of_not_mem_keys {h : Heap} (hkey : key ∉ h.keys bs) :
    (bs.find? fun b => h.key? b == some key) = none := by
  rw [List.find?_eq_none]
  intro b hb
  rw [beq_iff_eq]
  exact fun hmatch => hkey (List.mem_filterMap.2 ⟨b, hb, hmatch⟩)

theorem valueIn?_eq_none (hkey : key ∉ m.heap.keys bs) : m.valueIn? bs key = none := by
  rw [valueIn?, find?_eq_none_of_not_mem_keys hkey]
  rfl

theorem valueIn?_split_self {x : Block} (hx : m.heap.key? x = some key)
    (hl : key ∉ m.heap.keys l) :
    m.valueIn? (l ++ x :: r) key = (m.dataLoc? x).bind fun loc => (m.heap.blocks loc).head? := by
  rw [valueIn?, List.find?_append, find?_eq_none_of_not_mem_keys hl,
    List.find?_cons_of_pos (by simpa using hx)]
  rfl

/-- More stacks change no member. -/
theorem valueIn?_of_holds (hn : Holds m.workspace m.heap n)
    (hws : ∀ loc ∈ m.workspace.locs, loc < m.heap.size) (hbs : ∀ b ∈ bs, b.Inside m.heap.size)
    (key : String) : n.valueIn? bs key = m.valueIn? bs key := by
  obtain ⟨hworkspace, hgrows⟩ := hn
  have hfind : (bs.find? fun b => n.heap.key? b == some key) =
      bs.find? fun b => m.heap.key? b == some key :=
    List.find?_congr fun b hb => by rw [Heap.key?_of_grows hgrows (hbs b hb)]
  rw [valueIn?, valueIn?, hfind]
  cases hfound : bs.find? fun b => m.heap.key? b == some key with
  | none => rfl
  | some b =>
    have hb := hbs b (List.mem_of_find?_eq_some hfound)
    have hresolve : n.dataLoc? b = m.dataLoc? b := by
      rw [dataLoc?, dataLoc?, resolve, resolve, hworkspace,
        Workspace.resolve_of_grows hgrows hws hb]
    simp only [Option.bind_eq_bind, Option.bind_some, hresolve]
    cases hloc : m.dataLoc? b with
    | none => rfl
    | some loc =>
      have hlt := Workspace.inside_resolve hws hb loc (Block.target?_of_stack? hloc)
      simp only [Option.bind_some, Heap.blocks, hgrows.get hlt]

/-! ## Maps -/

/-- A data block with stacks that are there, in which no key stands twice. -/
structure IsMap (m : Machine) (array : Block) (loc : Loc) : Prop where
  data : array.isA .data = true
  stack : m.dataLoc? array = some loc
  mem : loc < m.heap.size
  workspace : ∀ loc ∈ m.workspace.locs, loc < m.heap.size
  inside : ∀ b ∈ m.heap.blocks loc, b.Inside m.heap.size
  distinct : (m.heap.keys (m.heap.blocks loc)).Nodup

/-- A map is a matter of the workspace and the heap. -/
theorem IsMap.of_eq (h : m.IsMap array loc) (hworkspace : n.workspace = m.workspace)
    (hheap : n.heap = m.heap) : n.IsMap array loc := by
  obtain ⟨hdata, hstack, hmem, hws, hinside, hdistinct⟩ := h
  rw [← hheap] at hmem hws hinside hdistinct
  rw [← hworkspace] at hws
  refine ⟨hdata, ?_, hmem, hws, hinside, hdistinct⟩
  rwa [dataLoc?, resolve, hworkspace, hheap]

/-- The map at `loc'` in `n` is the one at `loc` in `m` with the value `v` for a key, or without the
key. -/
structure Updated (m : Machine) (loc : Loc) (key : String) (v : Option Block) (n : Machine)
    (array : Block) (loc' : Loc) : Prop where
  map : n.IsMap array loc'
  values : n.values = m.values
  self : n.valueIn? (n.heap.blocks loc') key = v
  others : ∀ other, other ≠ key →
    n.valueIn? (n.heap.blocks loc') other = m.valueIn? (m.heap.blocks loc) other
  keys : ∀ other, other ∈ n.heap.keys (n.heap.blocks loc') ↔
    if other = key then v.isSome = true else other ∈ m.heap.keys (m.heap.blocks loc)

/-- A new version is a map if no key stands twice in its blocks. -/
theorem isMap_newVersion (loc : Loc) (edit : List Block → List Block)
    (hws : ∀ loc ∈ m.workspace.locs, loc < m.heap.size)
    (hinside : ∀ b ∈ edit (m.heap.blocks loc), b.Inside m.heap.size)
    (hdistinct : (m.heap.keys (edit (m.heap.blocks loc))).Nodup) :
    ∃ array' loc' n, m.newVersion loc edit = (array', n) ∧ n.IsMap array' loc' ∧
      n.values = m.values ∧
      n.heap.keys (n.heap.blocks loc') = m.heap.keys (edit (m.heap.blocks loc)) ∧
      ∀ key, n.valueIn? (n.heap.blocks loc') key = m.valueIn? (edit (m.heap.blocks loc)) key := by
  obtain ⟨n, hversion, hpassed, hsize, hget⟩ := newVersion_eq loc edit m
  have hblocks : n.heap.blocks m.heap.size = edit (m.heap.blocks loc) := by
    rw [Heap.blocks, hget]
    rfl
  refine ⟨_, m.heap.size, n, hversion, ⟨rfl, rfl, hsize, ?_, ?_, ?_⟩, hpassed.values, ?_, ?_⟩
  · rw [hpassed.holds.1]
    exact fun loc hloc => Nat.lt_of_lt_of_le (hws loc hloc) hpassed.holds.2.size
  · rw [hblocks]
    exact fun b hb => (hinside b hb).mono hpassed.holds.2.size
  · rwa [hblocks, Heap.keys_of_grows hpassed.holds.2 hinside]
  · rw [hblocks, Heap.keys_of_grows hpassed.holds.2 hinside]
  · rw [hblocks]
    exact valueIn?_of_holds hpassed.holds hws hinside

theorem keys_split (h : Heap) (l : List Block) (x : Block) (r : List Block) :
    h.keys (l ++ x :: r) = h.keys l ++ ((h.key? x).toList ++ h.keys r) := by
  simp only [Heap.keys, List.filterMap_append, List.filterMap_cons]
  cases h.key? x <;> rfl

/-- The blocks of `l` and `r`, and between them the first member with a key if there is one. -/
def Around (h : Heap) (key : String) (l r bs : List Block) : Prop :=
  (bs = l ++ r ∧ key ∉ h.keys bs) ∨ ∃ x, bs = l ++ x :: r ∧ h.key? x = some key

/-- A member takes the place of the first one with its key, or comes last. -/
theorem placed_split (h : Heap) (key : String) (bs : List Block) (member : Block) :
    ∃ l r, (match memberIndex? h bs key with
        | some i => bs.set i member
        | none => bs ++ [member]) = l ++ member :: r ∧ key ∉ h.keys l ∧ Around h key l r bs := by
  rcases h.split_of_memberIndex? key bs with ⟨hnone, hbs⟩ | ⟨l, x, r, hsome, rfl, hx, hl⟩
  · exact ⟨bs, [], by rw [hnone], hbs, .inl ⟨(List.append_nil bs).symm, hbs⟩⟩
  · refine ⟨l, r, ?_, hl, .inr ⟨x, rfl, hx⟩⟩
    rw [hsome]
    simp

theorem Around.mem {h : Heap} (hbs : Around h key l r bs) (hb : b ∈ l ++ r) : b ∈ bs := by
  rcases hbs with ⟨rfl, -⟩ | ⟨x, rfl, -⟩
  · exact hb
  · rw [List.mem_append] at hb ⊢
    exact hb.imp_right (List.mem_cons_of_mem x)

theorem Around.nodup_keys {h : Heap} (hbs : Around h key l r bs)
    (hmember : h.key? member = some key) (hdistinct : (h.keys bs).Nodup) :
    (h.keys (l ++ member :: r)).Nodup := by
  rw [keys_split, hmember]
  rcases hbs with ⟨rfl, hkey⟩ | ⟨x, rfl, hx⟩
  · rw [Heap.keys_append] at hkey hdistinct
    exact List.nodup_middle.2 (List.nodup_cons.2 ⟨hkey, hdistinct⟩)
  · rwa [keys_split, hx] at hdistinct

theorem mem_keys_split {h : Heap} {x : Block} (hx : h.key? x = some key) (other : String) :
    other ∈ h.keys (l ++ x :: r) ↔ other = key ∨ other ∈ h.keys (l ++ r) := by
  rw [keys_split, hx, Heap.keys_append]
  simp only [List.mem_append, Option.toList_some, List.mem_singleton]
  tauto

/-- Other keys are those that stand around a member. -/
theorem Around.mem_keys_of_ne {h : Heap} (hbs : Around h key l r bs) {other : String}
    (hother : other ≠ key) : other ∈ h.keys bs ↔ other ∈ h.keys (l ++ r) := by
  rcases hbs with ⟨rfl, -⟩ | ⟨x, rfl, hx⟩
  · rfl
  · rw [mem_keys_split hx, or_iff_right hother]

/-- Other keys find what stands around a member. -/
theorem Around.valueIn?_of_ne (hbs : Around m.heap key l r bs) {other : String}
    (hother : other ≠ key) : m.valueIn? bs other = m.valueIn? (l ++ r) other := by
  rcases hbs with ⟨rfl, -⟩ | ⟨x, rfl, hx⟩
  · rfl
  · refine valueIn?_split_of_ne fun hxother => ?_
    exact hother (Option.some.inj (hxother.symm.trans hx))

theorem IsMap.setMember_eq (h : m.IsMap array loc) (key : String) (value : Block) :
    m.setMember array value (.string key) =
      let (b, n) := (m.newData key [value]).2.newVersion loc fun blocks =>
        match memberIndex? (m.newData key [value]).2.heap
            ((m.newData key [value]).2.heap.blocks loc) key with
        | some i => blocks.set i (.data m.heap.size true)
        | none => blocks ++ [.data m.heap.size true]
      (some b, n) := by
  simp only [Machine.setMember, h.stack]
  rfl

theorem IsMap.deleteMember_eq (h : m.IsMap array loc) (l : Localizer) (key : String) :
    m.deleteMember l array (.string key) =
      match memberIndex? m.heap (m.heap.blocks loc) key with
      | some i =>
        let (b, n) := m.newVersion loc fun blocks => blocks.eraseIdx i
        (some b, n)
      | none => (some (undefinedProperty l key (m.heap.shown l array)), m) := by
  simp only [Machine.deleteMember, h.stack]
  rfl

/-- **Setting a member.** The key has the value afterwards, and the others have what they had. The
key is not empty, since a stack without a name gets another one. -/
theorem IsMap.setMember (h : m.IsMap array loc) (hkey : key ≠ "") (value : Block) :
    ∃ array' loc' n, m.setMember array value (.string key) = (some array', n) ∧
      Updated m loc key (some value) n array' loc' := by
  -- the member is a new stack, and what was there before is as it was
  have hget : (m.newData key [value]).2.heap.get m.heap.size = Stack.make key [value] :=
    Heap.get_alloc_size _ _
  have hsize : m.heap.size < (m.newData key [value]).2.heap.size := Heap.size_lt_alloc _ _
  have hholds : Holds m.workspace m.heap (m.newData key [value]).2 := ⟨rfl, .alloc _ _⟩
  have hvalues : (m.newData key [value]).2.values = m.values := rfl
  have hset := h.setMember_eq key value
  generalize (m.newData key [value]).2 = p at hset hget hsize hholds hvalues
  have hblocks : p.heap.blocks loc = m.heap.blocks loc :=
    congrArg Stack.blocks (hholds.2.get h.mem)
  have hinside : ∀ b ∈ p.heap.blocks loc, b.Inside p.heap.size := fun b hb =>
    (h.inside b (hblocks ▸ hb)).mono hholds.2.size
  have hdistinct : (p.heap.keys (p.heap.blocks loc)).Nodup := by
    rw [hblocks, Heap.keys_of_grows hholds.2 h.inside]
    exact h.distinct
  have hws : ∀ loc ∈ p.workspace.locs, loc < p.heap.size := by
    rw [hholds.1]
    exact fun loc hloc => Nat.lt_trans (h.workspace loc hloc) hsize
  have hmember : p.heap.key? (.data m.heap.size true) = some key := by
    simp [Heap.key?, Block.stack?, Heap.nameOf, hget, Stack.make, hkey]
  have hfound : (p.dataLoc? (.data m.heap.size true)).bind (fun loc => (p.heap.blocks loc).head?) =
      some value := by
    change (p.heap.get m.heap.size).blocks.head? = _
    rw [hget]
    rfl
  obtain ⟨l, r, hplaced, hl, haround⟩ :=
    placed_split p.heap key (p.heap.blocks loc) (.data m.heap.size true)
  obtain ⟨array', loc', n, hversion, hmap, hvalues', hkeys, hfind⟩ := isMap_newVersion (m := p) loc
    (fun blocks => match memberIndex? p.heap (p.heap.blocks loc) key with
      | some i => blocks.set i (.data m.heap.size true)
      | none => blocks ++ [.data m.heap.size true]) hws
    (by
      rw [hplaced]
      intro b hb
      rcases List.mem_cons.1 (List.perm_middle.mem_iff.1 hb) with rfl | hb
      · rintro _ ⟨⟩
        exact hsize
      · exact hinside b (haround.mem hb))
    (by
      rw [hplaced]
      exact haround.nodup_keys hmember hdistinct)
  rw [hversion] at hset
  refine ⟨array', loc', n, hset, hmap, hvalues'.trans hvalues, ?_, fun other hother => ?_,
    fun other => ?_⟩
  · rw [hfind, hplaced, valueIn?_split_self hmember hl, hfound]
  · have hne : p.heap.key? (.data m.heap.size true) ≠ some other := by
      rw [hmember]
      exact fun heq => hother (Option.some.inj heq).symm
    rw [hfind, hplaced, valueIn?_split_of_ne hne, ← haround.valueIn?_of_ne hother, hblocks,
      valueIn?_of_holds hholds h.workspace h.inside]
  · rw [hkeys, hplaced, mem_keys_split hmember]
    by_cases hother : other = key
    · simp [hother]
    · rw [if_neg hother, or_iff_right hother, ← haround.mem_keys_of_ne hother, hblocks,
        Heap.keys_of_grows hholds.2 h.inside]

/-- **Deleting a member.** The key is not there afterwards, and the others have what they had. If it
was not there before, the answer is an error. -/
theorem IsMap.deleteMember (h : m.IsMap array loc) (l : Localizer) (key : String) :
    (key ∈ m.heap.keys (m.heap.blocks loc) ∧ ∃ array' loc' n,
        m.deleteMember l array (.string key) = (some array', n) ∧
          Updated m loc key none n array' loc') ∨
      key ∉ m.heap.keys (m.heap.blocks loc) ∧ ∃ message,
        m.deleteMember l array (.string key) = (some (.error message), m) := by
  have hdelete := h.deleteMember_eq l key
  rcases m.heap.split_of_memberIndex? key (m.heap.blocks loc) with
    ⟨hnone, hkey⟩ | ⟨before, x, after, hsome, hbs, hx, hbefore⟩
  · rw [hnone] at hdelete
    exact .inr ⟨hkey, _, hdelete⟩
  · rw [hsome] at hdelete
    have hedit : (m.heap.blocks loc).eraseIdx before.length = before ++ after := by
      rw [hbs, List.eraseIdx_append_of_length_le (Nat.le_refl _), Nat.sub_self,
        List.eraseIdx_cons_zero]
    have haround : Around m.heap key before after (m.heap.blocks loc) := .inr ⟨x, hbs, hx⟩
    obtain ⟨hnot, hrest⟩ : key ∉ m.heap.keys (before ++ after) ∧
        (m.heap.keys (before ++ after)).Nodup := by
      have hdistinct := h.distinct
      rw [hbs, keys_split, hx] at hdistinct
      rw [Heap.keys_append]
      exact List.nodup_cons.1 (List.nodup_middle.1 hdistinct)
    obtain ⟨array', loc', n, hversion, hmap, hvalues, hkeys, hfind⟩ := isMap_newVersion loc
      (fun blocks => blocks.eraseIdx before.length) h.workspace
      (by
        rw [hedit]
        exact fun b hb => h.inside b (haround.mem hb))
      (by rwa [hedit])
    rw [hedit] at hfind
    simp only [hversion] at hdelete
    refine .inl ⟨?_, array', loc', n, hdelete, hmap, hvalues, ?_, fun other hother => ?_,
      fun other => ?_⟩
    · rw [hbs, mem_keys_split hx]
      exact .inl rfl
    · rw [hfind, valueIn?_eq_none hnot]
    · rw [hfind, ← haround.valueIn?_of_ne hother]
    · rw [hkeys, hedit]
      by_cases hother : other = key
      · simpa [hother] using hnot
      · rw [if_neg hother, haround.mem_keys_of_ne hother]

end Machine

/-! ## Edits by key -/

/-- What is done to a data block by key. -/
inductive KeyedEdit where
  | insert (key : String) (value : Block)
  | replace (key : String) (value : Block)
  | delete (key : String)

namespace KeyedEdit

def operator : KeyedEdit → Operator
  | .insert .. => .insert
  | .replace .. => .replace
  | .delete _ => .delete

def key : KeyedEdit → String
  | .insert key _ => key
  | .replace key _ => key
  | .delete key => key

/-- The value that the key has afterwards. -/
def value? : KeyedEdit → Option Block
  | .insert _ value => some value
  | .replace _ value => some value
  | .delete _ => none

/-- The operands behind the data block. -/
def operands (e : KeyedEdit) : List Block :=
  e.value?.toList ++ [.string e.key]

/-- The last edit of a key. -/
def last? (es : List KeyedEdit) (key : String) : Option KeyedEdit :=
  es.reverse.find? fun e => e.key == key

theorem last?_cons (e : KeyedEdit) (es : List KeyedEdit) (key : String) :
    last? (e :: es) key = (last? es key).or (if e.key = key then some e else none) := by
  rw [last?, List.reverse_cons, List.find?_append, ← last?, List.find?_singleton]
  simp only [beq_iff_eq]

end KeyedEdit

namespace Machine

/-- What an operator answers if it finds its operands on the value stack, bottom first, and the
machine once the answer is taken. -/
def answer (d : Discipline) (env : Environment) (op : Operator) (operands : List Block)
    (m : Machine) : Option Block × Machine :=
  ((m.pushAll operands).evaluate d env (.operator op)).pop none

/-- Edits a data block. If the answer is an error, the block stays as it is. -/
def edit (d : Discipline) (env : Environment) (e : KeyedEdit) (array : Block) (m : Machine) :
    Block × Machine :=
  match m.answer d env e.operator (array :: e.operands) with
  | (some b, m) => if b.isA .data then (b, m) else (array, m)
  | (none, m) => (array, m)

/-- Edits a data block and what comes of it, in order. -/
def editAll (d : Discipline) (env : Environment) : List KeyedEdit → Block → Machine →
    Block × Machine
  | [], array, m => (array, m)
  | e :: es, array, m =>
    let (array, m) := m.edit d env e array
    editAll d env es array m

section Edits

variable {d : Discipline} {env : Environment} {m n p : Machine} {array array' : Block}
  {loc loc' : Loc} {key : String} {v : Option Block}

/-- What an operator gives is its answer, once it has its operands. -/
theorem answer_of_evaluate {op : Operator} {operands : List Block} {overload : Nat}
    (hmoved : Moved (m.pushAll operands) m.values (m.pushAll operands).active.program p)
    (heval : (m.pushAll operands).evaluate d env (.operator op) =
      match p.operate d env (.operator op) op overload operands with
      | (some b, n) => n.push b
      | (none, n) => n) :
    Same m p ∧ ∀ {b : Block} {n : Machine},
      p.operate d env (.operator op) op overload operands = (some b, n) →
        ∃ n', m.answer d env op operands = (some b, n') ∧ Same n n' := by
  have hpushed := moved_pushAll operands m
  rw [hpushed.active] at hmoved
  refine ⟨(hpushed.trans hmoved).same, fun {b n} hoperate => ?_⟩
  have hpop : ((n.push b).pop none).1 = some b := by
    rw [pop, push_values]
  have hback := (moved_push b n).trans (moved_pop none (n.push b))
  rw [push_values, List.tail_cons] at hback
  rw [hoperate] at heval
  refine ⟨((n.push b).pop none).2, ?_, hback.same⟩
  rw [answer, heval]
  exact Prod.ext hpop rfl

/-- The answer of an operator to operands that fit one of its lists of tags. -/
theorem answer_of_operate (d : Discipline) (env : Environment) (op : Operator) (m : Machine)
    {combinations : List (List Tag)} {operands : List Block} {overload : Nat}
    (hsig : op.info.signature = .overloaded combinations)
    (harity : (combinations.head?.map List.length).getD 0 = operands.length)
    (hfit : (combinations.findIdx? fun tags => fits tags operands) = some overload) :
    ∃ p, Same m p ∧ ∀ {b : Block} {n : Machine},
      p.operate d env (.operator op) op overload operands = (some b, n) →
        ∃ n', m.answer d env op operands = (some b, n') ∧ Same n n' := by
  obtain ⟨p, hmoved, heval⟩ :=
    evaluate_overloaded hsig harity hfit (moved_pushAll operands m).values d env
  exact ⟨p, answer_of_evaluate hmoved heval⟩

/-- The answer of an operator to operands that fit its only list of tags. -/
theorem answer_of_operate_fixed (d : Discipline) (env : Environment) (op : Operator) (m : Machine)
    {tags : List Tag} {operands : List Block} (hsig : op.info.signature = .fixed tags)
    (hfit : fits tags operands = true) :
    ∃ p, Same m p ∧ ∀ {b : Block} {n : Machine},
      p.operate d env (.operator op) op 0 operands = (some b, n) →
        ∃ n', m.answer d env op operands = (some b, n') ∧ Same n n' := by
  obtain ⟨p, hmoved, heval⟩ :=
    evaluate_fixed hsig hfit (moved_pushAll operands m).values d env
  exact ⟨p, answer_of_evaluate hmoved heval⟩

/-- A key fits the second list of tags. -/
theorem findIdx?_fits_keyed (harray : array.isA .data = true) (key : String) :
    ([[Tag.data, .number], [.data, .string]].findIdx? fun tags =>
      fits tags [array, .string key]) = some 1 := by
  have hnumber : (Block.string key).isA .number = false := rfl
  have hstring : (Block.string key).isA .string = true := rfl
  simp [List.findIdx?_cons, fits, harray, hnumber, hstring]

theorem findIdx?_fits_valued (harray : array.isA .data = true) (value : Block) (key : String) :
    ([[Tag.data, .block, .number], [.data, .block, .string]].findIdx? fun tags =>
      fits tags [array, value, .string key]) = some 1 := by
  have hblock : value.isA .block = true := rfl
  have hnumber : (Block.string key).isA .number = false := rfl
  have hstring : (Block.string key).isA .string = true := rfl
  simp [List.findIdx?_cons, fits, harray, hblock, hnumber, hstring]

theorem IsMap.same (h : m.IsMap array loc) (hn : Same m n) : n.IsMap array loc :=
  h.of_eq hn.workspace.symm (alike_congruent.heap hn).symm

theorem valueIn?_same (hn : Same m n) (bs : List Block) (key : String) :
    n.valueIn? bs key = m.valueIn? bs key := by
  have hheap : n.heap = m.heap := (alike_congruent.heap hn).symm
  have hresolve : n.dataLoc? = m.dataLoc? :=
    funext fun b => congrArg Block.stack? (alike_congruent.resolve hn b).symm
  rw [valueIn?, valueIn?, hheap, hresolve]

/-- Machines that are the same hold the same maps. -/
theorem Updated.same (h : Updated p loc key v n array' loc') (hm : Same m p) {n' : Machine}
    (hn : Same n n') : Updated m loc key v n' array' loc' := by
  obtain ⟨hmap, hvalues, hself, hothers, hkeys⟩ := h
  have hheap : n'.heap = n.heap := (alike_congruent.heap hn).symm
  have hheap' : p.heap = m.heap := (alike_congruent.heap hm).symm
  refine ⟨hmap.same hn, hn.values.symm.trans (hvalues.trans hm.values.symm), ?_, ?_, ?_⟩
  · rw [hheap, valueIn?_same hn, hself]
  · intro other hother
    rw [hheap, valueIn?_same hn, hothers other hother, hheap', valueIn?_same hm]
  · rw [hheap, ← hheap']
    exact hkeys

/-- Inserting and replacing by key both set a member. -/
theorem IsMap.answer_set (h : m.IsMap array loc) (d : Discipline) (env : Environment)
    {op : Operator} (hop : op = .insert ∨ op = .replace) (hkey : key ≠ "") (value : Block) :
    ∃ array' loc' n, m.answer d env op [array, value, .string key] = (some array', n) ∧
      Updated m loc key (some value) n array' loc' := by
  have hsig : op.info.signature = .overloaded
      [[.data, .block, .number], [.data, .block, .string]] := by
    rcases hop with rfl | rfl <;> rfl
  have hoperate : ∀ p : Machine, p.operate d env (.operator op) op 1 [array, value, .string key] =
      p.setMember array value (.string key) := by
    rcases hop with rfl | rfl <;> exact fun p => rfl
  obtain ⟨p, hp, hanswer⟩ :=
    answer_of_operate d env op m hsig rfl (findIdx?_fits_valued h.data value key)
  obtain ⟨array', loc', n, hset, hupdated⟩ := (h.same hp).setMember hkey value
  obtain ⟨n', hanswer', hn'⟩ := hanswer ((hoperate p).trans hset)
  exact ⟨array', loc', n', hanswer', hupdated.same hp hn'⟩

/-- Deleting by key deletes a member, or finds none. -/
theorem IsMap.answer_delete (h : m.IsMap array loc) (d : Discipline) (env : Environment)
    (key : String) :
    (key ∈ m.heap.keys (m.heap.blocks loc) ∧ ∃ array' loc' n,
        m.answer d env .delete [array, .string key] = (some array', n) ∧
          Updated m loc key none n array' loc') ∨
      key ∉ m.heap.keys (m.heap.blocks loc) ∧ ∃ message n,
        m.answer d env .delete [array, .string key] = (some (.error message), n) ∧
          Updated m loc key none n array loc := by
  obtain ⟨p, hp, hanswer⟩ :=
    answer_of_operate d env .delete m rfl rfl (findIdx?_fits_keyed h.data key)
  have hheap : p.heap = m.heap := (alike_congruent.heap hp).symm
  rw [← hheap]
  rcases (h.same hp).deleteMember env.localizer key with
    ⟨hkey, array', loc', n, hdelete, hupdated⟩ | ⟨hkey, message, hdelete⟩
  · obtain ⟨n', hanswer', hn'⟩ := hanswer hdelete
    exact .inl ⟨hkey, array', loc', n', hanswer', hupdated.same hp hn'⟩
  · obtain ⟨n', hanswer', hn'⟩ := hanswer hdelete
    have hunchanged : Updated p loc key none p array loc := by
      refine ⟨h.same hp, rfl, valueIn?_eq_none hkey, fun other hother => rfl, fun other => ?_⟩
      by_cases hother : other = key
      · simpa [hother] using hkey
      · rw [if_neg hother]
    exact .inr ⟨hkey, message, n', hanswer', hunchanged.same hp hn'⟩

/-- The value of a key is found, or there is an error. -/
theorem IsMap.answer_elem (h : m.IsMap array loc) (d : Discipline) (env : Environment)
    (key : String) : (m.answer d env .elem [array, .string key]).1 =
      some ((m.valueIn? (m.heap.blocks loc) key).getD
        (undefinedProperty env.localizer key (m.heap.nameOf loc))) := by
  obtain ⟨p, hp, hanswer⟩ :=
    answer_of_operate d env .elem m rfl rfl (findIdx?_fits_keyed h.data key)
  have hheap : p.heap = m.heap := (alike_congruent.heap hp).symm
  have helem := elementByKey_eq (h.same hp).stack env.localizer key
  rw [valueIn?_same hp, hheap] at helem
  obtain ⟨n, hn, -⟩ := hanswer (Prod.ext helem rfl)
  rw [hn]

theorem edit_of_answer {e : KeyedEdit} {b : Block}
    (hanswer : m.answer d env e.operator (array :: e.operands) = (some b, n))
    (hb : b.isA .data = true) : m.edit d env e array = (b, n) := by
  rw [edit, hanswer]
  exact if_pos hb

theorem edit_of_error {e : KeyedEdit} {message : String}
    (hanswer : m.answer d env e.operator (array :: e.operands) = (some (.error message), n)) :
    m.edit d env e array = (array, n) := by
  rw [edit, hanswer]
  rfl

/-- **An edit** gives the key its value, or takes it away, and leaves the other keys alone. An error
is answered where a key is to be deleted that is not there. -/
theorem IsMap.edit (h : m.IsMap array loc) (d : Discipline) (env : Environment) (e : KeyedEdit)
    (hkey : e.value?.isSome = true → e.key ≠ "") :
    (∃ array' loc' n, m.edit d env e array = (array', n) ∧
        Updated m loc e.key e.value? n array' loc') ∧
      ((∃ message, (m.answer d env e.operator (array :: e.operands)).1 = some (.error message)) ↔
        e.value? = none ∧ e.key ∉ m.heap.keys (m.heap.blocks loc)) := by
  have hset : ∀ {array' : Block} {loc' : Loc} {n : Machine},
      m.answer d env e.operator (array :: e.operands) = (some array', n) →
      Updated m loc e.key e.value? n array' loc' →
        (∃ array' loc' n, m.edit d env e array = (array', n) ∧
          Updated m loc e.key e.value? n array' loc') ∧
        ¬ ∃ message,
          (m.answer d env e.operator (array :: e.operands)).1 = some (.error message) := by
    intro array' loc' n hanswer hupdated
    refine ⟨⟨array', loc', n, edit_of_answer hanswer hupdated.map.data, hupdated⟩, ?_⟩
    rintro ⟨message, herror⟩
    rw [hanswer] at herror
    have hdata := hupdated.map.data
    rw [Option.some.inj herror] at hdata
    cases hdata
  cases e with
  | insert key value =>
    obtain ⟨array', loc', n, hanswer, hupdated⟩ := h.answer_set d env (.inl rfl) (hkey rfl) value
    exact (hset hanswer hupdated).imp_right fun hno => iff_of_false hno nofun
  | replace key value =>
    obtain ⟨array', loc', n, hanswer, hupdated⟩ := h.answer_set d env (.inr rfl) (hkey rfl) value
    exact (hset hanswer hupdated).imp_right fun hno => iff_of_false hno nofun
  | delete key =>
    rcases h.answer_delete d env key with
      ⟨hmem, array', loc', n, hanswer, hupdated⟩ | ⟨hmem, message, n, hanswer, hupdated⟩
    · exact (hset hanswer hupdated).imp_right fun hno => iff_of_false hno fun h => h.2 hmem
    · have herror := congrArg Prod.fst hanswer
      exact ⟨⟨array, loc, n, edit_of_error hanswer, hupdated⟩,
        iff_of_true ⟨message, herror⟩ ⟨rfl, hmem⟩⟩

/-- **Edits, one after another.** A key has what its last edit left, or what it had. -/
theorem IsMap.editAll (d : Discipline) (env : Environment) (es : List KeyedEdit)
    (hkeys : ∀ e ∈ es, e.value?.isSome = true → e.key ≠ "") :
    ∀ {m : Machine} {array : Block} {loc : Loc}, m.IsMap array loc →
      ∃ array' loc' n, m.editAll d env es array = (array', n) ∧ n.IsMap array' loc' ∧
        n.values = m.values ∧ ∀ key,
          (n.valueIn? (n.heap.blocks loc') key =
            match KeyedEdit.last? es key with
            | some e => e.value?
            | none => m.valueIn? (m.heap.blocks loc) key) ∧
          (key ∈ n.heap.keys (n.heap.blocks loc') ↔
            match KeyedEdit.last? es key with
            | some e => e.value?.isSome = true
            | none => key ∈ m.heap.keys (m.heap.blocks loc)) := by
  induction es with
  | nil =>
    intro m array loc h
    exact ⟨array, loc, m, rfl, h, rfl, fun key => ⟨rfl, .rfl⟩⟩
  | cons e es ih =>
    intro m array loc h
    obtain ⟨array₁, loc₁, m₁, hedit, hupdated⟩ := (h.edit d env e (hkeys e List.mem_cons_self)).1
    obtain ⟨array', loc', n, hall, hmap, hvalues, hlaws⟩ :=
      ih (fun e he => hkeys e (List.mem_cons_of_mem _ he)) hupdated.map
    refine ⟨array', loc', n, ?_, hmap, hvalues.trans hupdated.values, fun key => ?_⟩
    · rw [Machine.editAll, hedit]
      exact hall
    · obtain ⟨hfind, hmem⟩ := hlaws key
      rw [hfind, hmem, KeyedEdit.last?_cons]
      cases KeyedEdit.last? es key with
      | some e' => exact ⟨rfl, .rfl⟩
      | none =>
        rw [Option.none_or]
        by_cases hkey : e.key = key
        · subst hkey
          rw [if_pos rfl]
          exact ⟨hupdated.self, by simpa using hupdated.keys e.key⟩
        · rw [if_neg hkey]
          refine ⟨hupdated.others key (Ne.symm hkey), ?_⟩
          simpa [Ne.symm hkey] using hupdated.keys key

/-- **Data blocks are maps.** Take a data block in which no key stands twice, and edit it by key,
never setting the empty key. No key stands twice afterwards. A key is there if its last edit set it,
or if it was there and was never edited. Its value is found then: the last one set, or the one that
was found before. Otherwise there is an error, with the name of the version that was asked. Edits
are answered by an error where a key is to be deleted that is not there. -/
theorem keyed_edits (d : Discipline) (env : Environment) (hm : m.Sound)
    (hdata : array.isA .data = true) (hknown : m.Knows array) (hloc : m.dataLoc? array = some loc)
    (hdistinct : (m.heap.keys (m.heap.blocks loc)).Nodup) (es : List KeyedEdit)
    (hkeys : ∀ e ∈ es, e.value?.isSome = true → e.key ≠ "") :
    ∃ array' m' loc', m.editAll d env es array = (array', m') ∧ array'.isA .data = true ∧
      m'.dataLoc? array' = some loc' ∧ (m'.heap.keys (m'.heap.blocks loc')).Nodup ∧
      (∀ key, key ∈ m'.heap.keys (m'.heap.blocks loc') ↔
        match KeyedEdit.last? es key with
        | some e => e.value?.isSome = true
        | none => key ∈ m.heap.keys (m.heap.blocks loc)) ∧
      (∀ key, ∃ found : Option Block,
        (m.answer d env .elem [array, .string key]).1 =
          some (found.getD (undefinedProperty env.localizer key (m.heap.nameOf loc))) ∧
        (m'.answer d env .elem [array', .string key]).1 =
          some ((match KeyedEdit.last? es key with
            | some e => e.value?
            | none => found).getD
              (undefinedProperty env.localizer key (m'.heap.nameOf loc')))) ∧
      ∀ e : KeyedEdit, (e.value?.isSome = true → e.key ≠ "") →
        ((∃ message, (m'.answer d env e.operator (array' :: e.operands)).1 =
            some (.error message)) ↔
          e.value? = none ∧ e.key ∉ m'.heap.keys (m'.heap.blocks loc')) := by
  have hmap : m.IsMap array loc := by
    refine ⟨hdata, hloc, ?_, hm.world.workspace, fun b hb => hm.blocks hb, hdistinct⟩
    exact Workspace.inside_resolve hm.world.workspace hknown loc (Block.target?_of_stack? hloc)
  obtain ⟨array', loc', m', hall, hmap', -, hlaws⟩ := hmap.editAll d env es hkeys
  refine ⟨array', m', loc', hall, hmap'.data, hmap'.stack, hmap'.distinct,
    fun key => (hlaws key).2, fun key => ⟨_, hmap.answer_elem d env key, ?_⟩,
    fun e he => (hmap'.edit d env e he).2⟩
  rw [hmap'.answer_elem d env key, (hlaws key).1]

end Edits

/-! ### An empty data block -/

/-- A machine with an empty data block. -/
def emptyObject : Machine :=
  (newData "obj" [] (make 10 Workspace.empty (World.ofSeed 0))).2

theorem sound_emptyObject : emptyObject.Sound := by
  have hclosed : World.Closed Workspace.empty (World.ofSeed 0) := by
    refine ⟨by simp [Workspace.empty], fun loc b hb => ?_, fun _ hp => absurd hp List.not_mem_nil⟩
    rw [Heap.blocks, Heap.get_of_size_le _ (Nat.zero_le loc)] at hb
    cases hb
  exact ((sound_make hclosed 10).newData "obj" [] (by simp)).1.1

/-- How runs do what a step asks for. -/
def standardDiscipline : Discipline :=
  splicing Environment.standard (run Environment.standard)

/-- The empty data block after edits. -/
def emptyObjectAfter (es : List KeyedEdit) : Block × Machine :=
  emptyObject.editAll standardDiscipline Environment.standard es (.data 0 true)

/-- What a key finds then. -/
def elemAfter (es : List KeyedEdit) (key : String) : Option Block :=
  ((emptyObjectAfter es).2.answer standardDiscipline Environment.standard .elem
    [(emptyObjectAfter es).1, .string key]).1

/-- Of two keys that are set, one is deleted; the other one is found. -/
theorem keyed_edits_emptyObject :
    emptyObject.Sound ∧ (emptyObject.heap.keys (emptyObject.heap.blocks 0)).Nodup ∧
      elemAfter [.insert "x" (.boolean true), .replace "y" (.boolean false), .delete "x"] "y" =
        some (.boolean false) ∧
      ∃ name, elemAfter [.insert "x" (.boolean true), .replace "y" (.boolean false), .delete "x"]
        "x" = some (undefinedProperty .plain "x" name) := by
  have hdistinct : (emptyObject.heap.keys (emptyObject.heap.blocks 0)).Nodup := by
    decide +kernel
  have hknown : emptyObject.Knows (.data 0 true) := by
    rintro _ ⟨⟩
    decide
  obtain ⟨array', m', loc', hall, -, -, -, -, helem, -⟩ :=
    keyed_edits standardDiscipline Environment.standard sound_emptyObject rfl hknown rfl hdistinct
      [.insert "x" (.boolean true), .replace "y" (.boolean false), .delete "x"] (by decide)
  have hafter : emptyObjectAfter [.insert "x" (.boolean true), .replace "y" (.boolean false),
      .delete "x"] = (array', m') := hall
  obtain ⟨_, _, hy⟩ := helem "y"
  obtain ⟨_, _, hx⟩ := helem "x"
  refine ⟨sound_emptyObject, hdistinct, ?_, m'.heap.nameOf loc', ?_⟩
  · rw [elemAfter, hafter, hy]
    rfl
  · rw [elemAfter, hafter, hx]
    rfl

/-- A key that is not edited does not find what it did: the error tells the version. The empty key
does not find what it was set to, and is there twice when it is set twice. -/
theorem elemAfter_differs :
    (emptyObject.heap.keys (emptyObject.heap.blocks 0)).Nodup ∧
      elemAfter [] "q" = some (.error "Property q of obj is undefined.") ∧
      elemAfter [.insert "x" (.boolean true)] "q" =
        some (.error "Property q of obj:1 is undefined.") ∧
      elemAfter [.insert "x" (.boolean true)] "q" ≠ elemAfter [] "q" ∧
      elemAfter [.insert "" (.boolean true)] "" ≠ some (.boolean true) ∧
      ∃ array m loc, emptyObjectAfter
          [.insert "" (.boolean true), .insert "" (.boolean true)] = (array, m) ∧
        m.dataLoc? array = some loc ∧ ¬ (m.heap.keys (m.heap.blocks loc)).Nodup := by
  refine ⟨by decide +kernel, by decide +kernel, by decide +kernel, by decide +kernel,
    by decide +kernel, _, _, 4, rfl, rfl, by decide +kernel⟩

end Machine

end BlockMachine
