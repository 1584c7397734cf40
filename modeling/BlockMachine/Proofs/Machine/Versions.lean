import BlockMachine.Proofs.Decimal.PlainText
import BlockMachine.Proofs.Machine.IndexedEdits

/-!
# The names of versions

Each edit of a data block answers with a stack of its own, named for the stack that was edited. All
versions behind one stack make a line: one base, and numbers that go up by one until the last one
that 64 bits hold.

* `Numbering`, `Numbering.name` — a line of names, `Numbering.after` — the one behind a name;
* `Numbering.after_name` — the line behind one of its names is the rest of it;
* `nodup_cons_names_iff` — when a name and the names behind it are distinct;
* `DataEdit`, `Machine.versionNames` — edits of data blocks, and the names that they pass through:
  `answer_versioned` is one of them, `versionNames_eq` any sequence;
* `versionNames_nodup_iff` — when no name comes twice.
-/

namespace BlockMachine

/-! ## Lines of names -/

/-- The greatest number of a version, `2^64 - 1`. -/
def lastVersion : Nat := 0xffffffffffffffff

/-- The names that versions go by: a base, and the number of the first one. -/
structure Numbering where
  base : String
  first : Nat
  first_le : first ≤ lastVersion

namespace Numbering

/-- The name behind the first one by `k`. -/
def name (v : Numbering) (k : Nat) : String :=
  v.base ++ ":" ++ Decimal.natText (min (v.first + k) lastVersion)

/-- The names behind a number. -/
def skip (v : Numbering) (k : Nat) : Numbering where
  base := v.base
  first := min (v.first + k) lastVersion
  first_le := Nat.min_le_right _ _

theorem nextVersion_le (digits : List Char) : Machine.nextVersion digits ≤ lastVersion := by
  rw [Machine.nextVersion]
  split
  · decide
  · exact Nat.min_le_right _ _

/-- The names behind a name. -/
def after (name : String) : Numbering :=
  match Machine.splitVersion name.toList with
  | some (base, digits) => ⟨String.ofList base, Machine.nextVersion digits, nextVersion_le digits⟩
  | none => ⟨name, 1, by decide⟩

variable {v : Numbering} {i k : Nat}

theorem versionAfter_eq (name : String) : Machine.versionAfter name = (after name).name 0 := by
  rw [Machine.versionAfter, Numbering.name, after]
  cases Machine.splitVersion name.toList with
  | some parts => rw [Nat.add_zero, Nat.min_eq_left (nextVersion_le parts.2)]
  | none =>
    have hone : ":" ++ Decimal.natText (min (1 + 0) lastVersion) = ":1" := by decide
    rw [String.append_assoc]
    exact congrArg (name ++ ·) hone.symm

theorem name_skip (v : Numbering) (i k : Nat) : (v.skip i).name k = v.name (i + k) := by
  rw [name, name, skip, show min (min (v.first + i) lastVersion + k) lastVersion =
    min (v.first + (i + k)) lastVersion by omega]

/-! ### Splitting -/

theorem natOfDigits_toDigits (n : Nat) : Decimal.natOfDigits (Nat.toDigits 10 n) = n :=
  Nat.ofDigitChars_ten_toDigits

theorem splitVersion_digits {ds : List Char} (hds : Decimal.AllDigits ds) :
    Machine.splitVersion ds = none := by
  induction ds with
  | nil => rfl
  | cons c ds ih =>
    have hc : c ≠ ':' := by
      rintro rfl
      exact absurd (hds _ List.mem_cons_self) (by decide)
    rw [Machine.splitVersion, ih fun d hd => hds d (List.mem_cons_of_mem c hd)]
    simp [hc]

/-- A name ends at its last colon, if there are digits behind it. -/
theorem splitVersion_append (base : List Char) {ds : List Char} (hds : Decimal.AllDigits ds)
    (hne : ds ≠ []) : Machine.splitVersion (base ++ ':' :: ds) = some (base, ds) := by
  induction base with
  | nil =>
    have htake : ds.takeWhile Decimal.isDigit = ds := List.takeWhile_eq_self_iff.2 hds
    rw [List.nil_append, Machine.splitVersion, splitVersion_digits hds]
    simp [htake, hne]
  | cons c base ih =>
    rw [List.cons_append, Machine.splitVersion, ih]

theorem toList_numbered (base : String) (n : Nat) :
    (base ++ ":" ++ Decimal.natText n).toList = base.toList ++ ':' :: Nat.toDigits 10 n := by
  simp [Decimal.natText, String.toList_append]

/-- Behind a number comes the next one. -/
theorem after_numbered (base : String) {n : Nat} (hn : n ≤ lastVersion) :
    after (base ++ ":" ++ Decimal.natText n) =
      ⟨base, min (n + 1) lastVersion, Nat.min_le_right _ _⟩ := by
  have hsplit := splitVersion_append base.toList (Decimal.allDigits_toDigits n)
    (Json.toDigits_ne_nil n)
  rw [← toList_numbered] at hsplit
  have hnext : Machine.nextVersion (Nat.toDigits 10 n) = min (n + 1) lastVersion := by
    rw [Machine.nextVersion]
    simp only [natOfDigits_toDigits]
    exact if_neg (Nat.not_le.2 (Nat.lt_succ_of_le hn))
  rw [after]
  simp only [hsplit, hnext, String.ofList_toList]

/-- **Behind a name of a line** comes the rest of it. -/
theorem after_name (v : Numbering) (k : Nat) : after (v.name k) = v.skip (k + 1) := by
  rw [name, after_numbered _ (Nat.min_le_right _ _), skip, Numbering.mk.injEq]
  exact ⟨rfl, by omega⟩

/-! ### Distinct names -/

theorem numbered_injective {base base' : String} {n n' : Nat}
    (h : base ++ ":" ++ Decimal.natText n = base' ++ ":" ++ Decimal.natText n') :
    base = base' ∧ n = n' := by
  have hsplit := splitVersion_append base.toList (Decimal.allDigits_toDigits n)
    (Json.toDigits_ne_nil n)
  have hsplit' := splitVersion_append base'.toList (Decimal.allDigits_toDigits n')
    (Json.toDigits_ne_nil n')
  rw [← toList_numbered] at hsplit hsplit'
  rw [h, hsplit'] at hsplit
  obtain ⟨hbase, hdigits⟩ := Prod.mk.inj (Option.some.inj hsplit)
  refine ⟨String.toList_injective hbase.symm, ?_⟩
  rw [← natOfDigits_toDigits n, ← hdigits, natOfDigits_toDigits]

theorem name_eq_name_iff : v.name i = v.name k ↔
    min (v.first + i) lastVersion = min (v.first + k) lastVersion := by
  constructor
  · exact fun h => (numbered_injective h).2
  · intro h
    rw [name, name, h]

/-- The first `n` names of a line are distinct unless it stands still. -/
theorem nodup_names_iff (v : Numbering) (n : Nat) :
    ((List.range n).map v.name).Nodup ↔ n ≤ 1 ∨ v.first + n ≤ 2 ^ 64 := by
  have hfirst : v.first ≤ 2 ^ 64 - 1 := v.first_le
  have hlast : lastVersion = 2 ^ 64 - 1 := rfl
  constructor
  · intro hnodup
    by_contra hmore
    obtain ⟨hn, hstill⟩ := not_or.1 hmore
    -- the last two names have the same number
    have heq : v.name (n - 2) = v.name (n - 1) := by
      rw [name_eq_name_iff]
      omega
    have hinj := List.inj_on_of_nodup_map hnodup
    have := hinj (List.mem_range.2 (by omega)) (List.mem_range.2 (by omega)) heq
    omega
  · intro hn
    refine List.Nodup.map_on (fun i hi k hk heq => ?_) List.nodup_range
    rw [List.mem_range] at hi hk
    rw [name_eq_name_iff] at heq
    omega

theorem nodup_cons_names_iff (v : Numbering) (name : String) (n : Nat) :
    (name :: (List.range n).map v.name).Nodup ↔
      (n ≤ 1 ∨ v.first + n ≤ 2 ^ 64) ∧ ∀ k < n, v.name k ≠ name := by
  rw [List.nodup_cons, nodup_names_iff, and_comm]
  simp only [List.mem_map, List.mem_range, not_exists, not_and]

/-- **No name comes again behind itself** but the one with the last number. -/
theorem name_after_ne_iff (name : String) (n : Nat) : (∀ k < n, (after name).name k ≠ name) ↔
    n = 0 ∨ name ≠ (after name).base ++ ":" ++ Decimal.natText lastVersion := by
  constructor
  · intro hne
    rw [or_iff_not_imp_left]
    intro hn hlast
    refine hne 0 (Nat.pos_of_ne_zero hn) ?_
    have hafter := after_numbered (after name).base (Nat.le_refl lastVersion)
    rw [← hlast] at hafter
    conv_rhs => rw [hlast]
    rw [Numbering.name, hafter]
    rfl
  · intro hlast k hk heq
    have hnot := hlast.resolve_left (by omega)
    rw [Numbering.name] at heq
    have hafter := after_numbered (after name).base
      (Nat.min_le_right ((after name).first + k) lastVersion)
    rw [heq] at hafter
    have hfirst := congrArg Numbering.first hafter
    have hfirst' := (after name).first_le
    simp only at hfirst
    have hnumber : min ((after name).first + k) lastVersion = lastVersion := by omega
    rw [hnumber] at heq
    exact hnot heq.symm

/-- A numbered name is neither empty nor that of the null stack. -/
theorem numbered_ne (base : String) (n : Nat) :
    base ++ ":" ++ Decimal.natText n ≠ "" ∧ base ++ ":" ++ Decimal.natText n ≠ "null" := by
  have hcolon : ':' ∈ (base ++ ":" ++ Decimal.natText n).toList := by
    rw [toList_numbered]
    exact List.mem_append_right _ List.mem_cons_self
  constructor
  all_goals
    intro heq
    rw [heq] at hcolon
    exact absurd hcolon (by decide)

end Numbering

/-! ## Edits -/

/-- What is done to a data block, at a place or by key. -/
inductive DataEdit where
  | append (value : Block)
  | indexed (e : IndexedEdit) (k : Block) (number : k.isA .number = true)
  | keyed (e : KeyedEdit)

namespace DataEdit

def operator : DataEdit → Operator
  | .append _ => .append
  | .indexed e _ _ => e.operator
  | .keyed e => e.operator

def operands (array : Block) : DataEdit → List Block
  | .append value => [array, value]
  | .indexed e k _ => e.operands array k
  | .keyed e => array :: e.operands

end DataEdit

namespace Machine

/-- The name of the stack that a data block stands for. -/
def stackName (m : Machine) (array : Block) : String :=
  ((m.dataLoc? array).map m.heap.nameOf).getD ""

/-- The names that the versions of a stack go by. Those of null are the versions of a new anonymous
stack. -/
def numbering (m : Machine) (loc : Loc) : Numbering :=
  .after (if versionBase (m.heap.get loc) = "null" then "a" ++ Decimal.natText (m.anonymous + 1)
    else versionBase (m.heap.get loc))

/-- The names of the stacks that a data block passes through if it is edited, and then what comes of
it, and so on: first its own, and then one for each edit that is not answered by an error. -/
def versionNames (d : Discipline) (env : Environment) :
    List DataEdit → Block → Machine → List String
  | [], array, m => [m.stackName array]
  | e :: es, array, m =>
    match m.answer d env e.operator (e.operands array) with
    | (some b, n) =>
      if b.isA .data then m.stackName array :: versionNames d env es b n
      else versionNames d env es array n
    | (none, n) => versionNames d env es array n

section Versions

variable {m n p : Machine} {array k : Block} {loc : Loc}

theorem nextName_eq (loc : Loc) (m : Machine) : (m.nextName loc).1 = (m.numbering loc).name 0 := by
  rw [nextName, numbering, ← Numbering.versionAfter_eq]
  split
  · rfl
  · rfl

theorem numbering_congr (hheap : n.heap.get loc = m.heap.get loc)
    (hanonymous : n.anonymous = m.anonymous) : n.numbering loc = m.numbering loc := by
  rw [numbering, hheap, hanonymous, numbering]

/-- What an edit gives: an error that leaves the machine alone, or a stack with the next name. -/
def Versioned (m : Machine) (loc : Loc) (x : Option Block × Machine) : Prop :=
  (∃ message, x = (some (.error message), m)) ∨
    ∃ loc' blocks n, x = (some (.data loc' true), n) ∧ loc' < n.heap.size ∧
      n.heap.get loc' = Stack.make ((m.numbering loc).name 0) blocks

theorem versioned_newVersion (edit : List Block → List Block)
    (hn : n.numbering loc = m.numbering loc) :
    Versioned m loc (some (n.newVersion loc edit).1, (n.newVersion loc edit).2) := by
  obtain ⟨y, hversion, -, hsize, hget⟩ := newVersion_eq loc edit n
  rw [nextName_eq, hn] at hget
  exact .inr ⟨_, _, y, by rw [hversion], hsize, hget⟩

theorem versioned_editAt (hloc : m.dataLoc? array = some loc) (hk : k.isA .number = true)
    (l : Localizer) (mark : String) (edit : Nat → List Block → List Block) :
    Versioned m loc (m.editAt l mark edit array k) := by
  obtain ⟨x, hx⟩ := exists_float_of_isA hk
  simp only [editAt, hloc, hx]
  split
  · exact versioned_newVersion _ rfl
  · exact .inl ⟨_, rfl⟩

theorem versioned_setMember (hloc : m.dataLoc? array = some loc) (hmem : loc < m.heap.size)
    (value : Block) (key : String) : Versioned m loc (m.setMember array value (.string key)) := by
  have hnumbering : (m.newData key [value]).2.numbering loc = m.numbering loc :=
    numbering_congr (Heap.get_alloc_of_lt _ _ hmem) rfl
  simp only [setMember, hloc, Block.string?]
  exact versioned_newVersion _ hnumbering

theorem versioned_deleteMember (hloc : m.dataLoc? array = some loc) (l : Localizer)
    (key : String) : Versioned m loc (m.deleteMember l array (.string key)) := by
  simp only [deleteMember, hloc, Block.string?]
  split
  · exact versioned_newVersion _ rfl
  · exact .inl ⟨_, rfl⟩

theorem versioned_appendTo (hloc : m.dataLoc? array = some loc) (value : Block) :
    Versioned m loc (m.appendTo array value) := by
  simp only [appendTo, hloc]
  exact versioned_newVersion _ rfl

/-- An edit is answered by what its operator gives on a machine that is the same. -/
theorem exists_operate (e : DataEdit) (harray : array.isA .data = true)
    (hloc : m.dataLoc? array = some loc) (hmem : loc < m.heap.size) (d : Discipline)
    (env : Environment) : ∃ p overload, Same m p ∧
      (∀ {b : Block} {n : Machine}, p.operate d env (.operator e.operator) e.operator overload
          (e.operands array) = (some b, n) →
        ∃ n', m.answer d env e.operator (e.operands array) = (some b, n') ∧ Same n n') ∧
      Versioned p loc (p.operate d env (.operator e.operator) e.operator overload
        (e.operands array)) := by
  have hsame : ∀ {p : Machine}, Same m p → p.dataLoc? array = some loc ∧ loc < p.heap.size := by
    intro p hp
    rw [dataLoc?, ← alike_congruent.resolve hp, ← alike_congruent.heap hp]
    exact ⟨hloc, hmem⟩
  cases e with
  | append value =>
    obtain ⟨p, hp, hanswer⟩ := answer_of_operate_fixed d env .append m rfl
      (fits_iff.2 (.cons harray (.cons (rfl : value.isA .block = true) .nil)))
    exact ⟨p, 0, hp, hanswer, versioned_appendTo (hsame hp).1 value⟩
  | indexed e k number =>
    obtain ⟨combinations, hsig, harity, hfit⟩ := exists_signature e harray number
    obtain ⟨p, hp, hanswer⟩ := answer_of_operate d env e.operator m hsig harity hfit
    refine ⟨p, 0, hp, hanswer, ?_⟩
    have hoperate := operate_indexed d env e array k p
    exact hoperate ▸ versioned_editAt (hsame hp).1 number _ _ _
  | keyed e =>
    cases e with
    | insert key value =>
      obtain ⟨p, hp, hanswer⟩ := answer_of_operate d env .insert m rfl rfl
        (findIdx?_fits_valued harray value key)
      exact ⟨p, 1, hp, hanswer, versioned_setMember (hsame hp).1 (hsame hp).2 value key⟩
    | replace key value =>
      obtain ⟨p, hp, hanswer⟩ := answer_of_operate d env .replace m rfl rfl
        (findIdx?_fits_valued harray value key)
      exact ⟨p, 1, hp, hanswer, versioned_setMember (hsame hp).1 (hsame hp).2 value key⟩
    | delete key =>
      obtain ⟨p, hp, hanswer⟩ := answer_of_operate d env .delete m rfl rfl
        (findIdx?_fits_keyed harray key)
      exact ⟨p, 1, hp, hanswer, versioned_deleteMember (hsame hp).1 _ key⟩

/-- **An edit** is answered by an error, or by a stack with the next name. -/
theorem answer_versioned (e : DataEdit) (harray : array.isA .data = true)
    (hloc : m.dataLoc? array = some loc) (hmem : loc < m.heap.size) (d : Discipline)
    (env : Environment) :
    (∃ message n, m.answer d env e.operator (e.operands array) = (some (.error message), n) ∧
      Same m n) ∨
    ∃ loc' blocks n, m.answer d env e.operator (e.operands array) = (some (.data loc' true), n) ∧
      loc' < n.heap.size ∧ n.heap.get loc' = Stack.make ((m.numbering loc).name 0) blocks := by
  obtain ⟨p, overload, hp, hanswer, hversioned⟩ := exists_operate e harray hloc hmem d env
  have hnumbering : p.numbering loc = m.numbering loc :=
    numbering_congr (by rw [alike_congruent.heap hp]) (hp.anonymous trivial).symm
  rcases hversioned with ⟨message, herror⟩ | ⟨loc', blocks, y, hversion, hsize, hget⟩
  · obtain ⟨n, hn, hsame⟩ := hanswer herror
    exact .inl ⟨message, n, hn, hp.trans hsame⟩
  · obtain ⟨n, hn, hsame⟩ := hanswer hversion
    rw [hnumbering] at hget
    rw [alike_congruent.heap hsame] at hsize hget
    exact .inr ⟨loc', blocks, n, hn, hsize, hget⟩

/-- The names behind a version are those behind it in its line. -/
theorem numbering_of_version {v : Numbering} {i : Nat} {blocks : List Block}
    (hget : n.heap.get loc = Stack.make (v.name i) blocks) :
    n.heap.nameOf loc = v.name i ∧ n.numbering loc = v.skip (i + 1) := by
  obtain ⟨hempty, hnull⟩ : v.name i ≠ "" ∧ v.name i ≠ "null" := Numbering.numbered_ne _ _
  have hname : (Stack.make (v.name i) blocks).name = v.name i := by
    rw [Stack.make]
    simp only [String.isEmpty_iff]
    exact if_neg hempty
  refine ⟨by rw [Heap.nameOf, hget, hname], ?_⟩
  have hbase : versionBase (n.heap.get loc) = v.name i := by
    rw [hget]
    exact hname
  rw [numbering, hbase, if_neg hnull, Numbering.after_name]

/-- **Edits, one after another**, go through the line of versions behind the first stack. -/
theorem versionNames_eq (d : Discipline) (env : Environment) (es : List DataEdit) :
    ∀ {m : Machine} {array : Block} {loc : Loc}, array.isA .data = true →
      m.dataLoc? array = some loc → loc < m.heap.size →
      ∃ n ≤ es.length, versionNames d env es array m =
        m.heap.nameOf loc :: (List.range n).map (m.numbering loc).name := by
  induction es with
  | nil =>
    intro m array loc harray hloc hmem
    refine ⟨0, Nat.le_refl _, ?_⟩
    rw [versionNames, stackName, hloc]
    rfl
  | cons e es ih =>
    intro m array loc harray hloc hmem
    rcases answer_versioned e harray hloc hmem d env with
      ⟨message, p, hanswer, hsame⟩ | ⟨loc', blocks, p, hanswer, hsize, hget⟩
    · -- the error leaves the data block and its names as they are
      have hloc' : p.dataLoc? array = some loc := by
        rw [dataLoc?, ← alike_congruent.resolve hsame]
        exact hloc
      have hheap := alike_congruent.heap hsame
      obtain ⟨n, hn, hnames⟩ := ih harray hloc' (hheap ▸ hmem)
      have hnumbering : p.numbering loc = m.numbering loc :=
        numbering_congr (by rw [hheap]) (hsame.anonymous trivial).symm
      refine ⟨n, Nat.le_succ_of_le hn, ?_⟩
      rw [hnumbering, ← hheap] at hnames
      rw [versionNames, hanswer]
      exact hnames
    · obtain ⟨n, hn, hnames⟩ := ih (rfl : (Block.data loc' true).isA .data = true) rfl hsize
      obtain ⟨hname, hnumbering⟩ := numbering_of_version hget
      have hshift : (List.range n).map (p.numbering loc').name =
          (List.range n).map fun i => (m.numbering loc).name (i + 1) := by
        refine List.map_congr_left fun i _ => ?_
        rw [hnumbering, Numbering.name_skip, Nat.add_comm]
      refine ⟨n + 1, Nat.succ_le_succ hn, ?_⟩
      rw [versionNames, hanswer]
      change m.stackName array :: versionNames d env es (.data loc' true) p = _
      rw [hnames, hname, hshift, List.range_succ_eq_map, List.map_cons, List.map_map, stackName,
        hloc]
      rfl

/-- Versions that go by the name of their stack meet it again only if it has the last number. -/
theorem name_numbering_ne_iff (hbase : versionBase (m.heap.get loc) = m.heap.nameOf loc) (n : Nat) :
    (∀ k < n, (m.numbering loc).name k ≠ m.heap.nameOf loc) ↔
      n = 0 ∨ m.heap.nameOf loc ≠
        (m.numbering loc).base ++ ":" ++ Decimal.natText lastVersion := by
  by_cases hnull : m.heap.nameOf loc = "null"
  · rw [hnull]
    exact iff_of_true (fun k _ => (Numbering.numbered_ne _ _).2)
      (.inr (Numbering.numbered_ne _ _).2.symm)
  · rw [numbering, hbase, if_neg hnull]
    exact Numbering.name_after_ne_iff _ n

/-- **Names of versions.** Take a data block and edit it, and then what comes of it, and so on. The
stacks are named for the line of versions behind the first one, and no name comes twice just if the
numbers do not go past the last one and the first stack itself is not named like one of its
versions. If the versions go by the name of the first stack, the latter means that its number is not
the last one; if they go by its display name, any number may be met again. -/
theorem versionNames_nodup_iff (d : Discipline) (env : Environment) (m : Machine) (array : Block)
    (es : List DataEdit) (harray : array.isA .data = true) (hloc : m.dataLoc? array = some loc)
    (hmem : loc < m.heap.size) :
    ∃ n ≤ es.length,
      versionNames d env es array m =
        m.heap.nameOf loc :: (List.range n).map (m.numbering loc).name ∧
      ((versionNames d env es array m).Nodup ↔
        (n ≤ 1 ∨ (m.numbering loc).first + n ≤ 2 ^ 64) ∧
          ∀ k < n, (m.numbering loc).name k ≠ m.heap.nameOf loc) ∧
      (versionBase (m.heap.get loc) = m.heap.nameOf loc →
        ((versionNames d env es array m).Nodup ↔
          (n ≤ 1 ∨ (m.numbering loc).first + n ≤ 2 ^ 64) ∧
            (n = 0 ∨ m.heap.nameOf loc ≠
              (m.numbering loc).base ++ ":" ++ Decimal.natText lastVersion))) := by
  obtain ⟨n, hn, hnames⟩ := versionNames_eq d env es harray hloc hmem
  have hiff := Numbering.nodup_cons_names_iff (m.numbering loc) (m.heap.nameOf loc) n
  rw [← hnames] at hiff
  refine ⟨n, hn, hnames, hiff, fun hbase => ?_⟩
  rw [hiff, name_numbering_ne_iff hbase]

end Versions

/-! ### Names that come twice -/

/-- A machine with the first version of a stack, and a name that it is shown by. -/
def displayedVersion (display : Option String) : Machine :=
  ((make 10 Workspace.empty (World.ofSeed 0)).alloc
    { Stack.make "a:1" [] with displayName := display }).2

/-- Two values are appended to `a:1`. By itself it gets distinct versions; if it is shown as `a`,
the first of them has its name. -/
theorem versionNames_nodup_iff_displayed :
    0 < (displayedVersion none).heap.size ∧
      (versionNames standardDiscipline Environment.standard
        [.append (.boolean true), .append (.boolean true)] (.data 0 true)
        (displayedVersion none)).Nodup ∧
      0 < (displayedVersion (some "a")).heap.size ∧
      ¬ (versionNames standardDiscipline Environment.standard
        [.append (.boolean true), .append (.boolean true)] (.data 0 true)
        (displayedVersion (some "a"))).Nodup := by
  have hmem : ∀ display, 0 < (displayedVersion display).heap.size := fun _ => Nat.one_pos
  have hlaws := fun display => versionNames_nodup_iff standardDiscipline Environment.standard
    (displayedVersion display) (.data 0 true)
    [.append (.boolean true), .append (.boolean true)] rfl rfl (hmem display)
  refine ⟨hmem none, ?_, hmem (some "a"), ?_⟩
  · obtain ⟨n, hn, -, -, hiff⟩ := hlaws none
    have hfirst : ((displayedVersion none).numbering 0).first = 2 := by decide
    have htwo : n ≤ 2 := hn
    refine (hiff rfl).2 ⟨.inr (by omega), .inr (by decide)⟩
  · obtain ⟨n, -, hnames, hiff, -⟩ := hlaws (some "a")
    have hlength := congrArg List.length hnames
    rw [List.length_cons, List.length_map, List.length_range] at hlength
    have hthree : 3 = n + 1 := hlength
    intro hnodup
    exact (hiff.1 hnodup).2 0 (by omega) (by decide)

end Machine

end BlockMachine
