import BlockMachine.Conversion
import BlockMachine.Proofs.Heap.PackageText

/-!
# Reading comes to an end

Reading follows the signature, so it does not go round in circles with the blocks. But a refusal
tells the text of the block that does not fit, and a package that is inside itself has none. Here
reading is a relation that has a derivation only if it comes to an end, texts included. Stacks are
pushed on the path when they are entered and popped when they have been read.

* `Signature.Reads` — a block is read on a path, with a result, and another path is left;
* `Reads.eq_readAt` — if reading ends, then as `readAt` says and with the path as it was;
* `exists_reads` — it ends if no package is inside itself, and `reads_iff` both together.
-/

namespace BlockMachine

namespace Signature

/-- The error about a block with the text `text`. -/
def unfit (s : Signature) (text : String) : Error :=
  .conversion ("value " ++ text ++ " is not assignable to type " ++ s.text)

/-- The error about a stack that is being read already. -/
def refersToItself (h : Heap) (loc : Loc) : Error :=
  .conversion ("data block @" ++ h.nameOf loc ++ " refers to itself and has no JSON form")

/-- No case of reading is for the block, so that it is refused as it is. -/
def Misfits (ws : Workspace) (h : Heap) : Signature → Block → Prop
  | .number, .number r _ => r.value.isFinite = false
  | .boolean, .boolean _ => False
  | .string, .string _ => False
  | .oneOf _, _ => False
  | .arrayOf _, .data loc resolved => stackOf? ws h (.data loc resolved) = none
  | .object _, .null _ => False
  | .object _, .data loc resolved => stackOf? ws h (.data loc resolved) = none
  | _, _ => True

/-- Whether values of the shape are made of the blocks of a stack. -/
def isNested : Signature → Bool
  | .arrayOf _ | .object _ => true
  | _ => false

mutual

/-- **Reading a block** on a path comes to an end with a result, and leaves a path. -/
inductive Reads (ws : Workspace) (h : Heap) :
    List Loc → Signature → Block → Except Error Json → List Loc → Prop where
  | number {path : List Loc} {r : Fraction} {rounded : Bool} (finite : r.value.isFinite = true) :
      Reads ws h path .number (.number r rounded) (.ok (.number (.float r.value))) path
  | boolean {path : List Loc} (v : Bool) :
      Reads ws h path .boolean (.boolean v) (.ok (.bool v)) path
  | string {path : List Loc} (text : String) :
      Reads ws h path .string (.string text) (.ok (.string text)) path
  | null {path : List Loc} {fields : List (String × Signature)} (loc : Loc) :
      Reads ws h path (.object fields) (.null loc) (.ok .null) path
  /-- The text of a refused block is part of the error. -/
  | unfit {path : List Loc} {s : Signature} {b : Block} {text : String}
      (misfits : Misfits ws h s b) (writes : h.Writes b text) :
      Reads ws h path s b (.error (s.unfit text)) path
  | option {path path' : List Loc} {options : List Signature} {b : Block} {v : Json}
      (first : ReadsOptions ws h path options b (some v) path') :
      Reads ws h path (.oneOf options) b (.ok v) path'
  | noOption {path path' : List Loc} {options : List Signature} {b : Block} {text : String}
      (none : ReadsOptions ws h path options b none path') (writes : h.Writes b text) :
      Reads ws h path (.oneOf options) b (.error ((Signature.oneOf options).unfit text)) path'
  | cyclic {path : List Loc} {s : Signature} {own loc : Loc} {resolved : Bool}
      (nested : s.isNested = true) (stack : stackOf? ws h (.data own resolved) = some loc)
      (mem : loc ∈ path) :
      Reads ws h path s (.data own resolved) (.error (refersToItself h loc)) path
  /-- The stack is pushed, its blocks are read, and whatever came of it the stack is popped. -/
  | array {path path' : List Loc} {element : Signature} {own loc : Loc} {resolved : Bool}
      {result : Except Error (List Json)}
      (stack : stackOf? ws h (.data own resolved) = some loc) (new : loc ∉ path)
      (items : ReadsItems ws h (loc :: path) element (h.blocks loc) result path') :
      Reads ws h path (.arrayOf element) (.data own resolved) (result.map Json.array) path'.tail
  | object {path path' : List Loc} {fields : List (String × Signature)} {own loc : Loc}
      {resolved : Bool} {result : Except Error (List (String × Json))}
      (stack : stackOf? ws h (.data own resolved) = some loc) (new : loc ∉ path)
      (members : ReadsFields ws h (loc :: path) loc fields [] result path') :
      Reads ws h path (.object fields) (.data own resolved) (result.map Json.object) path'.tail

/-- Blocks are read one after the other, up to the first that is refused. -/
inductive ReadsItems (ws : Workspace) (h : Heap) :
    List Loc → Signature → List Block → Except Error (List Json) → List Loc → Prop where
  | nil {path : List Loc} {s : Signature} : ReadsItems ws h path s [] (.ok []) path
  | refused {path path' : List Loc} {s : Signature} {b : Block} {rest : List Block} {e : Error}
      (first : Reads ws h path s b (.error e) path') :
      ReadsItems ws h path s (b :: rest) (.error e) path'
  | cons {path path' path'' : List Loc} {s : Signature} {b : Block} {rest : List Block} {v : Json}
      {result : Except Error (List Json)} (first : Reads ws h path s b (.ok v) path')
      (others : ReadsItems ws h path' s rest result path'') :
      ReadsItems ws h path s (b :: rest) (result.map (v :: ·)) path''

/-- Options are tried in turn, up to the first that fits. -/
inductive ReadsOptions (ws : Workspace) (h : Heap) :
    List Loc → List Signature → Block → Option Json → List Loc → Prop where
  | nil {path : List Loc} {b : Block} : ReadsOptions ws h path [] b none path
  | fits {path path' : List Loc} {s : Signature} {rest : List Signature} {b : Block} {v : Json}
      (first : Reads ws h path s b (.ok v) path') :
      ReadsOptions ws h path (s :: rest) b (some v) path'
  | next {path path' path'' : List Loc} {s : Signature} {rest : List Signature} {b : Block}
      {e : Error} {result : Option Json} (first : Reads ws h path s b (.error e) path')
      (others : ReadsOptions ws h path' rest b result path'') :
      ReadsOptions ws h path (s :: rest) b result path''

/-- The members of the stack at `loc` are read one after the other. -/
inductive ReadsFields (ws : Workspace) (h : Heap) :
    List Loc → Loc → List (String × Signature) → List (String × Json) →
      Except Error (List (String × Json)) → List Loc → Prop where
  | nil {path : List Loc} {loc : Loc} {found : List (String × Json)} :
      ReadsFields ws h path loc [] found (.ok found) path
  | missing {path : List Loc} {loc : Loc} {name : String} {s : Signature}
      {rest : List (String × Signature)} {found : List (String × Json)}
      (none : member? ws h (h.blocks loc) name = none) :
      ReadsFields ws h path loc ((name, s) :: rest) found
        (.error (.conversion
          ("data block @" ++ h.nameOf loc ++ " is missing property " ++ name))) path
  | notSingle {path : List Loc} {loc m : Loc} {name : String} {s : Signature}
      {rest : List (String × Signature)} {found : List (String × Json)}
      (member : member? ws h (h.blocks loc) name = some m)
      (other : ∀ value, h.blocks m ≠ [value]) :
      ReadsFields ws h path loc ((name, s) :: rest) found
        (.error (.conversion ("property " ++ name ++ " must contain exactly one value"))) path
  | refused {path path' : List Loc} {loc m : Loc} {name : String} {s : Signature} {value : Block}
      {rest : List (String × Signature)} {found : List (String × Json)} {e : Error}
      (member : member? ws h (h.blocks loc) name = some m) (single : h.blocks m = [value])
      (first : Reads ws h path s value (.error e) path') :
      ReadsFields ws h path loc ((name, s) :: rest) found (.error e) path'
  | cons {path path' path'' : List Loc} {loc m : Loc} {name : String} {s : Signature}
      {value : Block} {rest : List (String × Signature)} {found : List (String × Json)} {v : Json}
      {result : Except Error (List (String × Json))}
      (member : member? ws h (h.blocks loc) name = some m) (single : h.blocks m = [value])
      (first : Reads ws h path s value (.ok v) path')
      (others : ReadsFields ws h path' loc rest (Keyed.insert name v found) result path'') :
      ReadsFields ws h path loc ((name, s) :: rest) found result path''

end

/-! ## The results are those of `readAt` -/

section

variable {ws : Workspace} {h : Heap} {path path' : List Loc} {b : Block} {s : Signature}

theorem unfit_written (h : Heap) (b : Block) (s : Signature) :
    s.unfit (h.written b) = mismatch h b s := rfl

theorem enter_eq {loc : Loc} (hstack : stackOf? ws h b = some loc) (hnew : loc ∉ path) :
    enter ws h path b s = .ok loc := by
  rw [enter, hstack]
  exact if_neg (by simpa using hnew)

theorem enter_cyclic {loc : Loc} (hstack : stackOf? ws h b = some loc) (hmem : loc ∈ path) :
    enter ws h path b s = .error (refersToItself h loc) := by
  rw [enter, hstack]
  exact if_pos (by simpa using hmem)

theorem enter_none (hstack : stackOf? ws h b = none) :
    enter ws h path b s = .error (mismatch h b s) := by
  rw [enter, hstack]

/-- A block that fits no case is refused. -/
theorem readAt_of_misfits (hmisfits : Misfits ws h s b) :
    readAt ws h s path b = .error (mismatch h b s) := by
  cases s with
  | number =>
    unfold readAt
    cases b with
    | number r rounded =>
      have hfinite : r.value.isFinite = false := hmisfits
      dsimp only
      rw [hfinite]
      rfl
    | _ => rfl
  | boolean | string =>
    unfold readAt
    cases b with
    | boolean | string => first | exact hmisfits.elim | rfl
    | _ => rfl
  | oneOf options => exact hmisfits.elim
  | arrayOf element =>
    unfold readAt
    cases b with
    | data own resolved =>
      dsimp only
      rw [enter_none hmisfits]
      rfl
    | _ => rfl
  | object fields =>
    unfold readAt
    cases b with
    | null loc => exact hmisfits.elim
    | data own resolved =>
      dsimp only
      rw [enter_none hmisfits]
      rfl
    | _ => rfl

/-- The error tells the text of the block. -/
theorem unfit_eq_readAt {text : String} (hmisfits : Misfits ws h s b) (hwrites : h.Writes b text) :
    .error (s.unfit text) = readAt ws h s path b := by
  rw [readAt_of_misfits hmisfits, ← unfit_written, (Heap.writes_iff.1 hwrites).2]

/-- A stack that is being read already is refused. -/
theorem readAt_of_cyclic {own loc : Loc} {resolved : Bool} (hnested : s.isNested = true)
    (hstack : stackOf? ws h (.data own resolved) = some loc) (hmem : loc ∈ path) :
    readAt ws h s path (.data own resolved) = .error (refersToItself h loc) := by
  cases s with
  | arrayOf | object =>
    unfold readAt
    dsimp only
    rw [enter_cyclic hstack hmem]
    rfl
  | _ => cases hnested

theorem ReadsItems.eq_mapM {bs : List Block} {result : Except Error (List Json)}
    (hs : ∀ {path b result path'}, Reads ws h path s b result path' →
      result = readAt ws h s path b ∧ path' = path)
    (hbs : ReadsItems ws h path s bs result path') :
    result = (bs.mapM fun c => readAt ws h s path c) ∧ path' = path := by
  induction bs generalizing result path' with
  | nil =>
    cases hbs
    exact ⟨rfl, rfl⟩
  | cons b bs ih =>
    rw [List.mapM_cons]
    cases hbs with
    | refused first =>
      obtain ⟨hfirst, rfl⟩ := hs first
      rw [← hfirst]
      exact ⟨rfl, rfl⟩
    | @cons _ path₁ _ _ _ _ v rest first others =>
      obtain ⟨hfirst, rfl⟩ := hs first
      obtain ⟨hrest, rfl⟩ := ih others
      rw [← hfirst, ← hrest]
      refine ⟨?_, rfl⟩
      cases rest <;> rfl

end

mutual

/-- **If reading ends**, then with the result of `readAt`, and with the path as it was. -/
theorem Reads.eq_readAt (ws : Workspace) (h : Heap) : ∀ (s : Signature) {path path' : List Loc}
    {b : Block} {result : Except Error Json}, Reads ws h path s b result path' →
      result = readAt ws h s path b ∧ path' = path
  | .number, path, path', b, result, hreads => by
    cases hreads with
    | number finite =>
      unfold readAt
      exact ⟨(if_pos finite).symm, rfl⟩
    | unfit misfits writes => exact ⟨unfit_eq_readAt misfits writes, rfl⟩
    | cyclic nested => cases nested
  | .boolean, path, path', b, result, hreads => by
    cases hreads with
    | boolean v =>
      unfold readAt
      exact ⟨rfl, rfl⟩
    | unfit misfits writes => exact ⟨unfit_eq_readAt misfits writes, rfl⟩
    | cyclic nested => cases nested
  | .string, path, path', b, result, hreads => by
    cases hreads with
    | string text =>
      unfold readAt
      exact ⟨rfl, rfl⟩
    | unfit misfits writes => exact ⟨unfit_eq_readAt misfits writes, rfl⟩
    | cyclic nested => cases nested
  | .oneOf options, path, path', b, result, hreads => by
    cases hreads with
    | unfit misfits => exact misfits.elim
    | option first =>
      obtain ⟨hfirst, rfl⟩ := ReadsOptions.eq_readOptions ws h options first
      unfold readAt
      rw [← hfirst]
      exact ⟨rfl, rfl⟩
    | noOption none writes =>
      obtain ⟨hnone, rfl⟩ := ReadsOptions.eq_readOptions ws h options none
      unfold readAt
      rw [← hnone, ← unfit_written, (Heap.writes_iff.1 writes).2]
      exact ⟨rfl, rfl⟩
    | cyclic nested => cases nested
  | .arrayOf element, path, path', b, result, hreads => by
    cases hreads with
    | unfit misfits writes => exact ⟨unfit_eq_readAt misfits writes, rfl⟩
    | cyclic nested stack mem => exact ⟨(readAt_of_cyclic nested stack mem).symm, rfl⟩
    | @array _ _ _ _ _ _ items stack new hitems =>
      -- the stack is pushed, and the blocks inside it leave the path with the stack on it
      obtain ⟨hmap, rfl⟩ := hitems.eq_mapM (Reads.eq_readAt ws h element)
      unfold readAt
      dsimp only
      rw [enter_eq stack new, hmap]
      refine ⟨?_, rfl⟩
      dsimp only [bind, Except.bind]
      rw [← hmap]
      cases items <;> rfl
  | .object fields, path, path', b, result, hreads => by
    cases hreads with
    | null loc =>
      unfold readAt
      exact ⟨rfl, rfl⟩
    | unfit misfits writes => exact ⟨unfit_eq_readAt misfits writes, rfl⟩
    | cyclic nested stack mem => exact ⟨(readAt_of_cyclic nested stack mem).symm, rfl⟩
    | @object _ _ _ _ _ _ members stack new hmembers =>
      obtain ⟨hfields, rfl⟩ := ReadsFields.eq_readFields ws h fields hmembers
      unfold readAt
      dsimp only
      rw [enter_eq stack new]
      refine ⟨?_, rfl⟩
      dsimp only [bind, Except.bind]
      rw [← hfields]
      cases members <;> rfl

theorem ReadsOptions.eq_readOptions (ws : Workspace) (h : Heap) : ∀ (options : List Signature)
    {path path' : List Loc} {b : Block} {result : Option Json},
    ReadsOptions ws h path options b result path' →
      result = readOptions ws h options path b ∧ path' = path
  | [], path, path', b, result, hreads => by
    cases hreads
    exact ⟨rfl, rfl⟩
  | s :: rest, path, path', b, result, hreads => by
    rw [readOptions]
    cases hreads with
    | fits first =>
      obtain ⟨hfirst, rfl⟩ := Reads.eq_readAt ws h s first
      rw [← hfirst]
      exact ⟨rfl, rfl⟩
    | next first others =>
      obtain ⟨hfirst, rfl⟩ := Reads.eq_readAt ws h s first
      obtain ⟨hothers, rfl⟩ := ReadsOptions.eq_readOptions ws h rest others
      rw [← hfirst]
      exact ⟨hothers, rfl⟩

theorem ReadsFields.eq_readFields (ws : Workspace) (h : Heap) :
    ∀ (fields : List (String × Signature)) {path path' : List Loc} {loc : Loc}
      {found : List (String × Json)} {result : Except Error (List (String × Json))},
      ReadsFields ws h path loc fields found result path' →
        result = readFields ws h loc fields path found ∧ path' = path
  | [], path, path', loc, found, result, hreads => by
    cases hreads
    exact ⟨rfl, rfl⟩
  | (name, s) :: rest, path, path', loc, found, result, hreads => by
    rw [readFields]
    cases hreads with
    | missing none =>
      rw [none]
      exact ⟨rfl, rfl⟩
    | @notSingle _ _ m _ _ _ _ member other =>
      rw [member]
      refine ⟨?_, rfl⟩
      dsimp only
      split
      case h_1 value single => exact absurd single (other value)
      case h_2 => rfl
    | refused member single first =>
      obtain ⟨hfirst, rfl⟩ := Reads.eq_readAt ws h s first
      rw [member]
      dsimp only
      rw [single]
      dsimp only
      rw [← hfirst]
      exact ⟨rfl, rfl⟩
    | cons member single first others =>
      obtain ⟨hfirst, rfl⟩ := Reads.eq_readAt ws h s first
      obtain ⟨hothers, rfl⟩ := ReadsFields.eq_readFields ws h rest others
      rw [member]
      dsimp only
      rw [single]
      dsimp only
      rw [← hfirst]
      exact ⟨hothers, rfl⟩

end

/-! ## When reading ends -/

section

variable {ws : Workspace} {h : Heap}

theorem exists_readsItems {s : Signature}
    (hs : ∀ path b, ∃ result path', Reads ws h path s b result path') (bs : List Block) :
    ∀ path, ∃ result path', ReadsItems ws h path s bs result path' := by
  induction bs with
  | nil => exact fun path => ⟨_, _, .nil⟩
  | cons b bs ih =>
    intro path
    obtain ⟨result, path', hfirst⟩ := hs path b
    cases result with
    | error e => exact ⟨_, _, .refused hfirst⟩
    | ok v =>
      obtain ⟨rest, path'', hothers⟩ := ih path'
      exact ⟨_, _, .cons hfirst hothers⟩

end

/-- A block that fits no case is refused, if its text ends. -/
theorem exists_reads_of_misfits {ws : Workspace} {h : Heap} {s : Signature} {path : List Loc}
    {b : Block} (hends : h.Ends b) (hmisfits : Misfits ws h s b) :
    ∃ result path', Reads ws h path s b result path' :=
  ⟨_, _, .unfit hmisfits (Heap.writes_iff.2 ⟨hends, rfl⟩)⟩

mutual

/-- **Reading ends** where every text does. -/
theorem exists_reads (ws : Workspace) {h : Heap} (hends : ∀ b, h.Ends b) :
    ∀ (s : Signature) (path : List Loc) (b : Block), ∃ result path',
      Reads ws h path s b result path'
  | .number, path, b => by
    by_cases hmisfits : Misfits ws h .number b
    · exact exists_reads_of_misfits (hends b) hmisfits
    · cases b with
      | number r rounded => exact ⟨_, _, .number (by simpa [Misfits] using hmisfits)⟩
      | _ => exact absurd trivial hmisfits
  | .boolean, path, b => by
    by_cases hmisfits : Misfits ws h .boolean b
    · exact exists_reads_of_misfits (hends b) hmisfits
    · cases b with
      | boolean v => exact ⟨_, _, .boolean v⟩
      | _ => exact absurd trivial hmisfits
  | .string, path, b => by
    by_cases hmisfits : Misfits ws h .string b
    · exact exists_reads_of_misfits (hends b) hmisfits
    · cases b with
      | string text => exact ⟨_, _, .string text⟩
      | _ => exact absurd trivial hmisfits
  | .oneOf options, path, b => by
    obtain ⟨result, path', hoptions⟩ := exists_readsOptions ws hends options path b
    cases result with
    | none => exact ⟨_, _, .noOption hoptions (Heap.writes_iff.2 ⟨hends b, rfl⟩)⟩
    | some v => exact ⟨_, _, .option hoptions⟩
  | .arrayOf element, path, b => by
    by_cases hmisfits : Misfits ws h (.arrayOf element) b
    · exact exists_reads_of_misfits (hends b) hmisfits
    · cases b with
      | data own resolved =>
        obtain ⟨loc, hstack⟩ := Option.ne_none_iff_exists'.1 hmisfits
        by_cases hmem : loc ∈ path
        · exact ⟨_, _, .cyclic rfl hstack hmem⟩
        · obtain ⟨items, path', hitems⟩ :=
            exists_readsItems (exists_reads ws hends element) (h.blocks loc) (loc :: path)
          exact ⟨_, _, .array hstack hmem hitems⟩
      | _ => exact absurd trivial hmisfits
  | .object fields, path, b => by
    by_cases hmisfits : Misfits ws h (.object fields) b
    · exact exists_reads_of_misfits (hends b) hmisfits
    · cases b with
      | null loc => exact ⟨_, _, .null loc⟩
      | data own resolved =>
        obtain ⟨loc, hstack⟩ := Option.ne_none_iff_exists'.1 hmisfits
        by_cases hmem : loc ∈ path
        · exact ⟨_, _, .cyclic rfl hstack hmem⟩
        · obtain ⟨members, path', hmembers⟩ :=
            exists_readsFields ws hends fields (loc :: path) loc []
          exact ⟨_, _, .object hstack hmem hmembers⟩
      | _ => exact absurd trivial hmisfits

theorem exists_readsOptions (ws : Workspace) {h : Heap} (hends : ∀ b, h.Ends b) :
    ∀ (options : List Signature) (path : List Loc) (b : Block), ∃ result path',
      ReadsOptions ws h path options b result path'
  | [], path, b => ⟨_, _, .nil⟩
  | s :: rest, path, b => by
    obtain ⟨result, path', hfirst⟩ := exists_reads ws hends s path b
    cases result with
    | ok v => exact ⟨_, _, .fits hfirst⟩
    | error e =>
      obtain ⟨others, path'', hothers⟩ := exists_readsOptions ws hends rest path' b
      exact ⟨_, _, .next hfirst hothers⟩

theorem exists_readsFields (ws : Workspace) {h : Heap} (hends : ∀ b, h.Ends b) :
    ∀ (fields : List (String × Signature)) (path : List Loc) (loc : Loc)
      (found : List (String × Json)), ∃ result path',
      ReadsFields ws h path loc fields found result path'
  | [], path, loc, found => ⟨_, _, .nil⟩
  | (name, s) :: rest, path, loc, found => by
    cases hmember : member? ws h (h.blocks loc) name with
    | none => exact ⟨_, _, .missing hmember⟩
    | some m =>
      by_cases hsingle : ∃ value, h.blocks m = [value]
      · -- the signature of a member is smaller, whatever stack the member is
        obtain ⟨value, hvalue⟩ := hsingle
        obtain ⟨result, path', hfirst⟩ := exists_reads ws hends s path value
        cases result with
        | error e => exact ⟨_, _, .refused hmember hvalue hfirst⟩
        | ok v =>
          obtain ⟨others, path'', hothers⟩ :=
            exists_readsFields ws hends rest path' loc (Keyed.insert name v found)
          exact ⟨_, _, .cons hmember hvalue hfirst hothers⟩
      · exact ⟨_, _, .notSingle hmember fun value hvalue => hsingle ⟨value, hvalue⟩⟩

end

/-- **Reading a block**: if no package is inside itself, it ends with one result, that of `readAt`,
and with the path as it was. -/
theorem reads_iff {ws : Workspace} {h : Heap}
    (hacyclic : ∀ loc, ¬ Relation.TransGen h.Opens loc loc) {path path' : List Loc} {s : Signature}
    {b : Block} {result : Except Error Json} :
    Reads ws h path s b result path' ↔ result = readAt ws h s path b ∧ path' = path := by
  constructor
  · exact Reads.eq_readAt ws h s
  · rintro ⟨rfl, rfl⟩
    obtain ⟨result, path', hreads⟩ :=
      exists_reads ws (Heap.ends_of_acyclic hacyclic) s path' b
    obtain ⟨rfl, rfl⟩ := Reads.eq_readAt ws h s hreads
    exact hreads

end Signature

end BlockMachine
