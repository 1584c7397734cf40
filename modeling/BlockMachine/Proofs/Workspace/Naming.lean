import BlockMachine.Proofs.Text.Roman
import BlockMachine.Proofs.Workspace.Building
import BlockMachine.Proofs.Workspace.WrittenText
import Mathlib.Data.List.Find

/-!
# Names of new stacks

A stack enters a workspace at its end. It is found under its name if no stack of the workspace has
that name; otherwise the earlier one goes on being found. The counter behind the names of stacks
that are made without one belongs to the workspace and counts only these, so two of them never have
the same name, but a name that came in otherwise may be a numeral too.

* `Workspace.Reached` — the workspaces that come about by reading a text, making stacks and adding
  stacks, with the names that do not come from the counter;
* `Reached.numbered` — every other name is a numeral up to the counter;
* `Workspace.Enters` — a stack that is added at the end: `enters_add`, `enters_create`;
* `Workspace.find?_created` — which new stacks are found under their names;
* `Workspace.Change` — what is done with a workspace, `unnamedNames` — the names that come from the
  counter meanwhile, `unnamedNames_eq` — which are the next numerals;
* `Workspace.numerals_tell_apart` — numerals are read back, so these names differ.
-/

namespace BlockMachine

namespace Workspace

/-- The names of the stacks, in order. -/
def names (ws : Workspace) (h : Heap) : List String :=
  ws.locs.map h.nameOf

variable {ws ws' : Workspace} {h h' : Heap} {loc : Loc}

/-! ## Entering a workspace -/

theorem find?_of_locs (hlocs : ws'.locs = ws.locs ++ [loc]) (n : String) :
    ws'.find? h n = (ws.find? h n).or (if h.nameOf loc = n then some loc else none) := by
  rw [find?, hlocs, List.find?_append, List.find?_singleton]
  simp [find?]

theorem find?_eq_none_iff {n : String} : ws.find? h n = none ↔ n ∉ ws.names h := by
  rw [find?, List.find?_eq_none]
  simp [names]

theorem find?_keepsNames (hkeeps : h.KeepsNames h') (hbounds : ∀ loc ∈ ws.locs, loc < h.size)
    (n : String) : ws.find? h' n = ws.find? h n := by
  refine List.find?_congr fun loc hloc => ?_
  rw [hkeeps.nameOf (hbounds loc hloc)]

theorem names_keepsNames (hkeeps : h.KeepsNames h') (hbounds : ∀ loc ∈ ws.locs, loc < h.size) :
    ws.names h' = ws.names h :=
  List.map_congr_left fun loc hloc => hkeeps.nameOf (hbounds loc hloc)

/-- **A stack enters** a workspace at the end. Every stack that was found under a name is found
under it still; the new one is found if its name is new, and then names stay as distinct as they
were. -/
structure Enters (ws : Workspace) (h : Heap) (loc : Loc) (ws' : Workspace) (h' : Heap) : Prop where
  locs : ws'.locs = ws.locs ++ [loc]
  names : ws'.names h' = ws.names h ++ [h'.nameOf loc]
  kept : ∀ n a, ws.find? h n = some a → ws'.find? h' n = some a
  found : h'.nameOf loc ∉ ws.names h → ws'.find? h' (h'.nameOf loc) = some loc
  distinct : h'.nameOf loc ∉ ws.names h → (ws.names h).Nodup → (ws'.names h').Nodup

theorem enters_of_locs (hlocs : ws'.locs = ws.locs ++ [loc]) (h : Heap) :
    Enters ws h loc ws' h := by
  have hnames : ws'.names h = ws.names h ++ [h.nameOf loc] := by
    rw [Workspace.names, hlocs, List.map_append]
    rfl
  refine ⟨hlocs, hnames, fun n a ha => ?_, fun hnew => ?_, fun hnew hdistinct => ?_⟩
  · rw [find?_of_locs hlocs, ha, Option.some_or]
  · rw [find?_of_locs hlocs, find?_eq_none_iff.2 hnew, Option.none_or, if_pos rfl]
  · rw [hnames, List.nodup_append]
    refine ⟨hdistinct, List.nodup_singleton _, fun a ha b hb => ?_⟩
    rw [List.mem_singleton.1 hb]
    exact fun heq => hnew (heq ▸ ha)

theorem enters_add (ws : Workspace) (h : Heap) (loc : Loc) : Enters ws h loc (ws.add loc) h :=
  enters_of_locs rfl h

/-- The heap may have grown before the stack enters. -/
theorem Enters.of_keepsNames {h₀ : Heap} (henters : Enters ws h loc ws' h')
    (hkeeps : h₀.KeepsNames h) (hbounds : ∀ loc ∈ ws.locs, loc < h₀.size) :
    Enters ws h₀ loc ws' h' := by
  have hnames := names_keepsNames hkeeps hbounds
  obtain ⟨hlocs, hnames', hkept, hfound, hdistinct⟩ := henters
  rw [hnames] at hnames' hfound hdistinct
  refine ⟨hlocs, hnames', fun n a ha => hkept n a ?_, hfound, hdistinct⟩
  rwa [find?_keepsNames hkeeps hbounds]

/-- The name that a stack gets when it is made. -/
def createdName (ws : Workspace) (name : Option String) : String :=
  (Stack.make (name.getD (Text.roman (ws.unnamed + 1))) []).name

/-- Numerals above zero are names. -/
theorem createdName_none (ws : Workspace) : ws.createdName none = Text.roman (ws.unnamed + 1) := by
  have hne : (Text.roman (ws.unnamed + 1)).isEmpty = false := by
    rw [Bool.eq_false_iff, ne_eq, String.isEmpty_iff, ← Text.roman_zero]
    exact fun heq => absurd (Text.roman_injective heq) (Nat.succ_ne_zero _)
  rw [createdName, Option.getD_none, Stack.make, hne]
  rfl

/-- What `create` does: the new stack enters the workspace, and only the counter changes else. -/
theorem enters_create (name : Option String) {st : Store}
    (hbounds : ∀ loc ∈ ws.locs, loc < st.heap.size) :
    Enters ws st.heap (ws.create name st).1 (ws.create name st).2.1 (ws.create name st).2.2.heap := by
  have hgrows := Heap.Grows.alloc st.heap (Stack.make (name.getD (Text.roman (ws.unnamed + 1))) [])
  cases name <;> exact (enters_of_locs rfl _).of_keepsNames (.of_grows hgrows) hbounds

theorem nameOf_create (ws : Workspace) (name : Option String) (st : Store) :
    (ws.create name st).2.2.heap.nameOf (ws.create name st).1 = ws.createdName name := by
  cases name <;> exact congrArg Stack.name (Heap.get_alloc_self _ _)

theorem keepsNames_create (ws : Workspace) (name : Option String) (st : Store) :
    st.heap.KeepsNames (ws.create name st).2.2.heap := by
  cases name <;> exact .of_grows (.alloc _ _)

theorem fst_create (ws : Workspace) (name : Option String) (st : Store) :
    (ws.create name st).1 < (ws.create name st).2.2.heap.size := by
  cases name <;> exact Heap.size_lt_alloc _ _

/-! ## Workspaces that come about -/

/-- **How a workspace comes about.** It is new, or is read from a text; then stacks are made, by a
name or without one, and stacks from elsewhere are added, in any order. In between the heap may grow
and its stacks may change, but not in name. The last argument lists the names that are not from the
counter: those that were read, given or brought along. -/
inductive Reached (g : Grammar) (l : Localizer) : Workspace → Store → List String → Prop
  | new (st : Store) : Reached g l empty st []
  | parsed {text : String} {st st' : Store} {ws : Workspace}
      (hread : parse g l text st = .ok (ws, st')) : Reached g l ws st' (ws.names st'.heap)
  | named {ws : Workspace} {st : Store} {given : List String} (before : Reached g l ws st given)
      (name : String) : Reached g l (ws.create (some name) st).2.1 (ws.create (some name) st).2.2
        (given ++ [ws.createdName (some name)])
  | unnamed {ws : Workspace} {st : Store} {given : List String} (before : Reached g l ws st given) :
      Reached g l (ws.create none st).2.1 (ws.create none st).2.2 given
  | added {ws : Workspace} {st : Store} {given : List String} (before : Reached g l ws st given)
      {loc : Loc} (hloc : loc < st.heap.size) :
      Reached g l (ws.add loc) st (given ++ [st.heap.nameOf loc])
  | meanwhile {ws : Workspace} {st st' : Store} {given : List String}
      (before : Reached g l ws st given) (hkeeps : st.heap.KeepsNames st'.heap) :
      Reached g l ws st' given

/-- **The names of a workspace** are those that were given, and the numerals up to the counter. -/
structure Numbered (ws : Workspace) (h : Heap) (given : List String) : Prop where
  bounds : ∀ loc ∈ ws.locs, loc < h.size
  names : ∀ n ∈ ws.names h, n ∈ given ∨ ∃ k ≤ ws.unnamed, n = Text.roman k
  given : given ⊆ ws.names h

theorem bounds_of_parse {g : Grammar} {l : Localizer} {text : String} {st st' : Store}
    (hread : parse g l text st = .ok (ws, st')) : ∀ loc ∈ ws.locs, loc < st'.heap.size := by
  rw [parse] at hread
  split at hread
  · cases hread
    exact fun loc hloc => ((ofRecords_built l _ st).bounds loc hloc).2
  · cases hread

theorem Numbered.enters {given given' : List String} (hnumbered : Numbered ws h given)
    (hkeeps : h.KeepsNames h') (henters : Enters ws h loc ws' h') (hloc : loc < h'.size)
    (hcounter : ws.unnamed ≤ ws'.unnamed) (hgiven : given ⊆ given')
    (hname : h'.nameOf loc ∈ given' ∨ ∃ k ≤ ws'.unnamed, h'.nameOf loc = Text.roman k)
    (hgiven' : given' ⊆ given ++ [h'.nameOf loc]) : Numbered ws' h' given' := by
  refine ⟨?_, ?_, ?_⟩
  · intro a ha
    rw [henters.locs, List.mem_append, List.mem_singleton] at ha
    rcases ha with ha | rfl
    · exact (hnumbered.bounds a ha).trans_le hkeeps.size
    · exact hloc
  · intro n hn
    rw [henters.names, List.mem_append, List.mem_singleton] at hn
    rcases hn with hn | rfl
    · exact (hnumbered.names n hn).imp (hgiven ·) fun ⟨k, hk, hroman⟩ =>
        ⟨k, hk.trans hcounter, hroman⟩
    · exact hname
  · rw [henters.names]
    refine List.Subset.trans hgiven' (List.append_subset.2 ⟨?_, List.subset_append_right _ _⟩)
    exact List.Subset.trans hnumbered.given (List.subset_append_left _ _)

theorem Reached.numbered {g : Grammar} {l : Localizer} {st : Store} {given : List String}
    (hreached : Reached g l ws st given) : Numbered ws st.heap given := by
  induction hreached with
  | new st => exact ⟨by simp [empty], by simp [Workspace.names, empty], List.nil_subset _⟩
  | parsed hread => exact ⟨bounds_of_parse hread, fun n hn => .inl hn, List.Subset.refl _⟩
  | @named ws st given before name ih =>
    refine ih.enters (keepsNames_create ..) (enters_create _ ih.bounds) (fst_create ..)
      (Nat.le_refl _) (List.subset_append_left _ _) (.inl ?_) ?_
    · rw [nameOf_create]
      exact List.mem_append_right _ (List.mem_singleton_self _)
    · rw [nameOf_create]
      exact List.Subset.refl _
  | @unnamed ws st given before ih =>
    refine ih.enters (keepsNames_create ..) (enters_create _ ih.bounds) (fst_create ..)
      (Nat.le_succ _) (List.Subset.refl _) (.inr ⟨ws.unnamed + 1, Nat.le_refl _, ?_⟩)
      (List.subset_append_left _ _)
    rw [nameOf_create, createdName_none]
  | added before hloc ih =>
    exact ih.enters (.of_eq rfl) (enters_add ..) hloc (Nat.le_refl _) (List.subset_append_left _ _)
      (.inl (List.mem_append_right _ (List.mem_singleton_self _))) (List.Subset.refl _)
  | meanwhile before hkeeps ih =>
    refine ⟨fun loc hloc => (ih.bounds loc hloc).trans_le hkeeps.size, ?_, ?_⟩
    · rw [names_keepsNames hkeeps ih.bounds]
      exact ih.names
    · rw [names_keepsNames hkeeps ih.bounds]
      exact ih.given

/-- A new stack whose name is taken is not found. -/
theorem Enters.not_found (henters : Enters ws h loc ws' h') (hbounds : ∀ a ∈ ws.locs, a < h.size)
    (hnew : h.size ≤ loc) (htaken : h'.nameOf loc ∈ ws.names h) :
    ws'.find? h' (h'.nameOf loc) ≠ some loc := by
  intro hfound
  cases hearlier : ws.find? h (h'.nameOf loc) with
  | none => exact find?_eq_none_iff.1 hearlier htaken
  | some a =>
    obtain rfl := Option.some.inj ((henters.kept _ _ hearlier).symm.trans hfound)
    exact absurd (hbounds a (List.mem_of_find?_eq_some hearlier)) (Nat.not_lt.2 hnew)

/-- **New stacks are found.** A stack that is made without a name is called by the next numeral, and
it is found under it if and only if the numeral is no name that was read, given or brought along. All
stacks, however they enter, leave those alone that were found before, and are found if their name is
new. -/
theorem find?_created {g : Grammar} {l : Localizer} {st st' : Store} {given : List String}
    (hreached : Reached g l ws st given) :
    (ws.create none st = (loc, ws', st') →
      Enters ws st.heap loc ws' st'.heap ∧
        st'.heap.nameOf loc = Text.roman (ws.unnamed + 1) ∧
        (ws'.find? st'.heap (st'.heap.nameOf loc) = some loc ↔
          Text.roman (ws.unnamed + 1) ∉ given) ∧
        (Text.roman (ws.unnamed + 1) ∉ given →
          (ws.names st.heap).Nodup → (ws'.names st'.heap).Nodup)) ∧
      (∀ name, ws.create (some name) st = (loc, ws', st') → Enters ws st.heap loc ws' st'.heap) ∧
      Enters ws st.heap loc (ws.add loc) st.heap := by
  have hnumbered := hreached.numbered
  refine ⟨fun hcreate => ?_, fun name hcreate => ?_, enters_add ws st.heap loc⟩
  · have henters := enters_create none hnumbered.bounds
    have hname := nameOf_create ws none st
    have hlast : (ws.create none st).1 = st.heap.size := rfl
    rw [hcreate, createdName_none] at hname
    rw [hcreate] at henters hlast
    -- the numerals of the counter are others
    have hnew : Text.roman (ws.unnamed + 1) ∉ given → st'.heap.nameOf loc ∉ ws.names st.heap := by
      intro hfree hmem
      rw [hname] at hmem
      rcases hnumbered.names _ hmem with hgiven | ⟨k, hk, hroman⟩
      · exact hfree hgiven
      · have := Text.roman_injective hroman
        omega
    refine ⟨henters, hname, ⟨fun hfound hgiven => ?_, fun hfree => henters.found (hnew hfree)⟩,
      fun hfree => henters.distinct (hnew hfree)⟩
    exact henters.not_found hnumbered.bounds (Nat.le_of_eq hlast.symm)
      (hname ▸ hnumbered.given hgiven) hfound
  · have henters := enters_create (some name) hnumbered.bounds
    rwa [hcreate] at henters

/-- A text with one stack, read. -/
theorem exists_parse_single (name : String) (hname : name.isEmpty = false)
    (hrecords : Grammar.core.records? ("@" ++ name ++ " \x7b T \x7d") =
      some [⟨name, [], [.boolean true]⟩]) :
    ∃ ws st, parse Grammar.core .plain ("@" ++ name ++ " \x7b T \x7d") (Store.ofSeed 0) =
      .ok (ws, st) ∧ ws.locs = [0] ∧ ws.unnamed = 0 ∧ st.heap.size = 1 ∧ st.heap.nameOf 0 = name := by
  refine ⟨_, _, by rw [parse, hrecords], rfl, rfl, rfl, ?_⟩
  change (if name.isEmpty then "i" else name) = name
  rw [hname]
  rfl

/-- After `a` is read, a stack that is made without a name is `i`, and is found. -/
theorem find?_created_beside_a : ∃ ws st, Reached Grammar.core .plain ws st ["a"] ∧
    ∃ loc ws' st', ws.create none st = (loc, ws', st') ∧ ws'.names st'.heap = ["a", "i"] ∧
      ws'.find? st'.heap "i" = some loc := by
  obtain ⟨ws, st, hread, hlocs, hunnamed, -, hname⟩ :=
    exists_parse_single "a" rfl (by decide +kernel)
  have hnames : ws.names st.heap = ["a"] := by
    rw [names, hlocs, List.map_singleton, hname]
  have hreached := Reached.parsed hread
  rw [hnames] at hreached
  obtain ⟨loc, ws', st', hcreate⟩ : ∃ loc ws' st', ws.create none st = (loc, ws', st') :=
    ⟨_, _, _, rfl⟩
  obtain ⟨henters, hcreated, hfound, -⟩ := (find?_created hreached).1 hcreate
  rw [hcreated, hunnamed] at hfound
  replace hfound := hfound.2 (by decide)
  rw [hunnamed] at hcreated
  refine ⟨ws, st, hreached, loc, ws', st', hcreate, ?_, hfound⟩
  rw [henters.names, hnames, hcreated]
  rfl

/-- A numeral that is read first goes on being found. -/
theorem not_find?_created_beside_i :
    ¬ ∀ {ws : Workspace} {st : Store} {given : List String},
      Reached Grammar.core .plain ws st given → ∀ {loc : Loc} {ws' : Workspace} {st' : Store},
        ws.create none st = (loc, ws', st') →
          ws'.find? st'.heap (st'.heap.nameOf loc) = some loc := by
  intro hall
  obtain ⟨ws, st, hread, hlocs, hunnamed, hsize, hname⟩ :=
    exists_parse_single "i" rfl (by decide +kernel)
  have hreached := Reached.parsed hread
  obtain ⟨loc, ws', st', hcreate⟩ : ∃ loc ws' st', ws.create none st = (loc, ws', st') :=
    ⟨_, _, _, rfl⟩
  have hlast : (ws.create none st).1 = st.heap.size := rfl
  have hcreated := nameOf_create ws none st
  have henters := enters_create none hreached.numbered.bounds
  have hfound := hall hreached hcreate
  rw [hcreate] at hlast hcreated henters
  rw [createdName_none, hunnamed] at hcreated
  have hkept : ws'.find? st'.heap "i" = some 0 :=
    henters.kept "i" 0 (by simp [find?, hlocs, hname])
  have hsame : some 0 = some loc := by
    rw [← hkept, ← hfound]
    exact congrArg _ hcreated.symm
  rw [Option.some.injEq] at hsame
  dsimp only at hlast
  rw [← hsame, hsize] at hlast
  exact absurd hlast (by decide)

/-! ## Names from the counter -/

/-- What is done with a workspace, or beside it. -/
inductive Change where
  /-- A stack is made, by a name or without one. -/
  | create (name : Option String)
  /-- A stack from elsewhere is added. -/
  | add (loc : Loc)
  /-- The heap and the dice become other ones, and stacks may change their names. -/
  | meanwhile (st : Store)

/-- The workspace and the store after a change. -/
def Change.apply : Change → Workspace × Store → Workspace × Store
  | create name, (ws, st) => (ws.create name st).2
  | add loc, (ws, st) => (ws.add loc, st)
  | meanwhile st, (ws, _) => (ws, st)

/-- The name that the new stack has, if one is made without a name. -/
def Change.unnamedName? : Change → Workspace × Store → Option String
  | create none, (ws, st) => some ((ws.create none st).2.2.heap.nameOf (ws.create none st).1)
  | _, _ => none

/-- The names that stacks have on being made without one, in the course of changes. -/
def unnamedNames : List Change → Workspace × Store → List String
  | [], _ => []
  | change :: changes, s =>
    (change.unnamedName? s).toList ++ unnamedNames changes (change.apply s)

/-- **The counter names stacks in turn**, whatever is done in between. -/
theorem unnamedNames_eq (changes : List Change) (s : Workspace × Store) :
    ∃ k, unnamedNames changes s = (List.range' (s.1.unnamed + 1) k).map Text.roman := by
  induction changes generalizing s with
  | nil => exact ⟨0, rfl⟩
  | cons change changes ih =>
    obtain ⟨k, hk⟩ := ih (change.apply s)
    rw [unnamedNames, hk]
    obtain ⟨ws, st⟩ := s
    cases change with
    | create name =>
      cases name with
      | none =>
        refine ⟨k + 1, ?_⟩
        rw [Change.unnamedName?, nameOf_create, createdName_none, List.range'_succ, List.map_cons]
        rfl
      | some name => exact ⟨k, rfl⟩
    | add loc => exact ⟨k, rfl⟩
    | meanwhile st' => exact ⟨k, rfl⟩

/-- **Numerals tell numbers apart.** By the subtractive rule, the numeral of a number is read as the
number, and it consists of letters only. So different numbers have different numerals, and stacks
that one workspace makes without a name have different names, whatever is done in between. -/
theorem numerals_tell_apart :
    (∀ n, Text.subtractive (Text.roman n).toList = n ∧
      (Text.roman n).toList.all (0 < Text.letterValue ·) = true) ∧
      Function.Injective Text.roman ∧
      ∀ (changes : List Change) (ws : Workspace) (st : Store),
        (unnamedNames changes (ws, st)).Nodup := by
  have hinjective : Function.Injective Text.roman := fun m n h => Text.roman_injective h
  refine ⟨fun n => ⟨Text.subtractive_roman n, List.all_eq_true.2 fun c hc => ?_⟩, hinjective,
    fun changes ws st => ?_⟩
  · exact decide_eq_true (Text.letterValue_pos_of_mem_roman hc)
  · obtain ⟨k, hk⟩ := unnamedNames_eq changes (ws, st)
    rw [hk]
    exact List.Nodup.map hinjective List.nodup_range'

end Workspace

end BlockMachine
