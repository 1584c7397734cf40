import BlockMachine.Proofs.Heap.Relocation
import Mathlib.Logic.Relation

/-!
# The text of a package

A package has the text of the first block inside it, in brackets, and that block may be a package
again. `Heap.writtenAt` and `Heap.shownAt` carry a bound on the nesting, so they end on every heap.
The text itself knows no bound: `Heap.HasText` is the recursion as it stands. A block has a text if
and only if it leads to no package inside itself, and then it is the one that the functions give.

* `Heap.HasText`, `Heap.Writes`, `Heap.Shows` — the text of a block, however deep packages nest;
* `Heap.Opens`, `Heap.Ends` — the package inside another one, and blocks that lead to none inside
  itself;
* `writes_iff`, `shows_iff` — which blocks have a text, and that it is `written` or `shown`.
-/

namespace BlockMachine

namespace Heap

/-- The text of a block: that of a package is the text of the first block inside it, in brackets;
other blocks have those that `plain` gives. -/
inductive HasText (h : Heap) (plain : Block → String) : Block → String → Prop where
  | plain {b : Block} (hb : ∀ loc, b ≠ .package loc) : HasText h plain b (plain b)
  | hollow {loc : Loc} (empty : h.blocks loc = []) : HasText h plain (.package loc) "[]"
  | bracketed {loc : Loc} {b : Block} {rest : List Block} {text : String}
      (holds : h.blocks loc = b :: rest) (inside : HasText h plain b text) :
      HasText h plain (.package loc) ("[" ++ text ++ "]")

/-- A block is written as a text. -/
def Writes (h : Heap) : Block → String → Prop :=
  h.HasText (h.writtenAt 0)

/-- A block is shown as a text. -/
def Shows (l : Localizer) (h : Heap) : Block → String → Prop :=
  h.HasText (shownAt l h 0 [])

/-- The first block inside a package is another package. -/
def Opens (h : Heap) (outer inner : Loc) : Prop :=
  ∃ rest, h.blocks outer = .package inner :: rest

/-- A block leads to no package that is inside itself. -/
def Ends (h : Heap) (b : Block) : Prop :=
  ∀ outer, b = .package outer → ∀ loc, Relation.ReflTransGen h.Opens outer loc →
    ¬ Relation.TransGen h.Opens loc loc

variable {h : Heap} {plain : Block → String} {b : Block} {loc : Loc} {met : List Loc}

/-! ## Packages inside packages -/

theorem ends_of_plain (hb : ∀ loc, b ≠ .package loc) : h.Ends b :=
  fun outer heq => absurd heq (hb outer)

/-- If no package is inside itself, every block ends. -/
theorem ends_of_acyclic (hacyclic : ∀ loc, ¬ Relation.TransGen h.Opens loc loc) (b : Block) :
    h.Ends b :=
  fun _ _ loc _ => hacyclic loc

/-- No package is inside itself where packages hold only packages that were there before. -/
theorem acyclic_of_older (holder : ∀ outer inner, h.Opens outer inner → inner < outer) (loc : Loc) :
    ¬ Relation.TransGen h.Opens loc loc := by
  have hlt : ∀ inner, Relation.TransGen h.Opens loc inner → inner < loc := by
    intro inner hpath
    induction hpath with
    | single hopens => exact holder _ _ hopens
    | tail _ hopens ih => exact Nat.lt_trans (holder _ _ hopens) ih
  exact fun hcycle => Nat.lt_irrefl _ (hlt loc hcycle)

/-- With a package, the first block inside it ends. -/
theorem Ends.inside (hends : h.Ends (.package loc)) {rest : List Block}
    (holds : h.blocks loc = b :: rest) : h.Ends b := by
  rintro inner rfl loc' hpath
  exact hends loc rfl loc' (.head ⟨rest, holds⟩ hpath)

/-- A package ends if the first block inside it does. -/
theorem Ends.package {rest : List Block} (holds : h.blocks loc = b :: rest) (hends : h.Ends b) :
    h.Ends (.package loc) := by
  rintro outer heq loc' hpath hcycle
  cases heq
  have hb : ∀ inner, h.Opens loc inner → b = .package inner := by
    rintro inner ⟨rest', hrest⟩
    rw [holds] at hrest
    cases hrest
    rfl
  rcases hpath.cases_head with rfl | ⟨inner, hopens, hpath⟩
  · -- the package inside comes back to itself as well
    obtain ⟨inner, hopens, hback⟩ := Relation.TransGen.head'_iff.1 hcycle
    exact hends inner (hb inner hopens) inner .refl (.tail' hback hopens)
  · exact hends inner (hb inner hopens) loc' hpath hcycle

/-! ## Which blocks have a text -/

/-- A block with a text ends. -/
theorem HasText.ends {text : String} (ht : h.HasText plain b text) : h.Ends b := by
  induction ht with
  | plain hb => exact ends_of_plain hb
  | @hollow loc empty =>
    rintro outer heq loc' hpath hcycle
    cases heq
    have hnone : ∀ inner, ¬ h.Opens loc inner := by
      rintro inner ⟨rest, hrest⟩
      rw [empty] at hrest
      cases hrest
    rcases hpath.cases_head with rfl | ⟨inner, hopens, -⟩
    · obtain ⟨inner, hopens, -⟩ := Relation.TransGen.head'_iff.1 hcycle
      exact hnone inner hopens
    · exact hnone inner hopens
  | bracketed holds _ ih => exact ih.package holds

/-- The packages of a list are around a block. -/
def Around (h : Heap) (met : List Loc) (b : Block) : Prop :=
  ∀ loc, b = .package loc → ∀ outer ∈ met, Relation.TransGen h.Opens outer loc

/-- A package that ends is not one of those around it. -/
theorem Around.not_mem (haround : h.Around met (.package loc)) (hends : h.Ends (.package loc)) :
    loc ∉ met :=
  fun hmem => hends loc rfl loc .refl (haround loc rfl loc hmem)

/-- Around the first block inside a package are that package and those around it. -/
theorem Around.inside (haround : h.Around met (.package loc)) {rest : List Block}
    (holds : h.blocks loc = b :: rest) : h.Around (loc :: met) b := by
  rintro inner rfl outer hmem
  have hopens : h.Opens loc inner := ⟨rest, holds⟩
  rcases List.mem_cons.1 hmem with rfl | hmem
  · exact .single hopens
  · exact (haround loc rfl outer hmem).tail hopens

/-- So there are fewer packages left to meet. -/
theorem Around.unmet_lt (haround : h.Around met (.package loc)) (hends : h.Ends (.package loc))
    {rest : List Block} (holds : h.blocks loc = b :: rest) : h.unmet (loc :: met) < h.unmet met :=
  h.unmet_cons_lt (lt_size_of_blocks holds) (haround.not_mem hends)

/-- **A block that ends has a text.** -/
theorem Ends.exists_hasText (plain : Block → String) (hends : h.Ends b) :
    ∃ text, h.HasText plain b text := by
  -- by the number of packages that are not around the block
  have hall : ∀ (n : Nat) (met : List Loc) (b : Block), h.unmet met < n → h.Around met b →
      h.Ends b → ∃ text, h.HasText plain b text := by
    intro n
    induction n with
    | zero => exact fun _ _ hlt => absurd hlt (Nat.not_lt_zero _)
    | succ n ih =>
      intro met b hlt haround hends
      by_cases hplain : ∀ loc, b ≠ .package loc
      · exact ⟨_, .plain hplain⟩
      · obtain ⟨loc, hloc⟩ := not_forall.1 hplain
        obtain rfl := not_not.1 hloc
        cases holds : h.blocks loc with
        | nil => exact ⟨_, .hollow holds⟩
        | cons inner rest =>
          have hless := haround.unmet_lt hends holds
          obtain ⟨text, htext⟩ :=
            ih (loc :: met) inner (by omega) (haround.inside holds) (hends.inside holds)
          exact ⟨_, .bracketed holds htext⟩
  exact hall _ [] b (Nat.lt_succ_self _) (fun _ _ _ hmem => absurd hmem List.not_mem_nil) hends

/-! ## The texts with a bound -/

/-- Within the bound, what is written is the text. -/
theorem Writes.writtenAt_eq {text : String} (ht : h.Writes b text) {depth : Nat}
    (hdepth : h.unmet met < depth) (haround : h.Around met b) : h.writtenAt depth b = text := by
  induction ht generalizing depth met with
  | @plain b hb =>
    cases b with
    | package loc => exact absurd rfl (hb loc)
    | _ => simp only [writtenAt]
  | hollow empty => cases depth <;> simp [writtenAt, Heap.bracketed, empty]
  | bracketed holds inside ih =>
    have hless := haround.unmet_lt (inside.ends.package holds) holds
    obtain ⟨depth, rfl⟩ := Nat.exists_eq_succ_of_ne_zero (Nat.ne_zero_of_lt hdepth)
    have hinner := ih (Nat.lt_of_lt_of_le hless (Nat.le_of_lt_succ hdepth)) (haround.inside holds)
    simp only [writtenAt, Heap.bracketed, holds, hinner]

/-- Within the bound, what is shown is the text: no package is met again inside itself. -/
theorem Shows.shownAt_eq {l : Localizer} {text : String} (ht : Shows l h b text) {depth : Nat}
    (hdepth : h.unmet met < depth) (haround : h.Around met b) : shownAt l h depth met b = text := by
  induction ht generalizing depth met with
  | @plain b hb =>
    cases b with
    | package loc => exact absurd rfl (hb loc)
    | code name target => cases target <;> simp only [shownAt]
    | _ => simp only [shownAt]
  | hollow empty => cases depth <;> simp [shownAt, Heap.bracketed, empty]
  | bracketed holds inside ih =>
    have hends := inside.ends.package holds
    have hless := haround.unmet_lt hends holds
    obtain ⟨depth, rfl⟩ := Nat.exists_eq_succ_of_ne_zero (Nat.ne_zero_of_lt hdepth)
    have hinner := ih (Nat.lt_of_lt_of_le hless (Nat.le_of_lt_succ hdepth)) (haround.inside holds)
    have hnew := haround.not_mem hends
    simp [shownAt, hnew, Heap.bracketed, holds, hinner]

theorem around_nil (h : Heap) (b : Block) : h.Around [] b :=
  fun _ _ _ hmem => absurd hmem List.not_mem_nil

/-- **What is written** is the text of the block, if it has one. -/
theorem writes_iff {text : String} : h.Writes b text ↔ h.Ends b ∧ h.written b = text := by
  have hbound : h.unmet [] < h.size + 1 := Nat.lt_succ_of_le (h.unmet_le_size [])
  constructor
  · exact fun ht => ⟨ht.ends, ht.writtenAt_eq hbound (h.around_nil b)⟩
  · rintro ⟨hends, rfl⟩
    obtain ⟨text, ht⟩ := hends.exists_hasText (h.writtenAt 0)
    have heq : h.written b = text := Writes.writtenAt_eq ht hbound (h.around_nil b)
    rw [heq]
    exact ht

/-- **What is shown** is the text of the block, if it has one. -/
theorem shows_iff {l : Localizer} {text : String} :
    Shows l h b text ↔ h.Ends b ∧ h.shown l b = text := by
  have hbound : h.unmet [] < h.size + 1 := Nat.lt_succ_of_le (h.unmet_le_size [])
  constructor
  · exact fun ht => ⟨ht.ends, ht.shownAt_eq hbound (h.around_nil b)⟩
  · rintro ⟨hends, rfl⟩
    obtain ⟨text, ht⟩ := hends.exists_hasText (shownAt l h 0 [])
    have heq : h.shown l b = text := Shows.shownAt_eq ht hbound (h.around_nil b)
    rw [heq]
    exact ht

end Heap

end BlockMachine
