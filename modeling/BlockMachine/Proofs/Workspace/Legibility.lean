import BlockMachine.Proofs.Workspace.Building
import Mathlib.Data.List.Perm.Subperm

/-!
# Texts in a growing heap

The text of a block depends on the heap, and on its size: a package is written with the block inside
it, and the size bounds how deep packages are nested. Still a heap that grows changes no text of what
was there before, because packages that are nested in one another are all different.

* `Heap.Unwraps` — the packages that writing a block unwraps, outermost first;
* `Heap.Unwraps.length_le` — there are at most as many as stacks;
* `Workspace.Grounded` — all that writing a workspace reads is in the heap; this holds of every
  workspace that is read from a text: `Workspace.grounded_of_parse`;
* `Workspace.Grounded.written` — then its text stays the same while the heap grows.
-/

namespace BlockMachine

namespace Heap

/-- What writing a block unwraps: the stacks of the packages, outermost first. All that is read
on the way is in the heap. -/
inductive Unwraps (h : Heap) : Block → List Loc → Prop where
  | flat {b : Block} : (∀ loc, b ≠ .package loc) →
    (∀ loc resolved, b = .data loc resolved → loc < h.size) → Unwraps h b []
  | hollow {loc : Loc} : loc < h.size → h.blocks loc = [] → Unwraps h (.package loc) [loc]
  | wrapped {loc : Loc} {inner : Block} {rest : List Block} {locs : List Loc} :
    h.blocks loc = inner :: rest → Unwraps h inner locs → Unwraps h (.package loc) (loc :: locs)

namespace Unwraps

variable {h h' : Heap} {b : Block} {locs : List Loc}

theorem lt (hb : h.Unwraps b locs) : ∀ loc ∈ locs, loc < h.size := by
  induction hb with
  | flat =>
    intro loc hloc
    cases hloc
  | hollow hlt _ =>
    intro loc hloc
    rw [List.mem_singleton.1 hloc]
    exact hlt
  | @wrapped top inner rest locs hblocks _ ih =>
    have htop : top < h.size := lt_size_of_getElem? (k := 0) (b := inner) (by simp [hblocks])
    intro loc hloc
    rcases List.mem_cons.1 hloc with rfl | hloc
    · exact htop
    · exact ih loc hloc

/-- A block unwraps in one way. -/
theorem unique {locs' : List Loc} (hb : h.Unwraps b locs) (hb' : h.Unwraps b locs') :
    locs = locs' := by
  induction hb generalizing locs' with
  | flat hne _ =>
    cases hb' with
    | flat => rfl
    | hollow => exact absurd rfl (hne _)
    | wrapped => exact absurd rfl (hne _)
  | hollow _ hnil =>
    cases hb' with
    | flat hne => exact absurd rfl (hne _)
    | hollow => rfl
    | wrapped hblocks =>
      rw [hnil] at hblocks
      cases hblocks
  | wrapped hblocks _ ih =>
    cases hb' with
    | flat hne => exact absurd rfl (hne _)
    | hollow _ hnil =>
      rw [hnil] at hblocks
      cases hblocks
    | wrapped hblocks' hinner =>
      rw [hblocks] at hblocks'
      cases hblocks'
      rw [ih hinner]

/-- A package on the way unwraps to what is left of the way. -/
theorem suffix (hb : h.Unwraps b locs) {loc : Loc} (hloc : loc ∈ locs) :
    ∃ rest, h.Unwraps (.package loc) (loc :: rest) ∧ (loc :: rest) <:+ locs := by
  induction hb with
  | flat => cases hloc
  | hollow hlt hnil =>
    obtain rfl := List.mem_singleton.1 hloc
    exact ⟨[], .hollow hlt hnil, List.suffix_refl _⟩
  | wrapped hblocks hinner ih =>
    rcases List.mem_cons.1 hloc with rfl | hloc
    · exact ⟨_, .wrapped hblocks hinner, List.suffix_refl _⟩
    · obtain ⟨rest, hrest, hsuffix⟩ := ih hloc
      exact ⟨rest, hrest, hsuffix.trans (List.suffix_cons _ _)⟩

/-- No package is inside itself: the way from it would be shorter than itself. -/
theorem nodup (hb : h.Unwraps b locs) : locs.Nodup := by
  induction hb with
  | flat => exact List.nodup_nil
  | hollow => exact List.nodup_singleton _
  | @wrapped loc inner rest locs hblocks hinner ih =>
    refine List.nodup_cons.2 ⟨?_, ih⟩
    intro hmem
    obtain ⟨rest', hrest, hsuffix⟩ := hinner.suffix hmem
    have heq := hrest.unique (.wrapped hblocks hinner)
    have hlen := hsuffix.length_le
    rw [heq, List.length_cons] at hlen
    omega

theorem length_le (hb : h.Unwraps b locs) : locs.length ≤ h.size := by
  have hsub : locs ⊆ List.range h.size := fun loc hloc => List.mem_range.2 (hb.lt loc hloc)
  have := (List.subperm_of_subset hb.nodup hsub).length_le
  rwa [List.length_range] at this

/-- The text of a block in a heap that has grown, with room for the packages to unwrap. -/
theorem writtenAt (hb : h.Unwraps b locs) (hg : h.Grows h') :
    ∀ {depth depth' : Nat}, locs.length ≤ depth → locs.length ≤ depth' →
      h'.writtenAt depth' b = h.writtenAt depth b := by
  induction hb with
  | @flat b hne hdata =>
    intro depth depth' _ _
    cases b with
    | package loc => exact absurd rfl (hne loc)
    | data loc resolved =>
      simp only [Heap.writtenAt, nameOf]
      rw [hg.get (hdata loc resolved rfl)]
    | _ => simp only [Heap.writtenAt]
  | hollow hlt hnil =>
    intro depth depth' hd hd'
    obtain ⟨depth, rfl⟩ : ∃ k, depth = k + 1 := ⟨depth - 1, by simp at hd; omega⟩
    obtain ⟨depth', rfl⟩ : ∃ k, depth' = k + 1 := ⟨depth' - 1, by simp at hd'; omega⟩
    simp only [Heap.writtenAt, bracketed, blocks] at hnil ⊢
    rw [hg.get hlt, hnil]
  | @wrapped loc inner rest locs hblocks hinner ih =>
    intro depth depth' hd hd'
    rw [List.length_cons] at hd hd'
    obtain ⟨depth, rfl⟩ : ∃ k, depth = k + 1 := ⟨depth - 1, by omega⟩
    obtain ⟨depth', rfl⟩ : ∃ k, depth' = k + 1 := ⟨depth' - 1, by omega⟩
    have hlt : loc < h.size := lt_size_of_getElem? (k := 0) (b := inner) (by simp [hblocks])
    have hih := ih (Nat.le_of_succ_le_succ hd) (Nat.le_of_succ_le_succ hd')
    simp only [Heap.writtenAt, bracketed, blocks] at hblocks ⊢
    rw [hg.get hlt, hblocks]
    simp only [hih]

/-- **The text of a block survives** that the heap grows. -/
theorem written (hb : h.Unwraps b locs) (hg : h.Grows h') : h'.written b = h.written b := by
  have hlen := hb.length_le
  have hsize := hg.size
  exact hb.writtenAt hg (by omega) (by omega)

end Unwraps

end Heap

namespace Workspace

/-- All that is read when the workspace is written is in the heap. -/
structure Grounded (ws : Workspace) (h : Heap) : Prop where
  allocated : ∀ loc ∈ ws.locs, loc < h.size
  blocks : ∀ loc ∈ ws.locs, ∀ b ∈ h.blocks loc, ∃ locs, h.Unwraps b locs

/-- **The text of a workspace survives** that the heap grows. -/
theorem Grounded.written {ws : Workspace} {h h' : Heap} (hws : ws.Grounded h) (hg : h.Grows h') :
    ws.written h' = ws.written h := by
  have hstack : ∀ loc ∈ ws.locs, writtenStack h' (h'.get loc) = writtenStack h (h.get loc) := by
    intro loc hloc
    have htexts : (h.get loc).blocks.map (fun b => h'.written b ++ " ") =
        (h.get loc).blocks.map (fun b => h.written b ++ " ") := by
      refine List.map_congr_left ?_
      intro b hb
      obtain ⟨locs, hb⟩ := hws.blocks loc hloc b hb
      rw [hb.written hg]
    rw [hg.get (hws.allocated loc hloc), writtenStack, writtenStack, htexts]
  rw [Workspace.written, Workspace.written, List.map_congr_left hstack]

/-! ## Workspaces that are read -/

/-- A block as it is made of a literal, among blocks whose own stacks are in the heap. -/
theorem unwraps_of_made {l : Localizer} {h : Heap} {n : Nat}
    (hown : ∀ {b k d : Nat} {y : Block}, n ≤ b → (h.blocks b)[k]? = some y →
      y.ownStack? = some d → n ≤ d ∧ d < h.size) (x : Literal) :
    ∀ {y : Block}, Made l h x y → (∀ d, y.ownStack? = some d → n ≤ d ∧ d < h.size) →
      ∃ locs, h.Unwraps y locs := by
  induction x with
  | data name =>
    rintro y ⟨d, rfl, -, -⟩ hd
    refine ⟨[], .flat (by simp) ?_⟩
    rintro loc resolved heq
    cases heq
    exact (hd d rfl).2
  | package inner ih =>
    rintro y ⟨d, z, rfl, hblocks, hz⟩ hd
    have hin : (h.blocks d)[0]? = some z := by simp [hblocks]
    obtain ⟨locs, hlocs⟩ := ih hz fun e he => hown (hd d rfl).1 hin he
    exact ⟨d :: locs, .wrapped hblocks hlocs⟩
  | null =>
    rintro y ⟨d, rfl, -⟩ -
    exact ⟨[], .flat (by simp) (by simp)⟩
  | _ =>
    rintro y ⟨dice, rfl⟩ -
    exact ⟨[], .flat (by simp [Literal.make, Block.ofFraction])
      (by simp [Literal.make, Block.ofFraction])⟩

/-- A block that is bound is a call or leads to a stack of the workspace. -/
theorem resolve_cases (ws : Workspace) (h : Heap) (b : Block) :
    ws.resolve h b = b ∨ (∃ loc ∈ ws.locs, ws.resolve h b = .data loc true) ∨
      ∃ name target, ws.resolve h b = .code name target := by
  simp only [resolve]
  split
  · split
    · rename_i found hfound
      exact .inr (.inl ⟨found, List.mem_of_find?_eq_some hfound, rfl⟩)
    · exact .inl rfl
  · exact .inr (.inr ⟨_, _, rfl⟩)
  · exact .inl rfl

/-- Every workspace that is built of records is grounded. -/
theorem Built.grounded {l : Localizer} {h final : Heap} {rs : List Record} {ws : Workspace}
    (hb : Built l h rs ws final) : ws.Grounded final := by
  have hlt : ∀ loc ∈ ws.locs, loc < final.size := fun loc hloc => (hb.bounds loc hloc).2
  refine ⟨hlt, ?_⟩
  intro loc hloc b hmem
  obtain ⟨r, -, hr⟩ := hb.exists_record hloc
  obtain ⟨ys, hys, hblocks⟩ := hr.blocks
  rw [hblocks] at hmem
  obtain ⟨y, hy, rfl⟩ := List.mem_map.1 hmem
  rcases ws.resolve_cases final y with hsame | ⟨d, hd, heq⟩ | ⟨name, target, heq⟩
  case inr.inl =>
    rw [heq]
    refine ⟨[], .flat (by simp) ?_⟩
    rintro _ _ ⟨⟩
    exact hlt d hd
  case inr.inr =>
    rw [heq]
    exact ⟨[], .flat (by simp) (by simp)⟩
  rw [hsame]
  obtain ⟨k, hk, rfl⟩ := List.getElem_of_mem hy
  have hin : (final.blocks loc)[k]? = some ys[k] := by
    rw [hblocks, List.getElem?_map, List.getElem?_eq_getElem hk, Option.map_some, hsame]
  have hmade := List.Forall₂.get hys (by have := hys.length_eq; omega) hk
  exact unwraps_of_made (n := h.size) (fun hle hget hd => (hb.apart hle hget hd).imp_right And.left)
    _ hmade fun d hd => (hb.apart (hb.bounds loc hloc).1 hin hd).imp_right And.left

theorem grounded_of_parse {g : Grammar} {l : Localizer} {text : String} {st st' : Store}
    {ws : Workspace} (h : parse g l text st = .ok (ws, st')) : ws.Grounded st'.heap := by
  rw [parse] at h
  split at h
  · rename_i records _
    cases h
    exact (ofRecords_built l records st).grounded
  · cases h

end Workspace

end BlockMachine
