import BlockMachine.Workspace
import BlockMachine.Proofs.Heap.Update
import BlockMachine.Proofs.Heap.Walk
import Mathlib.Data.List.Nodup

/-!
# Building a workspace of records

Reading a workspace only adds stacks to the heap: one for each record, and one for each null block,
package and reference that was read. The added stacks of the latter sort are referred to by one block
each, and linking leaves these blocks alone.

* `Heap.Grows` — a heap with more stacks, the old ones unchanged; `Heap.KeepsNames` — a heap in which
  they have their names, which is what all changes have in common;
* `Made` — a block as it is made of a literal;
* `Fresh` — each added stack is referred to once;
* `Workspace.Built` — a workspace as it is built of records, `Workspace.ofRecords_built`.
-/

namespace BlockMachine

/-- The stack that a null block, a package or an unresolved data block has for itself. -/
def Block.ownStack? : Block → Option Loc
  | .null loc => some loc
  | .package loc => some loc
  | .data loc false => some loc
  | _ => none

theorem Block.stack?_of_ownStack? {b : Block} {loc : Loc} (h : b.ownStack? = some loc) :
    b.stack? = some loc := by
  simp only [ownStack?] at h
  split at h <;> first | exact h | cases h

theorem Block.target?_of_ownStack? {b : Block} {loc : Loc} (h : b.ownStack? = some loc) :
    b.target? = some loc :=
  target?_of_stack? (stack?_of_ownStack? h)

/-! ## Growing heaps -/

namespace Heap

/-- A heap with more stacks; the old ones are unchanged. -/
structure Grows (h h' : Heap) : Prop where
  size : h.size ≤ h'.size
  get : ∀ {loc}, loc < h.size → h'.get loc = h.get loc

namespace Grows

theorem refl (h : Heap) : h.Grows h :=
  ⟨Nat.le_refl _, fun _ => rfl⟩

theorem trans {h₁ h₂ h₃ : Heap} (h : h₁.Grows h₂) (h' : h₂.Grows h₃) : h₁.Grows h₃ :=
  ⟨Nat.le_trans h.size h'.size, fun hlt => (h'.get (Nat.lt_of_lt_of_le hlt h.size)).trans (h.get hlt)⟩

theorem alloc (h : Heap) (s : Stack) : h.Grows (h.alloc s).2 :=
  ⟨by simp, fun hlt => get_alloc_of_lt h s hlt⟩

end Grows

/-- A heap with more stacks; the old ones have the names that they had. -/
structure KeepsNames (h h' : Heap) : Prop where
  size : h.size ≤ h'.size
  nameOf : ∀ {loc}, loc < h.size → h'.nameOf loc = h.nameOf loc

namespace KeepsNames

variable {h h' h'' : Heap}

theorem of_grows (hg : h.Grows h') : h.KeepsNames h' :=
  ⟨hg.size, fun hlt => congrArg Stack.name (hg.get hlt)⟩

theorem of_eq (heq : h' = h) : h.KeepsNames h' :=
  of_grows (heq ▸ .refl _)

theorem trans (hk : h.KeepsNames h') (hk' : h'.KeepsNames h'') : h.KeepsNames h'' :=
  ⟨Nat.le_trans hk.size hk'.size, fun hlt =>
    (hk'.nameOf (Nat.lt_of_lt_of_le hlt hk.size)).trans (hk.nameOf hlt)⟩

end KeepsNames

theorem size_lt_alloc (h : Heap) (s : Stack) : h.size < (h.alloc s).2.size := by
  simp

theorem get_alloc_size (h : Heap) (s : Stack) : (h.alloc s).2.get h.size = s :=
  get_alloc_self h s

/-! ## References -/

/-- The stacks that the blocks of the stacks from `n` on refer to. -/
def refs (h : Heap) (n : Nat) : List Loc :=
  (h.cells.toList.drop n).flatMap fun s => s.blocks.filterMap Block.target?

theorem refs_alloc {h : Heap} {n : Nat} (hn : n ≤ h.size) (s : Stack) :
    (h.alloc s).2.refs n = h.refs n ++ s.blocks.filterMap Block.target? := by
  have hn' : n ≤ h.cells.toList.length := by simpa [size] using hn
  simp [refs, alloc, List.drop_append_of_le_length hn']

theorem refs_size (h : Heap) : h.refs h.size = [] := by
  simp [refs, size, List.drop_eq_nil_of_le]

theorem lt_size_of_getElem? {h : Heap} {loc k : Nat} {b : Block}
    (hb : (h.blocks loc)[k]? = some b) : loc < h.size := by
  by_contra hge
  have hnil : h.blocks loc = [] := by
    have hge' : ¬ loc < h.cells.size := hge
    simp [blocks, get, hge', Stack.make]
  simp [hnil] at hb

theorem getElem?_drop_cells {h : Heap} {n loc : Nat} (hn : n ≤ loc) (hlt : loc < h.size) :
    (h.cells.toList.drop n)[loc - n]? = some (h.get loc) := by
  have hlt' : loc < h.cells.size := hlt
  rw [List.getElem?_drop, Nat.add_sub_cancel' hn]
  simp [get, hlt']

end Heap

/-- **Each stack is referred to once.** Of the stacks from `n` on, none is referred to by two blocks
of such stacks, and `pending` lists stacks that are not referred to yet. -/
structure Fresh (n : Nat) (h : Heap) (pending : List Loc) : Prop where
  within : n ≤ h.size
  nodup : (h.refs n ++ pending).Nodup
  bounds : ∀ c ∈ h.refs n ++ pending, n ≤ c ∧ c < h.size

namespace Fresh

variable {n : Nat} {h : Heap} {pending : List Loc}

/-- Some of the pending stacks go into a new one. -/
theorem alloc {s : Stack} (hf : Fresh n h (pending ++ s.blocks.filterMap Block.target?)) :
    Fresh n (h.alloc s).2 (pending ++ [h.size]) := by
  have hrefs := Heap.refs_alloc hf.within s
  have hperm : ((h.alloc s).2.refs n ++ (pending ++ [h.size])).Perm
      (h.size :: (h.refs n ++ (pending ++ s.blocks.filterMap Block.target?))) := by
    rw [hrefs, List.append_assoc, ← List.append_assoc _ pending]
    refine (List.Perm.append_left _ (List.perm_append_singleton _ _)).trans ?_
    refine List.perm_middle.trans (List.Perm.cons _ ?_)
    exact List.Perm.append_left _ List.perm_append_comm
  have hsize : (h.alloc s).2.size = h.size + 1 := Heap.size_alloc h s
  refine ⟨by rw [hsize]; exact Nat.le_succ_of_le hf.within, ?_, ?_⟩
  · rw [hperm.nodup_iff, List.nodup_cons]
    exact ⟨fun hmem => Nat.lt_irrefl _ (hf.bounds _ hmem).2, hf.nodup⟩
  · intro c hc
    rw [hsize]
    rcases List.mem_cons.1 (hperm.mem_iff.1 hc) with rfl | hmem
    · exact ⟨hf.within, Nat.lt_succ_self _⟩
    · have hb := hf.bounds c hmem
      exact ⟨hb.1, Nat.lt_succ_of_lt hb.2⟩

/-- A new empty stack. -/
theorem alloc_nil {s : Stack} (hs : s.blocks = []) (hf : Fresh n h pending) :
    Fresh n (h.alloc s).2 (pending ++ [h.size]) :=
  alloc (by simpa [hs] using hf)

/-- Two blocks of one stack that refer to one stack are one. -/
theorem index_unique {bs : List Block} (hnodup : (bs.filterMap Block.target?).Nodup)
    {k k' d : Nat} {y y' : Block} (hy : bs[k]? = some y) (hy' : bs[k']? = some y')
    (hd : y.target? = some d) (hd' : y'.target? = some d) : k = k' := by
  have hpair := List.pairwise_filterMap.1 hnodup
  obtain ⟨hk, rfl⟩ := List.getElem?_eq_some_iff.1 hy
  obtain ⟨hk', rfl⟩ := List.getElem?_eq_some_iff.1 hy'
  rcases Nat.lt_trichotomy k k' with hlt | heq | hlt
  · exact absurd rfl (List.pairwise_iff_getElem.1 hpair k k' hk hk' hlt d hd d hd')
  · exact heq
  · exact absurd rfl (List.pairwise_iff_getElem.1 hpair k' k hk' hk hlt d hd' d hd)

/-- **Two blocks that refer to one stack are one.** -/
theorem unique {b b' k k' d : Nat} {y y' : Block} (hf : Fresh n h pending) (hb : n ≤ b)
    (hb' : n ≤ b') (hy : (h.blocks b)[k]? = some y) (hy' : (h.blocks b')[k']? = some y')
    (hd : y.target? = some d) (hd' : y'.target? = some d) : b = b' ∧ k = k' := by
  obtain ⟨hstacks, hpair⟩ := List.nodup_flatMap.1 (List.nodup_append.1 hf.nodup).1
  have hcell := Heap.getElem?_drop_cells hb (Heap.lt_size_of_getElem? hy)
  have hcell' := Heap.getElem?_drop_cells hb' (Heap.lt_size_of_getElem? hy')
  have hmem : d ∈ (h.get b).blocks.filterMap Block.target? :=
    List.mem_filterMap.2 ⟨y, List.mem_of_getElem? hy, hd⟩
  have hmem' : d ∈ (h.get b').blocks.filterMap Block.target? :=
    List.mem_filterMap.2 ⟨y', List.mem_of_getElem? hy', hd'⟩
  have hbb : b = b' := by
    obtain ⟨hi, hget⟩ := List.getElem?_eq_some_iff.1 hcell
    obtain ⟨hi', hget'⟩ := List.getElem?_eq_some_iff.1 hcell'
    rcases Nat.lt_trichotomy b b' with hlt | heq | hlt
    · have hdisj := List.pairwise_iff_getElem.1 hpair (b - n) (b' - n) hi hi' (by omega)
      rw [hget, hget'] at hdisj
      exact absurd hmem' (hdisj hmem)
    · exact heq
    · have hdisj := List.pairwise_iff_getElem.1 hpair (b' - n) (b - n) hi' hi (by omega)
      rw [hget, hget'] at hdisj
      exact absurd hmem (hdisj hmem')
  subst hbb
  exact ⟨rfl, index_unique (hstacks _ (List.mem_of_getElem? hcell)) hy hy' hd hd'⟩

/-- What a block of a stack from `n` on refers to is none of the pending stacks. -/
theorem apart {b d : Nat} {y : Block} (hf : Fresh n h pending) (hb : n ≤ b)
    (hy : y ∈ h.blocks b) (hd : y.target? = some d) : n ≤ d ∧ d < h.size ∧ d ∉ pending := by
  obtain ⟨k, hk⟩ := List.mem_iff_getElem?.1 hy
  have hcell := Heap.getElem?_drop_cells hb (Heap.lt_size_of_getElem? hk)
  have hmem : d ∈ h.refs n :=
    List.mem_flatMap.2 ⟨h.get b, List.mem_of_getElem? hcell, List.mem_filterMap.2 ⟨y, hy, hd⟩⟩
  have hbounds := hf.bounds d (List.mem_append_left _ hmem)
  refine ⟨hbounds.1, hbounds.2, fun hpending => ?_⟩
  exact (List.nodup_append.1 hf.nodup).2.2 d hmem d hpending rfl

end Fresh

/-! ## Made blocks -/

/-- A block as it is made of a literal: a null block and a reference get an empty stack, a package
gets one with the block inside. -/
def Made (l : Localizer) (h : Heap) : Literal → Block → Prop
  | .null, y => ∃ d, y = .null d ∧ h.blocks d = []
  | .data name, y => ∃ d, y = .data d false ∧ h.blocks d = [] ∧
      h.nameOf d = if name.isEmpty then "a1" else name
  | .package inner, y => ∃ d z, y = .package d ∧ h.blocks d = [z] ∧ Made l h inner z
  | x, y => ∃ dice, y = (x.make l ⟨Heap.empty, dice⟩).1

namespace Literal

theorem make_grows (l : Localizer) (x : Literal) (st : Store) :
    st.heap.Grows (x.make l st).2.heap := by
  induction x with
  | null | data _ => exact .alloc _ _
  | package inner ih => exact ih.trans (.alloc _ _)
  | _ => exact .refl _

/-- Making a block gives a stack that nothing refers to yet, or none. -/
theorem make_fresh {l : Localizer} {n : Nat} {pending : List Loc} (x : Literal) {st : Store}
    (hf : Fresh n st.heap pending) :
    Fresh n (x.make l st).2.heap (pending ++ (x.make l st).1.target?.toList) := by
  induction x with
  | null | data _ => exact hf.alloc_nil rfl
  | package inner ih =>
    refine Fresh.alloc (s := Stack.make _ [(inner.make l st).1]) ?_
    have hlist : [(inner.make l st).1].filterMap Block.target?
        = (inner.make l st).1.target?.toList := by
      cases h : (inner.make l st).1.target? with
      | none => simp [h]
      | some d => simp [h]
    have hblocks : (Stack.make ((inner.make l st).2.heap.shown l (inner.make l st).1)
      [(inner.make l st).1]).blocks = [(inner.make l st).1] := rfl
    rw [hblocks, hlist]
    exact ih
  | _ => simpa [make, Block.target?, Block.stack?, Block.ofFraction] using hf

/-- **What is made of a literal**, in every heap that keeps the stacks that were added for it. -/
theorem make_made {l : Localizer} {h : Heap} (x : Literal) (st : Store)
    (hh : ∀ loc, st.heap.size ≤ loc → loc < (x.make l st).2.heap.size →
      h.get loc = (x.make l st).2.heap.get loc) : Made l h x (x.make l st).1 := by
  induction x with
  | null =>
    have hget : h.get st.heap.size = Stack.make "null" [] :=
      (hh _ (Nat.le_refl _) (Heap.size_lt_alloc _ _)).trans (Heap.get_alloc_size _ _)
    exact ⟨st.heap.size, rfl, by rw [Heap.blocks, hget]; rfl⟩
  | data name =>
    have hget : h.get st.heap.size = Stack.make (if name.isEmpty then "a1" else name) [] :=
      (hh _ (Nat.le_refl _) (Heap.size_lt_alloc _ _)).trans (Heap.get_alloc_size _ _)
    refine ⟨st.heap.size, rfl, by rw [Heap.blocks, hget]; rfl, ?_⟩
    rw [Heap.nameOf, hget]
    by_cases hname : name.isEmpty = true
    · simp [Stack.make, hname]
    · simp [Stack.make, hname]
  | package inner ih =>
    have hgrows := make_grows l inner st
    have hsize : ((Literal.package inner).make l st).2.heap.size
        = (inner.make l st).2.heap.size + 1 := Heap.size_alloc _ _
    have hget : h.get (inner.make l st).2.heap.size
        = Stack.make ((inner.make l st).2.heap.shown l (inner.make l st).1)
          [(inner.make l st).1] :=
      (hh _ hgrows.size (by omega)).trans (Heap.get_alloc_size _ _)
    refine ⟨(inner.make l st).2.heap.size, (inner.make l st).1, rfl, by rw [Heap.blocks, hget]; rfl,
      ih fun loc hle hlt => ?_⟩
    rw [hh loc hle (by omega)]
    exact Heap.get_alloc_of_lt _ _ hlt
  | _ => exact ⟨st.dice, rfl⟩

theorem makeAll_grows (l : Localizer) (xs : List Literal) (st : Store) :
    st.heap.Grows (makeAll l xs st).2.heap := by
  induction xs generalizing st with
  | nil => exact .refl _
  | cons x xs ih => exact (make_grows l x st).trans (ih _)

theorem makeAll_fresh {l : Localizer} {n : Nat} {pending : List Loc} (xs : List Literal)
    {st : Store} (hf : Fresh n st.heap pending) :
    Fresh n (makeAll l xs st).2.heap
      (pending ++ (makeAll l xs st).1.filterMap Block.target?) := by
  induction xs generalizing st pending with
  | nil => simpa [makeAll] using hf
  | cons x xs ih =>
    have hxs := ih (make_fresh (l := l) x hf)
    have hlist : (makeAll l (x :: xs) st).1.filterMap Block.target?
        = (x.make l st).1.target?.toList
          ++ (makeAll l xs (x.make l st).2).1.filterMap Block.target? := by
      simp only [makeAll, List.filterMap_cons]
      cases (x.make l st).1.target? <;> rfl
    rw [hlist, ← List.append_assoc]
    exact hxs

theorem makeAll_made {l : Localizer} {h : Heap} (xs : List Literal) (st : Store)
    (hh : ∀ loc, st.heap.size ≤ loc → loc < (makeAll l xs st).2.heap.size →
      h.get loc = (makeAll l xs st).2.heap.get loc) :
    List.Forall₂ (Made l h) xs (makeAll l xs st).1 := by
  induction xs generalizing st with
  | nil => exact .nil
  | cons x xs ih =>
    have hx := make_grows l x st
    have hxs := makeAll_grows l xs (x.make l st).2
    refine .cons (make_made x st fun loc hle hlt => ?_) (ih _ fun loc hle hlt => ?_)
    · rw [hh loc hle (Nat.lt_of_lt_of_le hlt hxs.size)]
      exact hxs.get hlt
    · exact hh loc (Nat.le_trans hx.size hle) hlt

end Literal

/-! ## Records -/

namespace Workspace

/-- The stack of a record. -/
def recordStack (r : Record) (blocks : List Block) : Stack :=
  { Stack.make r.name blocks with inputs := r.inputs }

/-- The store with the stack of a record. -/
def afterRecord (l : Localizer) (r : Record) (st : Store) : Store :=
  ((Literal.makeAll l r.body st).2.alloc
    (recordStack r (Literal.makeAll l r.body st).1)).2

theorem allocRecords_cons (l : Localizer) (r : Record) (rs : List Record) (ws : Workspace)
    (st : Store) :
    allocRecords l (r :: rs) ws st
      = allocRecords l rs (ws.add (Literal.makeAll l r.body st).2.heap.size)
          (afterRecord l r st) := rfl

theorem afterRecord_grows (l : Localizer) (r : Record) (st : Store) :
    (Literal.makeAll l r.body st).2.heap.Grows (afterRecord l r st).heap :=
  .alloc _ _

theorem allocRecords_grows (l : Localizer) (rs : List Record) (ws : Workspace) (st : Store) :
    st.heap.Grows (allocRecords l rs ws st).2.heap := by
  induction rs generalizing ws st with
  | nil => exact .refl _
  | cons r rs ih =>
    rw [allocRecords_cons]
    exact ((Literal.makeAll_grows l r.body st).trans (afterRecord_grows l r st)).trans (ih _ _)

/-- The stacks of a workspace under construction are referred to by nothing. -/
theorem allocRecords_fresh {l : Localizer} {n : Nat} (rs : List Record) {ws : Workspace}
    {st : Store} (hf : Fresh n st.heap ws.locs) :
    Fresh n (allocRecords l rs ws st).2.heap (allocRecords l rs ws st).1.locs := by
  induction rs generalizing ws st with
  | nil => exact hf
  | cons r rs ih =>
    rw [allocRecords_cons]
    exact ih (Fresh.alloc (Literal.makeAll_fresh r.body hf))

/-- A stack as it is allocated for a record; `final` is the heap in the end. -/
def Allocated (l : Localizer) (h final : Heap) (r : Record) (d : Loc) : Prop :=
  ∃ ys, h.get d = recordStack r ys ∧ List.Forall₂ (Made l final) r.body ys

/-- The stacks of records are added at the end, in order. -/
theorem allocRecords_allocated {l : Localizer} (rs : List Record) (ws : Workspace) (st : Store) :
    ∃ news, (allocRecords l rs ws st).1.locs = ws.locs ++ news ∧ (∀ d ∈ news, st.heap.size ≤ d) ∧
      ∀ final : Heap,
        (∀ loc, st.heap.size ≤ loc → loc < (allocRecords l rs ws st).2.heap.size → loc ∉ news →
          final.get loc = (allocRecords l rs ws st).2.heap.get loc) →
        List.Forall₂ (Allocated l (allocRecords l rs ws st).2.heap final) rs news := by
  induction rs generalizing ws st with
  | nil => exact ⟨[], by simp [allocRecords], by simp, fun _ _ => .nil⟩
  | cons r rs ih =>
    rw [allocRecords_cons]
    generalize hd : (Literal.makeAll l r.body st).2.heap.size = d
    have hmade := Literal.makeAll_grows l r.body st
    have hafter := afterRecord_grows l r st
    have hsize : (afterRecord l r st).heap.size = d + 1 := by
      rw [← hd]
      exact Heap.size_alloc _ _
    have hrest := allocRecords_grows l rs (ws.add d) (afterRecord l r st)
    obtain ⟨news, hlocs, hbounds, hnews⟩ := ih (ws.add d) (afterRecord l r st)
    refine ⟨d :: news, by rw [hlocs]; simp [add], ?_, fun final hfinal => .cons ?_ (hnews final ?_)⟩
    · intro e he
      rcases List.mem_cons.1 he with rfl | he
      · rw [← hd]
        exact hmade.size
      · have := hbounds e he
        have := hmade.size
        omega
    · -- the stack of the first record, which is not touched any more
      refine ⟨(Literal.makeAll l r.body st).1, ?_, Literal.makeAll_made r.body st fun loc hle hlt => ?_⟩
      · rw [hrest.get (by omega), ← hd]
        exact Heap.get_alloc_size _ _
      · have hout : loc ∉ d :: news := by
          intro hmem
          rcases List.mem_cons.1 hmem with rfl | hmem
          · omega
          · have := hbounds loc hmem
            omega
        have := hrest.size
        rw [hfinal loc hle (by omega) hout, hrest.get (by omega), hafter.get hlt]
    · intro loc hle hlt hnot
      have := hmade.size
      refine hfinal loc (by omega) hlt fun hmem => ?_
      rcases List.mem_cons.1 hmem with rfl | hmem
      · omega
      · exact hnot hmem

/-! ## Linking -/

/-- The same change of several stacks. -/
theorem get_foldl_modify {f : Stack → Stack} {locs : List Loc} (hnodup : locs.Nodup) {h : Heap}
    (hlt : ∀ loc ∈ locs, loc < h.size) (loc : Loc) :
    (locs.foldl (fun acc loc => acc.modify loc f) h).get loc
      = if loc ∈ locs then f (h.get loc) else h.get loc := by
  induction locs generalizing h with
  | nil => simp
  | cons a locs ih =>
    obtain ⟨hnot, hnodup⟩ := List.nodup_cons.1 hnodup
    have hrest := ih hnodup (h := h.modify a f) fun loc hloc => by
      rw [Heap.size_modify]
      exact hlt loc (List.mem_cons_of_mem a hloc)
    rw [List.foldl_cons, hrest]
    by_cases hloc : loc = a
    · subst hloc
      simp [hnot, Heap.get_modify_self h f (hlt loc List.mem_cons_self)]
    · simp [hloc, Heap.get_modify_of_ne h f hloc]

theorem size_foldl_modify {f : Stack → Stack} (locs : List Loc) (h : Heap) :
    (locs.foldl (fun acc loc => acc.modify loc f) h).size = h.size := by
  induction locs generalizing h with
  | nil => rfl
  | cons a locs ih => rw [List.foldl_cons, ih, Heap.size_modify]

/-- Linking binds the blocks of the stacks of the workspace, and changes nothing else. -/
theorem get_link {ws : Workspace} {h : Heap} (hnodup : ws.locs.Nodup)
    (hlt : ∀ loc ∈ ws.locs, loc < h.size) (loc : Loc) :
    (ws.link h).get loc =
      if loc ∈ ws.locs then { h.get loc with blocks := (h.blocks loc).map (ws.resolve h) }
      else h.get loc :=
  get_foldl_modify hnodup hlt loc

theorem nameOf_link {ws : Workspace} {h : Heap} (hnodup : ws.locs.Nodup)
    (hlt : ∀ loc ∈ ws.locs, loc < h.size) (loc : Loc) :
    (ws.link h).nameOf loc = h.nameOf loc := by
  rw [Heap.nameOf, get_link hnodup hlt]
  split <;> rfl

/-- A block with a stack of its own was not bound. -/
theorem ownStack?_of_resolve {ws : Workspace} {h : Heap} {b : Block} {d : Loc}
    (hd : (ws.resolve h b).ownStack? = some d) : b.ownStack? = some d := by
  simp only [resolve] at hd
  split at hd
  case h_1 =>
    split at hd
    · cases hd
    · exact hd
  case h_2 => cases hd
  case h_3 => exact hd

theorem exists_of_getElem?_link {ws : Workspace} {h : Heap} (hnodup : ws.locs.Nodup)
    (hlt : ∀ loc ∈ ws.locs, loc < h.size) {loc k d : Nat} {y : Block}
    (hy : ((ws.link h).blocks loc)[k]? = some y) (hd : y.ownStack? = some d) :
    ∃ y₀, (h.blocks loc)[k]? = some y₀ ∧ y₀.target? = some d := by
  rw [Heap.blocks, get_link hnodup hlt] at hy
  split at hy
  case isTrue _ =>
    obtain ⟨y₀, hy₀, rfl⟩ := Option.map_eq_some_iff.1 ((List.getElem?_map ..).symm.trans hy)
    exact ⟨y₀, hy₀, Block.target?_of_ownStack? (ownStack?_of_resolve hd)⟩
  case isFalse _ => exact ⟨y, hy, Block.target?_of_ownStack? hd⟩

/-! ## The workspace of records -/

/-- The stack of a record in the end: its blocks are made of the literals and then bound. -/
structure StackOf (l : Localizer) (ws : Workspace) (h : Heap) (r : Record) (d : Loc) : Prop where
  name : h.nameOf d = if r.name.isEmpty then "i" else r.name
  inputs : (h.get d).inputs = r.inputs
  blocks : ∃ ys, List.Forall₂ (Made l h) r.body ys ∧ h.blocks d = ys.map (ws.resolve h)

/-- A workspace as it is built of records in a heap `h`, which it extends to `final`. -/
structure Built (l : Localizer) (h : Heap) (rs : List Record) (ws : Workspace) (final : Heap) :
    Prop where
  grows : h.Grows final
  bounds : ∀ d ∈ ws.locs, h.size ≤ d ∧ d < final.size
  distinct : ws.locs.Nodup
  made : List.Forall₂ (StackOf l ws final) rs ws.locs
  /-- Each stack that a block has for itself belongs to one block. -/
  once : ∀ {b b' k k' d : Nat} {y y' : Block}, h.size ≤ b → h.size ≤ b' →
    (final.blocks b)[k]? = some y → (final.blocks b')[k']? = some y' →
    y.ownStack? = some d → y'.ownStack? = some d → b = b' ∧ k = k'
  /-- Such a stack is none of the workspace. -/
  apart : ∀ {b k d : Nat} {y : Block}, h.size ≤ b → (final.blocks b)[k]? = some y →
    y.ownStack? = some d → h.size ≤ d ∧ d < final.size ∧ d ∉ ws.locs

/-- Each stack of a workspace that is built of records is the stack of a record. -/
theorem Built.exists_record {l : Localizer} {h final : Heap} {rs : List Record} {ws : Workspace}
    (hb : Built l h rs ws final) {loc : Loc} (hloc : loc ∈ ws.locs) :
    ∃ r ∈ rs, StackOf l ws final r loc := by
  obtain ⟨i, hi, rfl⟩ := List.getElem_of_mem hloc
  have hlen := hb.made.length_eq
  exact ⟨rs[i], List.getElem_mem _, List.Forall₂.get hb.made (by omega) hi⟩

/-- The stack of a record after linking. -/
theorem stackOf_of_allocated {l : Localizer} {ws : Workspace} {h : Heap} (hnodup : ws.locs.Nodup)
    (hlt : ∀ loc ∈ ws.locs, loc < h.size) {r : Record} {d : Loc} (hd : d ∈ ws.locs)
    (hr : Allocated l h (ws.link h) r d) : StackOf l ws (ws.link h) r d := by
  obtain ⟨ys, hget, hmade⟩ := hr
  have hname := nameOf_link hnodup hlt
  refine ⟨?_, ?_, ys, hmade, ?_⟩
  · rw [hname, Heap.nameOf, hget]
    rfl
  · rw [get_link hnodup hlt, if_pos hd, hget]
    rfl
  · have hresolve : ws.resolve (ws.link h) = ws.resolve h := funext (ws.resolve_congr hname)
    rw [hresolve, Heap.blocks, get_link hnodup hlt, if_pos hd, Heap.blocks, hget]
    rfl

theorem forall₂_stackOf {l : Localizer} {ws : Workspace} {h : Heap} (hnodup : ws.locs.Nodup)
    (hlt : ∀ loc ∈ ws.locs, loc < h.size) {rs : List Record} {ds : List Loc}
    (hds : ∀ d ∈ ds, d ∈ ws.locs) (hrs : List.Forall₂ (Allocated l h (ws.link h)) rs ds) :
    List.Forall₂ (StackOf l ws (ws.link h)) rs ds := by
  induction hrs with
  | nil => exact .nil
  | cons hr _ ih =>
    obtain ⟨hd, hds⟩ := List.forall_mem_cons.1 hds
    exact .cons (stackOf_of_allocated hnodup hlt hd hr) (ih hds)

/-- **Reading records** builds a workspace of them. -/
theorem ofRecords_built (l : Localizer) (rs : List Record) (st : Store) :
    Built l st.heap rs (ofRecords l rs st).1 (ofRecords l rs st).2.heap := by
  have hstart : Fresh st.heap.size st.heap empty.locs :=
    ⟨Nat.le_refl _, by simp [Heap.refs_size, empty], by simp [Heap.refs_size, empty]⟩
  have hfresh := allocRecords_fresh (l := l) rs hstart
  have hgrows := allocRecords_grows l rs empty st
  obtain ⟨news, hlocs, hbounds, hnews⟩ := allocRecords_allocated (l := l) rs empty st
  change Built l st.heap rs (allocRecords l rs empty st).1
    ((allocRecords l rs empty st).1.link (allocRecords l rs empty st).2.heap)
  generalize (allocRecords l rs empty st).1 = ws at *
  generalize (allocRecords l rs empty st).2.heap = h at *
  obtain rfl : ws.locs = news := by simpa [empty] using hlocs
  have hnodup : ws.locs.Nodup := (List.nodup_append.1 hfresh.nodup).2.1
  have hlt : ∀ loc ∈ ws.locs, loc < h.size := fun loc hloc =>
    (hfresh.bounds loc (List.mem_append_right _ hloc)).2
  have hsize : (ws.link h).size = h.size := size_foldl_modify ws.locs h
  have hkept : ∀ loc, loc ∉ ws.locs → (ws.link h).get loc = h.get loc := by
    intro loc hloc
    rw [get_link hnodup hlt, if_neg hloc]
  refine ⟨⟨by rw [hsize]; exact hgrows.size, fun {loc} hloc => ?_⟩, fun d hd => ?_, hnodup,
    ?_, ?_, ?_⟩
  · have hout : loc ∉ ws.locs := fun hmem => by
      have := hbounds loc hmem
      omega
    rw [hkept loc hout, hgrows.get hloc]
  · rw [hsize]
    exact ⟨hbounds d hd, hlt d hd⟩
  · exact forall₂_stackOf hnodup hlt (fun d hd => hd)
      (hnews (ws.link h) fun loc _ _ hout => hkept loc hout)
  · intro b b' k k' d y y' hb hb' hy hy' hd hd'
    obtain ⟨y₀, hy₀, ht₀⟩ := exists_of_getElem?_link hnodup hlt hy hd
    obtain ⟨y₁, hy₁, ht₁⟩ := exists_of_getElem?_link hnodup hlt hy' hd'
    exact hfresh.unique hb hb' hy₀ hy₁ ht₀ ht₁
  · intro b k d y hb hy hd
    obtain ⟨y₀, hy₀, ht₀⟩ := exists_of_getElem?_link hnodup hlt hy hd
    rw [hsize]
    exact hfresh.apart hb (List.mem_of_getElem? hy₀) ht₀

/-! ## Workspaces that are read or made -/

/-- The stacks of a workspace are in the heap, and none is listed twice. -/
structure Listed (ws : Workspace) (h : Heap) : Prop where
  distinct : ws.locs.Nodup
  allocated : ∀ loc ∈ ws.locs, loc < h.size

/-- A stack that is added to the heap may be added to the workspace. -/
theorem Listed.add {ws : Workspace} {h : Heap} (hws : ws.Listed h) (s : Stack) :
    (ws.add h.size).Listed (h.alloc s).2 := by
  have hlt : ∀ loc ∈ ws.locs ++ [h.size], loc < (h.alloc s).2.size := by
    intro loc hloc
    rcases List.mem_append.1 hloc with hloc | hloc
    · exact Nat.lt_trans (hws.allocated loc hloc) (Heap.size_lt_alloc h s)
    · rw [List.mem_singleton.1 hloc]
      exact Heap.size_lt_alloc h s
  refine ⟨List.nodup_append.2 ⟨hws.distinct, List.nodup_singleton _, ?_⟩, hlt⟩
  rintro loc hloc _ hnew rfl
  have := hws.allocated loc hloc
  rw [List.mem_singleton.1 hnew] at this
  exact Nat.lt_irrefl _ this

theorem Listed.create {ws : Workspace} {st : Store} (hws : ws.Listed st.heap)
    (name : Option String) :
    (ws.create name st).2.1.Listed (ws.create name st).2.2.heap := by
  cases name with
  | none =>
    have hcounted : Listed { ws with unnamed := ws.unnamed + 1 } st.heap :=
      ⟨hws.distinct, hws.allocated⟩
    exact hcounted.add _
  | some name => exact hws.add _

theorem listed_of_parse {g : Grammar} {l : Localizer} {text : String} {st st' : Store}
    {ws : Workspace} (h : parse g l text st = .ok (ws, st')) : ws.Listed st'.heap := by
  rw [parse] at h
  split at h
  case h_1 records _ =>
    cases h
    have hb := ofRecords_built l records st
    exact ⟨hb.distinct, fun loc hloc => (hb.bounds loc hloc).2⟩
  case h_2 => cases h

end Workspace

end BlockMachine
