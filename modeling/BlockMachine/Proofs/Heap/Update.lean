import BlockMachine.Workspace

/-!
# Changed stacks

What a change of one stack does to the rest of the heap, and that a change which keeps the names
keeps what blocks are bound to.
-/

namespace BlockMachine

namespace Heap

variable (h : Heap) {loc : Loc} (f g : Stack → Stack)

@[simp] theorem size_modify : (h.modify loc f).size = h.size := by
  simp [modify, size]

/-- The changed stack. -/
theorem get_modify_self (hlt : loc < h.size) : (h.modify loc f).get loc = f (h.get loc) := by
  have hlt' : loc < h.cells.size := hlt
  simp [modify, get, hlt', Array.getElem_modify]

/-- A change leaves all other stacks alone. -/
theorem get_modify_of_ne {other : Loc} (hne : other ≠ loc) :
    (h.modify loc f).get other = h.get other := by
  by_cases hlt : other < h.cells.size
  · simp [modify, get, hlt, Array.getElem_modify, hne.symm]
  · simp [modify, get, hlt]

/-- Two changes of one stack. -/
theorem modify_modify : (h.modify loc f).modify loc g = h.modify loc (g ∘ f) := by
  simp only [modify]
  refine congrArg Heap.mk ?_
  refine Array.ext ?_ ?_
  · simp
  · intro i hi hi'
    by_cases hne : loc = i
    · simp [Array.getElem_modify, hne]
    · simp [Array.getElem_modify, hne]

theorem nameOf_modify (hf : ∀ s, (f s).name = s.name) (other : Loc) :
    (h.modify loc f).nameOf other = h.nameOf other := by
  simp only [nameOf]
  by_cases hne : other = loc
  · subst hne
    by_cases hlt : other < h.size
    · rw [get_modify_self h f hlt, hf]
    · have hlt' : ¬ other < h.cells.size := hlt
      simp [modify, get, hlt']
  · rw [get_modify_of_ne h f hne]

end Heap

namespace Workspace

/-- Blocks are bound by the names of stacks alone. -/
theorem resolve_congr (ws : Workspace) {h h' : Heap} (hname : ∀ loc, h'.nameOf loc = h.nameOf loc)
    (b : Block) : ws.resolve h' b = ws.resolve h b := by
  have hfind : ∀ name, ws.find? h' name = ws.find? h name := by
    intro name
    simp only [find?]
    simp only [hname]
  simp only [resolve]
  split
  · rw [hfind, hname]
  · rw [hfind]
  · rfl

theorem resolve_modify (ws : Workspace) (h : Heap) (loc : Loc) {f : Stack → Stack}
    (hf : ∀ s, (f s).name = s.name) (b : Block) :
    ws.resolve (h.modify loc f) b = ws.resolve h b :=
  ws.resolve_congr (Heap.nameOf_modify h f hf) b

end Workspace

end BlockMachine
