import BlockMachine.Text.Template
import Mathlib.Data.List.Basic

/-!
# What filling touches

Where the slots of a template are depends on the template alone. It is cut into pieces from the
front: a slot goes from two opening braces to the first two closing ones behind them, and everything
else stays as it is, opening braces that are never closed included. Filling puts values in place of
slots, piece by piece, so it never looks into a value.

* `Piece`, `pieces` — cutting a template; `flatMap_written_pieces` — nothing is lost;
* `fillChars_eq` — filling a template is filling its pieces;
* `layout` — texts with slots between them, `pieces_layout` — and where they are cut;
* `fill_slots_only` — what filling replaces, and what it leaves alone.
-/

namespace BlockMachine.Text

/-! ## Pieces -/

/-- A piece of a template. -/
inductive Piece where
  /-- A character outside of slots. -/
  | char (c : Char)
  /-- The slot of a name. -/
  | slot (name : List Char)

namespace Piece

/-- A piece as it stands in the template. -/
def written : Piece → List Char
  | char c => [c]
  | slot name => openMark ++ name ++ closeMark

/-- A piece as it is filled. -/
def filled (values : List (String × String)) : Piece → List Char
  | char c => [c]
  | slot name => (valueOf values name).getD (openMark ++ name ++ closeMark)

end Piece

/-- Cuts a template. Behind an opening mark that is never closed there are no more slots. -/
def pieces : List Char → List Piece
  | [] => []
  | c :: rest =>
    if c = '\x7b' ∧ rest.head? = some '\x7b' then
      match _h : splitClose rest.tail with
      | some (name, after) => .slot name :: pieces after
      | none => (c :: rest).map .char
    else .char c :: pieces rest
termination_by s => s.length
decreasing_by
  · have hlt := splitClose_length _h
    simp only [List.length_tail, List.length_cons] at hlt ⊢
    omega
  · simp

section

variable {c : Char} {rest name after : List Char}

theorem pieces_of_closed (hopen : c = '\x7b' ∧ rest.head? = some '\x7b')
    (hclose : splitClose rest.tail = some (name, after)) :
    pieces (c :: rest) = .slot name :: pieces after := by
  rw [pieces, if_pos hopen]
  split
  case h_1 name' after' heq =>
    obtain ⟨rfl, rfl⟩ := Prod.mk.inj (Option.some.inj (hclose.symm.trans heq))
    rfl
  case h_2 heq =>
    rw [hclose] at heq
    cases heq

theorem pieces_of_unclosed (hopen : c = '\x7b' ∧ rest.head? = some '\x7b')
    (hclose : splitClose rest.tail = none) : pieces (c :: rest) = (c :: rest).map .char := by
  rw [pieces, if_pos hopen]
  split
  case h_1 name' after' heq =>
    rw [hclose] at heq
    cases heq
  case h_2 heq => rfl

theorem pieces_of_not_open (hopen : ¬ (c = '\x7b' ∧ rest.head? = some '\x7b')) :
    pieces (c :: rest) = .char c :: pieces rest := by
  rw [pieces, if_neg hopen]

/-- A slot that is found is all of the text up to its closing mark. -/
theorem eq_of_splitClose {s : List Char} (h : splitClose s = some (name, after)) :
    s = name ++ closeMark ++ after := by
  induction s generalizing name with
  | nil => simp [splitClose] at h
  | cons c rest ih =>
    rw [splitClose] at h
    split at h
    case isTrue hmark =>
      obtain ⟨more, rfl⟩ := List.head?_eq_some_iff.1 hmark.2
      cases h
      rw [hmark.1]
      rfl
    case isFalse _ =>
      obtain ⟨⟨front, behind⟩, hsplit, heq⟩ := Option.map_eq_some_iff.1 h
      cases heq
      rw [ih hsplit]
      rfl

/-- A name without closing braces ends where the slot is closed. -/
theorem splitClose_append (hname : '\x7d' ∉ name) (rest : List Char) :
    splitClose (name ++ closeMark ++ rest) = some (name, rest) := by
  induction name with
  | nil => rfl
  | cons c name ih =>
    rw [List.mem_cons, not_or] at hname
    have hc : ¬ (c = '\x7d' ∧ (name ++ closeMark ++ rest).head? = some '\x7d') :=
      fun h => hname.1 h.1.symm
    rw [List.cons_append, List.cons_append, splitClose, if_neg hc, ih hname.2]
    rfl

end

/-- Characters outside of slots are taken over one by one. -/
theorem flatMap_char {f : Piece → List Char} (hf : ∀ c, f (.char c) = [c]) (s : List Char) :
    (s.map Piece.char).flatMap f = s := by
  induction s with
  | nil => rfl
  | cons c s ih => rw [List.map_cons, List.flatMap_cons, hf, ih, List.singleton_append]

/-- **Nothing is lost**, however the braces of the template are placed. -/
theorem flatMap_written_pieces (s : List Char) : (pieces s).flatMap Piece.written = s := by
  fun_induction pieces s with
  | case1 => rfl
  | case2 c rest hopen name after hclose ih =>
    obtain ⟨rfl, hhead⟩ := hopen
    obtain ⟨more, rfl⟩ := List.head?_eq_some_iff.1 hhead
    rw [List.flatMap_cons, ih, Piece.written, List.append_assoc, List.append_assoc,
      ← List.append_assoc name, ← eq_of_splitClose hclose]
    rfl
  | case3 c rest hopen hclose => exact flatMap_char (fun _ => rfl) (c :: rest)
  | case4 c rest hopen ih => exact congrArg (c :: ·) ih

/-- **Filling goes piece by piece**, and the pieces do not depend on the values. -/
theorem fillChars_eq (values : List (String × String)) (s : List Char) :
    fillChars values s = (pieces s).flatMap (Piece.filled values) := by
  fun_induction fillChars values s with
  | case1 => simp [pieces]
  | case2 c rest hopen name after hclose value hvalue ih =>
    rw [pieces_of_closed hopen hclose, List.flatMap_cons, ← ih, Piece.filled, hvalue,
      Option.getD_some]
  | case3 c rest hopen name after hclose hvalue ih =>
    rw [pieces_of_closed hopen hclose, List.flatMap_cons, ← ih, Piece.filled, hvalue,
      Option.getD_none]
  | case4 c rest hopen hclose =>
    rw [pieces_of_unclosed hopen hclose, flatMap_char fun _ => rfl]
  | case5 c rest hopen ih =>
    rw [pieces_of_not_open hopen, List.flatMap_cons, ← ih]
    rfl

/-! ## Values that are slots -/

/-- The value of a name is the first one that is listed for it. -/
theorem valueOf_toList (values : List (String × String)) (name : String) :
    valueOf values name.toList = (values.lookup name).map String.toList := by
  induction values with
  | nil => rfl
  | cons p values ih =>
    rw [valueOf, List.find?_cons, List.lookup_cons]
    by_cases h : name = p.1
    · simp [h]
    · have hlist : (p.1.toList == name.toList) = false := by
        simpa [String.toList_inj] using Ne.symm h
      rw [hlist, beq_false_of_ne h]
      exact ih

/-- A slot whose value is the slot itself stays. -/
theorem filled_eq_written {values : List (String × String)}
    (hvalues : ∀ p ∈ values, p.2 = slot p.1) (p : Piece) : p.filled values = p.written := by
  cases p with
  | char c => rfl
  | slot name =>
    rw [Piece.filled, Piece.written]
    cases hvalue : valueOf values name with
    | none => rfl
    | some value =>
      obtain ⟨q, hfind, rfl⟩ := Option.map_eq_some_iff.1 hvalue
      obtain rfl : q.1.toList = name := by simpa using List.find?_some hfind
      rw [hvalues q (List.mem_of_find?_eq_some hfind), slot, String.toList_ofList]
      rfl

theorem fill_self {values : List (String × String)} (hvalues : ∀ p ∈ values, p.2 = slot p.1)
    (template : String) : fill template values = template := by
  have hfilled : Piece.filled values = Piece.written := funext (filled_eq_written hvalues)
  rw [fill, fillChars_eq, hfilled, flatMap_written_pieces, String.ofList_toList]

/-! ## Texts with slots between them -/

/-- A text, and behind it slots that have texts behind them. -/
def layout (slotOf : String → String) (front : String) (parts : List (String × String)) : String :=
  front ++ String.join (parts.map fun p => slotOf p.1 ++ p.2)

theorem toList_layout_cons (slotOf : String → String) (front : String) (part : String × String)
    (parts : List (String × String)) : (layout slotOf front (part :: parts)).toList =
      front.toList ++ ((slotOf part.1).toList ++ (layout slotOf part.2 parts).toList) := by
  simp [layout]

/-- A text without opening braces stays. -/
theorem pieces_append {s : List Char} (hs : '\x7b' ∉ s) (rest : List Char) :
    pieces (s ++ rest) = s.map .char ++ pieces rest := by
  induction s with
  | nil => rfl
  | cons c s ih =>
    rw [List.mem_cons, not_or] at hs
    rw [List.cons_append, pieces_of_not_open fun h => hs.1 h.1.symm, ih hs.2]
    rfl

theorem pieces_slot {name : String} (hname : '\x7d' ∉ name.toList) (rest : List Char) :
    pieces ((slot name).toList ++ rest) = .slot name.toList :: pieces rest := by
  have hslot : (slot name).toList ++ rest =
      '\x7b' :: '\x7b' :: (name.toList ++ closeMark ++ rest) := by
    rw [slot, String.toList_ofList]
    simp [openMark]
  rw [hslot]
  exact pieces_of_closed ⟨rfl, rfl⟩ (splitClose_append hname rest)

/-- **Slots are filled** with the first value that is listed for their names, or stay. -/
theorem fillChars_layout (values : List (String × String)) {front : String}
    {parts : List (String × String)} (hfront : '\x7b' ∉ front.toList)
    (hparts : ∀ p ∈ parts, '\x7d' ∉ p.1.toList ∧ '\x7b' ∉ p.2.toList) :
    fillChars values (layout slot front parts).toList =
      (layout (fun name => (values.lookup name).getD (slot name)) front parts).toList := by
  induction parts generalizing front with
  | nil =>
    have hpieces := pieces_append hfront []
    rw [List.append_nil] at hpieces
    have hnone : pieces [] = [] := by rw [pieces]
    have hkept := flatMap_char (f := Piece.filled values) (fun _ => rfl) front.toList
    simp [layout, fillChars_eq, hpieces, hnone, hkept]
  | cons part parts ih =>
    obtain ⟨⟨hname, hbehind⟩, hparts⟩ := List.forall_mem_cons.1 hparts
    have hslot : Piece.filled values (.slot part.1.toList) =
        ((values.lookup part.1).getD (slot part.1)).toList := by
      rw [Piece.filled, valueOf_toList, slot]
      cases values.lookup part.1 with
      | none => exact String.toList_ofList.symm
      | some value => rfl
    have hrest := ih hbehind hparts
    rw [fillChars_eq] at hrest
    rw [toList_layout_cons, toList_layout_cons, fillChars_eq, pieces_append hfront,
      pieces_slot hname, List.flatMap_append, List.flatMap_cons,
      flatMap_char fun _ => rfl, hslot, hrest]

/-- **Filling touches nothing but slots.** If every value is the slot of its own name, or if there
are no values, the template stays as it is, whatever braces it has. Slots between texts without
opening braces are replaced by the first values that are listed for their names, whatever braces
these have, and slots without a value stay. -/
theorem fill_slots_only (template : String) (values : List (String × String)) :
    ((∀ p ∈ values, p.2 = slot p.1) → fill template values = template) ∧
      fill template [] = template ∧
      ∀ (front : String) (parts : List (String × String)), '\x7b' ∉ front.toList →
        (∀ p ∈ parts, '\x7d' ∉ p.1.toList ∧ '\x7b' ∉ p.2.toList) →
          fill (layout slot front parts) values =
            layout (fun name => (values.lookup name).getD (slot name)) front parts := by
  refine ⟨fun hvalues => fill_self hvalues template, ?_, fun front parts hfront hparts => ?_⟩
  · exact fill_self (List.forall_mem_nil _) template
  · rw [fill, fillChars_layout values hfront hparts, String.ofList_toList]

/-- Braces that are nested and unbalanced, and a value that holds a slot. -/
theorem fill_slots_only_nested :
    fill "\x7b\x7b\x7ba\x7d\x7d\x7d \x7b\x7bb" [("\x7ba", slot "\x7ba")] =
        "\x7b\x7b\x7ba\x7d\x7d\x7d \x7b\x7bb" ∧
      fill "\x7b\x7b\x7ba\x7d\x7d\x7d \x7b\x7bb" [] = "\x7b\x7b\x7ba\x7d\x7d\x7d \x7b\x7bb" ∧
      fill "x \x7b\x7ba\x7d\x7d\x7d \x7b\x7bb\x7d\x7d" [("a", slot "b"), ("a", "2")] =
        "x \x7b\x7bb\x7d\x7d\x7d \x7b\x7bb\x7d\x7d" := by
  have hself := fill_slots_only "\x7b\x7b\x7ba\x7d\x7d\x7d \x7b\x7bb" [("\x7ba", slot "\x7ba")]
  have hvalues := fill_slots_only "" [("a", slot "b"), ("a", "2")]
  refine ⟨hself.1 (by simp), hself.2.1, ?_⟩
  exact hvalues.2.2 "x " [("a", "\x7d "), ("b", "")] (by decide) (by decide)

end BlockMachine.Text
