/-!
# Message templates

A message is a template with slots: a name between two opening and two closing braces. Filling a
template replaces each slot whose name has a value; other slots stay as they are, and a value is
never scanned for further slots.

* `splitClose` — the text up to the first closing mark, and what follows it;
* `fillChars`, `fill` — filling a template;
* `slot` — the slot of a name.
-/

namespace BlockMachine.Text

/-- The mark that opens a slot, as characters. -/
def openMark : List Char := ['\x7b', '\x7b']

/-- The mark that closes a slot, as characters. -/
def closeMark : List Char := ['\x7d', '\x7d']

/-- Splits at the first closing mark. -/
def splitClose : List Char → Option (List Char × List Char)
  | [] => none
  | c :: rest =>
    if c = '\x7d' ∧ rest.head? = some '\x7d' then some ([], rest.tail)
    else (splitClose rest).map fun p => (c :: p.1, p.2)

theorem splitClose_length {s : List Char} {p : List Char × List Char} (h : splitClose s = some p) :
    p.2.length < s.length := by
  induction s generalizing p with
  | nil => simp [splitClose] at h
  | cons c rest ih =>
    unfold splitClose at h
    split at h
    · cases h
      simp only [List.length_tail, List.length_cons]
      omega
    · obtain ⟨q, hq, rfl⟩ := Option.map_eq_some_iff.1 h
      have := ih hq
      simp only [List.length_cons]
      omega

/-- The value of `name`, the first one when it is given twice. -/
def valueOf (values : List (String × String)) (name : List Char) : Option (List Char) :=
  (values.find? fun p => p.1.toList == name).map fun p => p.2.toList

/-- Fills the slots of a template. -/
def fillChars (values : List (String × String)) : List Char → List Char
  | [] => []
  | c :: rest =>
    if c = '\x7b' ∧ rest.head? = some '\x7b' then
      match _h : splitClose rest.tail with
      | some (name, after) =>
        match valueOf values name with
        | some value => value ++ fillChars values after
        | none => openMark ++ name ++ closeMark ++ fillChars values after
      | none => c :: rest
    else c :: fillChars values rest
termination_by s => s.length
decreasing_by
  · have hlt := splitClose_length _h
    simp only [List.length_tail, List.length_cons] at hlt ⊢
    omega
  · have hlt := splitClose_length _h
    simp only [List.length_tail, List.length_cons] at hlt ⊢
    omega
  · simp

/-- Fills the slots of a template. -/
def fill (template : String) (values : List (String × String)) : String :=
  String.ofList (fillChars values template.toList)

/-- The slot of `name`. -/
def slot (name : String) : String :=
  String.ofList (openMark ++ name.toList ++ closeMark)

end BlockMachine.Text
