import BlockMachine.Proofs.Json.Layouts

/-!
# Compact JSON text is read back

An object on one line has its members between braces, with commas between them. If each of its values
shows where it ends, so does the object, and it is read as the tree of its members.

* `Delimited.object` — an object on one line is read;
* `Delimited.read?` — so is a text that is nothing else.
-/

namespace BlockMachine.Json

/-- A member of an object on one line. -/
def shortMember (p : String × String) : String :=
  quoted p.1 ++ ":" ++ p.2

/-- Parts with commas between them, up to a closing text. -/
def commas (behind : List Char) : List String → List Char
  | [] => behind
  | [p] => p.toList ++ behind
  | p :: q :: parts => p.toList ++ ',' :: commas behind (q :: parts)

theorem commas_eq_intercalate (behind : List Char) (parts : List String) :
    commas behind parts = [','].intercalate (parts.map String.toList) ++ behind := by
  induction parts with
  | nil => rfl
  | cons p parts ih =>
    cases parts with
    | nil => simp [commas]
    | cons q parts =>
      rw [commas, ih]
      simp only [List.map_cons, List.intercalate_cons_cons, List.append_assoc, List.cons_append,
        List.nil_append]

theorem toList_compactObject (members : List (String × String)) :
    (compactObject members).toList = '\x7b' :: commas ['\x7d'] (members.map shortMember) := by
  rw [commas_eq_intercalate]
  simp [compactObject, String.toList_intercalate, Function.comp_def, shortMember]

theorem commas_append (behind rest : List Char) (parts : List String) :
    commas behind parts ++ rest = commas (behind ++ rest) parts := by
  rw [commas_eq_intercalate, commas_eq_intercalate, List.append_assoc]

theorem toList_shortMember_append (p : String × String) (more : List Char) :
    (shortMember p).toList ++ more = (quoted p.1).toList ++ ':' :: (p.2.toList ++ more) := by
  simp [shortMember]

theorem length_shortMember (p : String × String) : p.2.length + 1 ≤ (shortMember p).length := by
  simp only [shortMember, String.length_append]
  have : ":".length = 1 := rfl
  omega

theorem readMembers_shortMember {p : String × String} {tree : Syntax} (hp : Delimited p.2 tree)
    (more : List Char) {fuel : Nat} (hfuel : 2 * p.2.length ≤ fuel) :
    readMembers (fuel + 1) ((shortMember p).toList ++ more)
      = match skip more with
        | ',' :: rest =>
          (readMembers fuel rest).bind fun ms => some ((points p.1, tree) :: ms.1, ms.2)
        | '\x7d' :: rest => some ([(points p.1, tree)], rest)
        | _ => none := by
  have hnothing : IsSpace [] := by simp [IsSpace]
  have hread := readMembers_keyed hnothing hnothing p.1 (hp fuel more hfuel)
  rw [List.nil_append, List.nil_append] at hread
  rw [toList_shortMember_append]
  exact hread

/-- The members of an object are read up to its closing brace. -/
theorem readMembers_commas (rest : List Char) {parts : List (String × String)}
    {trees : List (String × Syntax)} (hne : parts ≠ [])
    (hparts : List.Forall₂ (fun p t => p.1 = t.1 ∧ Delimited p.2 t.2) parts trees) {fuel : Nat}
    (hfuel : 2 * (commas [] (parts.map shortMember)).length ≤ fuel) :
    readMembers fuel (commas ('\x7d' :: rest) (parts.map shortMember))
      = some (trees.map fun t => (points t.1, t.2), rest) := by
  induction hparts generalizing fuel with
  | nil => exact absurd rfl hne
  | @cons p tree parts trees hp hps ih =>
    obtain ⟨hkey, hvalue⟩ := hp
    have hlength := length_shortMember p
    cases hps with
    | nil =>
      simp only [List.map_cons, List.map_nil, commas, List.length_append,
        String.length_toList] at hfuel ⊢
      obtain ⟨fuel, rfl⟩ : ∃ f, fuel = f + 1 := ⟨fuel - 1, by omega⟩
      rw [readMembers_shortMember hvalue _ (by omega), skip_cons rfl, hkey]
      rfl
    | @cons q _ parts _ _ _ =>
      simp only [List.map_cons, commas, List.length_append, List.length_cons,
        String.length_toList] at hfuel ⊢
      obtain ⟨fuel, rfl⟩ : ∃ f, fuel = f + 1 := ⟨fuel - 1, by omega⟩
      have hless : 2 * (commas [] (shortMember q :: parts.map shortMember)).length ≤ fuel := by
        omega
      have hrest := ih (by simp) hless
      rw [List.map_cons, List.map_cons] at hrest
      rw [readMembers_shortMember hvalue _ (by omega), skip_cons rfl]
      simp only [hrest, hkey, Option.bind_some]

/-- **An object on one line is read** if its values are. -/
theorem Delimited.object {members : List (String × String)} {trees : List (String × Syntax)}
    (h : List.Forall₂ (fun p t => p.1 = t.1 ∧ Delimited p.2 t.2) members trees) :
    Delimited (compactObject members) (objectOf trees) := by
  intro fuel rest hfuel
  rw [← String.length_toList] at hfuel
  rw [toList_compactObject] at hfuel ⊢
  rw [List.cons_append, commas_append]
  obtain ⟨fuel, rfl⟩ : ∃ f, fuel = f + 1 := ⟨fuel - 1, by simp at hfuel; omega⟩
  rw [readSyntax, skip_cons rfl]
  cases h with
  | nil => rfl
  | @cons p tree parts trees hp hps =>
    have hsize : 2 * (commas [] ((p :: parts).map shortMember)).length ≤ fuel := by
      rw [commas_eq_intercalate] at hfuel ⊢
      simp only [List.length_cons, List.length_append, List.length_nil] at hfuel ⊢
      omega
    have hmembers := readMembers_commas rest (List.cons_ne_nil p parts) (.cons hp hps) hsize
    simp only [List.cons_append, List.nil_append]
    split
    case h_1 hclose =>
      rw [readMembers_of_skip hclose] at hmembers
      cases hmembers
    case h_2 =>
      rw [hmembers]
      rfl

theorem Delimited.read? {text : String} {tree : Syntax} (h : Delimited text tree) :
    Syntax.read? text = some tree := by
  have hread := h (2 * text.length + 2) [] (by omega)
  rw [List.append_nil] at hread
  rw [Syntax.read?, hread]
  rfl

end BlockMachine.Json
