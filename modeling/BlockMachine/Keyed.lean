/-!
# Maps with text keys

Association lists in strictly ascending order of their keys, so that a map has one form and is
listed in the order of its keys.

* `Keyed.find?`, `Keyed.insert`, `Keyed.erase` — the operations;
* `find?_insert_self`, `find?_insert_of_ne`, `find?_erase_self`, `find?_erase_of_ne` — what they do
  to a look-up; `find?_eq_none` — a key that is not there;
* `mem_of_find?`, `mem_insert` — where the entries of a map come from.
-/

namespace BlockMachine

/-- Values by key, in order of the keys. -/
abbrev Keyed (α : Type) := List (String × α)

namespace Keyed

variable {α : Type}

/-- The value of a key. -/
def find? (m : Keyed α) (key : String) : Option α :=
  m.lookup key

/-- Sets the value of a key. -/
def insert (key : String) (value : α) : Keyed α → Keyed α
  | [] => [(key, value)]
  | (k, v) :: rest =>
    if key = k then (key, value) :: rest
    else if key < k then (key, value) :: (k, v) :: rest
    else (k, v) :: insert key value rest

/-- Removes a key. -/
def erase (key : String) (m : Keyed α) : Keyed α :=
  m.filter fun p => p.1 != key

/-- Whether a key has a value. -/
def contains (m : Keyed α) (key : String) : Bool :=
  (m.find? key).isSome

theorem find?_insert_self (m : Keyed α) (key : String) (value : α) :
    find? (insert key value m) key = some value := by
  induction m with
  | nil => simp [insert, find?]
  | cons p rest ih =>
    obtain ⟨k, v⟩ := p
    unfold insert
    split
    · simp [find?]
    · split
      · simp [find?]
      · rename_i hne _
        have : (key == k) = false := by simpa using hne
        simpa [find?, List.lookup_cons, this] using ih

theorem find?_insert_of_ne (m : Keyed α) {key other : String} (value : α) (h : other ≠ key) :
    find? (insert key value m) other = find? m other := by
  have hne : (other == key) = false := by simpa using h
  induction m with
  | nil => simp [insert, find?, List.lookup_cons, List.lookup_nil, hne]
  | cons p rest ih =>
    obtain ⟨k, v⟩ := p
    unfold insert
    split
    · rename_i hk
      simp [find?, List.lookup_cons, ← hk, hne]
    · split
      · simp [find?, List.lookup_cons, hne]
      · simp only [find?, List.lookup_cons] at ih ⊢
        split <;> simp_all

theorem find?_erase_self (m : Keyed α) (key : String) : find? (erase key m) key = none := by
  induction m with
  | nil => rfl
  | cons p rest ih =>
    obtain ⟨k, v⟩ := p
    by_cases hk : k = key
    · simpa [erase, hk] using ih
    · have hne : (key == k) = false := by simpa using fun h => hk h.symm
      simpa [erase, find?, List.lookup_cons, hk, hne] using ih

theorem find?_erase_of_ne (m : Keyed α) {key other : String} (h : other ≠ key) :
    find? (erase key m) other = find? m other := by
  induction m with
  | nil => rfl
  | cons p rest ih =>
    obtain ⟨k, v⟩ := p
    by_cases hk : k = key
    · subst hk
      have hne : (other == k) = false := by simpa using h
      simpa [erase, find?, List.lookup_cons, hne] using ih
    · have hkey : (k != key) = true := by simpa using hk
      simp only [erase, find?, List.filter, hkey, List.lookup_cons] at ih ⊢
      split
      · rfl
      · exact ih

theorem find?_eq_none {m : Keyed α} {key : String} (h : key ∉ m.map Prod.fst) :
    find? m key = none := by
  rw [find?, List.lookup_eq_none_iff]
  intro p hp
  have hne : key ≠ p.1 := by
    rintro rfl
    exact h (List.mem_map_of_mem hp)
  simpa using hne

theorem mem_of_find? {m : Keyed α} {key : String} {value : α} (h : m.find? key = some value) :
    (key, value) ∈ m := by
  rw [find?, List.lookup_eq_some_iff] at h
  obtain ⟨l₁, l₂, rfl, -⟩ := h
  simp

theorem mem_insert {m : Keyed α} {key : String} {value : α} {p : String × α}
    (h : p ∈ insert key value m) : p = (key, value) ∨ p ∈ m := by
  induction m with
  | nil => exact .inl (List.mem_singleton.1 h)
  | cons q rest ih =>
    obtain ⟨k, v⟩ := q
    rw [insert] at h
    split at h
    · rcases List.mem_cons.1 h with h | h
      · exact .inl h
      · exact .inr (List.mem_cons_of_mem _ h)
    · split at h
      · exact List.mem_cons.1 h
      · rcases List.mem_cons.1 h with rfl | h
        · exact .inr List.mem_cons_self
        · exact (ih h).imp_right (List.mem_cons_of_mem _)

end Keyed

end BlockMachine
