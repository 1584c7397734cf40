import BlockMachine.Text.Escape

/-!
# Escaped names are read back

A written name stands between blanks, so it must not hold one, and reading it must give the name
again. Only three kinds of characters occur in a written name: those of the name that are not blank,
the backslash with the letter `u`, and hexadecimal digits.

* `unescape_escape` — reading undoes writing, for every name, `unescapeChars_escapeChars_append` —
  whatever stands behind it;
* `escape_lossless` — written names are free of blanks, read back and told apart;
* `isBlank_of_mem_escapeChars`, `mem_of_mem_escapeChars` — what occurs in a written name;
* `isBare` — the characters that are written as they are, neither backslashes nor blanks;
  `escapeChars_eq_self`, `unescapeChars_append` — they stay.
-/

namespace BlockMachine.Text

/-- The characters that escaping brings in. -/
def escapeMarks : List Char :=
  "\\u0123456789abcdef".toList

/-- The four digits of a blank are digits, and they read back to it. -/
theorem hexQuad_blankPoints : ∀ n ∈ blankPoints,
    (hexQuad n).all escapeMarks.contains = true ∧
      quadValue? (hexDigit (n / 4096 % 16)) (hexDigit (n / 256 % 16)) (hexDigit (n / 16 % 16))
        (hexDigit (n % 16)) = some n ∧ n.isValidChar := by
  decide

theorem isBlank_escapeMarks : ∀ c ∈ escapeMarks, isBlank c = false := by
  have h : (escapeMarks.all fun c => !isBlank c) = true := by decide
  simpa using h

theorem toNat_mem_blankPoints {c : Char} (h : isBlank c = true) : c.toNat ∈ blankPoints := by
  simpa [isBlank] using h

/-- The text behind the backslash of an escaped blank stands for that blank. -/
theorem escaped?_hexQuad {c : Char} (h : isBlank c = true) (rest : List Char) :
    escaped? ('u' :: (hexQuad c.toNat ++ rest)) = some (c, rest) := by
  obtain ⟨-, hvalue, hvalid⟩ := hexQuad_blankPoints _ (toNat_mem_blankPoints h)
  simp [escaped?, hexQuad, hvalue, charOf?, hvalid]

theorem unescapeChars_backslash {rest more : List Char} {c : Char}
    (h : escaped? rest = some (c, more)) :
    unescapeChars ('\\' :: rest) = c :: unescapeChars more := by
  rw [unescapeChars, if_pos rfl]
  split
  case h_1 d more' heq =>
    obtain ⟨rfl, rfl⟩ := Prod.mk.inj (Option.some.inj (h.symm.trans heq))
    rfl
  case h_2 heq =>
    rw [h] at heq
    cases heq

/-- One character of a name is read back, whatever follows it. -/
theorem unescapeChars_escapeChar (c : Char) (rest : List Char) :
    unescapeChars (escapeChar c ++ rest) = c :: unescapeChars rest := by
  rw [escapeChar]
  split
  case isTrue hc =>
    subst hc
    exact unescapeChars_backslash rfl
  case isFalse hc =>
    split
    case isTrue hblank => exact unescapeChars_backslash (escaped?_hexQuad hblank rest)
    case isFalse _ =>
      rw [List.singleton_append, unescapeChars, if_neg hc]

/-- Reading never starts in the middle of a written character, so what stands behind a written name
is read as it is on its own. -/
theorem unescapeChars_escapeChars_append (s rest : List Char) :
    unescapeChars (escapeChars s ++ rest) = s ++ unescapeChars rest := by
  induction s with
  | nil => rfl
  | cons c s ih =>
    have hcons : escapeChars (c :: s) = escapeChar c ++ escapeChars s := rfl
    rw [hcons, List.append_assoc, unescapeChars_escapeChar, ih, List.cons_append]

theorem unescapeChars_escapeChars (s : List Char) : unescapeChars (escapeChars s) = s := by
  have happend := unescapeChars_escapeChars_append s []
  rwa [List.append_nil, unescapeChars, List.append_nil] at happend

/-- **Names survive.** Reading the written form of a name gives the name. -/
theorem unescape_escape (s : String) : unescape (escape s) = s := by
  simp [unescape, escape, unescapeChars_escapeChars]

/-- What occurs in a written name is a mark, or a character of the name that is not blank. -/
theorem mem_of_mem_escapeChars {s : List Char} {c : Char} (h : c ∈ escapeChars s) :
    c ∈ escapeMarks ∨ c ∈ s ∧ isBlank c = false := by
  obtain ⟨d, hd, hc⟩ := List.mem_flatMap.1 h
  rw [escapeChar] at hc
  split at hc
  case isTrue _ =>
    have hc : c = '\\' := by simpa using hc
    subst hc
    exact .inl (by decide)
  case isFalse _ =>
    split at hc
    case isTrue hblank =>
      have hmarks := (hexQuad_blankPoints _ (toNat_mem_blankPoints hblank)).1
      rcases List.mem_cons.1 hc with rfl | hc
      · exact .inl (by decide)
      · rcases List.mem_cons.1 hc with rfl | hc
        · exact .inl (by decide)
        · exact .inl (List.contains_iff_mem.1 (List.all_eq_true.1 hmarks c hc))
    case isFalse hblank =>
      obtain rfl := List.mem_singleton.1 hc
      exact .inr ⟨hd, by simpa using hblank⟩

theorem isBlank_of_mem_escapeChars {s : List Char} {c : Char} (h : c ∈ escapeChars s) :
    isBlank c = false := by
  rcases mem_of_mem_escapeChars h with hc | ⟨-, hc⟩
  · exact isBlank_escapeMarks c hc
  · exact hc

/-- **Escaping is lossless.** A written name holds no blank, it is read as the name whatever text
stands behind it, and no other name is written alike. -/
theorem escape_lossless (s t rest : String) :
    (escape s).toList.any isBlank = false ∧ unescape (escape s) = s ∧
      unescape (escape s ++ rest) = s ++ unescape rest ∧ (escape s = escape t ↔ s = t) := by
  refine ⟨?_, unescape_escape s, ?_, fun h => ?_, congrArg escape⟩
  · rw [List.any_eq_false, escape, String.toList_ofList]
    intro c hc
    rw [isBlank_of_mem_escapeChars hc]
    exact Bool.false_ne_true
  · rw [← String.toList_inj, unescape, escape, unescape]
    simp only [String.toList_append, String.toList_ofList]
    exact unescapeChars_escapeChars_append s.toList rest.toList
  · rw [← unescape_escape s, h, unescape_escape]

theorem escapeChars_eq_nil_iff {s : List Char} : escapeChars s = [] ↔ s = [] := by
  cases s with
  | nil => simp [escapeChars]
  | cons c s =>
    have hc : escapeChar c ≠ [] := by
      rw [escapeChar]
      split
      · simp
      · split <;> simp
    simp [escapeChars, hc]

/-! ## Characters that stay -/

theorem escapeChars_append (s t : List Char) :
    escapeChars (s ++ t) = escapeChars s ++ escapeChars t :=
  List.flatMap_append

/-- Whether a character is written as it is. -/
def isBare (c : Char) : Bool :=
  c != '\\' && !isBlank c

theorem isBare_iff {c : Char} : isBare c = true ↔ c ≠ '\\' ∧ isBlank c = false := by
  simp [isBare]

theorem escapeChar_of_isBare {c : Char} (hc : isBare c = true) : escapeChar c = [c] := by
  obtain ⟨hbackslash, hblank⟩ := isBare_iff.1 hc
  rw [escapeChar, if_neg hbackslash, if_neg (by simp [hblank])]

/-- A name without backslashes and blanks is written as it is. -/
theorem escapeChars_eq_self {s : List Char} (h : ∀ c ∈ s, isBare c = true) :
    escapeChars s = s := by
  induction s with
  | nil => rfl
  | cons c s ih =>
    obtain ⟨hc, hs⟩ := List.forall_mem_cons.1 h
    have hcons : escapeChars (c :: s) = escapeChar c ++ escapeChars s := rfl
    rw [hcons, escapeChar_of_isBare hc, ih hs, List.singleton_append]

/-- A text without backslashes and blanks is the written form of itself only. -/
theorem escapeChars_eq_iff {s u : List Char} (hu : ∀ c ∈ u, isBare c = true) :
    escapeChars s = u ↔ s = u := by
  constructor
  · intro h
    have hself := unescapeChars_escapeChars u
    rw [escapeChars_eq_self hu, ← h, unescapeChars_escapeChars] at hself
    exact hself.trans h
  · rintro rfl
    exact escapeChars_eq_self hu

theorem mem_escapeChars_of_isBare {s : List Char} {c : Char} (h : c ∈ s)
    (hc : isBare c = true) : c ∈ escapeChars s :=
  List.mem_flatMap.2 ⟨c, h, by rw [escapeChar_of_isBare hc]; exact List.mem_singleton_self c⟩

/-- What is in front of the first backslash stands for itself. -/
theorem unescapeChars_append {s : List Char} (h : '\\' ∉ s) (t : List Char) :
    unescapeChars (s ++ t) = s ++ unescapeChars t := by
  induction s with
  | nil => rfl
  | cons c s ih =>
    rw [List.mem_cons, not_or] at h
    obtain ⟨hc, hs⟩ := h
    rw [List.cons_append, unescapeChars, if_neg (Ne.symm hc), ih hs, List.cons_append]

theorem unescapeChars_eq_nil_iff {s : List Char} : unescapeChars s = [] ↔ s = [] := by
  cases s with
  | nil => simp [unescapeChars]
  | cons c s =>
    rw [unescapeChars]
    split
    · split <;> simp
    · simp

theorem unescape_ne_empty {s : List Char} (hs : s ≠ []) :
    unescape (String.ofList s) ≠ "" := by
  intro hempty
  rw [unescape, String.toList_ofList] at hempty
  have hnil := congrArg String.toList hempty
  rw [String.toList_ofList] at hnil
  exact hs (unescapeChars_eq_nil_iff.1 hnil)

end BlockMachine.Text
