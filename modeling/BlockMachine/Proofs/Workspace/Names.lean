import BlockMachine.Environment
import BlockMachine.Proofs.Workspace.Rereading

/-!
# Names that are read again

Reading a token unescapes the name in it, so any character can get into a name; writing the name
escapes its blanks and backslashes only. What is written is read as the same kind with the same name
unless the name holds a bracket, a brace, a parenthesis or a quote, which end a name, or is spelled
like a token of a kind that is tried earlier.

* `Pattern.avoids`, `Pattern.needs` — characters that a pattern never matches, and characters of
  which it always matches one;
* `Reserved` — the texts without delimiters that are read as something other than a call:
  `Kind.reserved_of_matches`, `Kind.exists_matches_of_reserved`;
* `Grammar.entryOf?_code_iff`, `Grammar.entryOf?_data_iff` — which texts are read as calls and as
  data references;
* `reserved_escapeChars` — a name is reserved as it is written;
* `Environment.reread_code_iff`, `Environment.reread_data_iff` — which written names are read again;
* `Environment.written_of_read` — a text without backslashes is written again as it was read;
* `Environment.name_reread_iff` — which names survive being read, written and read again.
-/

namespace BlockMachine

/-! ## Characters of patterns -/

namespace Pattern

/-- Whether no part of a pattern accepts a character. -/
def avoids (d : Char) : Pattern → Bool
  | .empty => true
  | .char c => c != d
  | .any => d == '\n'
  | .oneIn negated items => negated == items.any (ClassItem.accepts d)
  | .seq p q | .alt p q => p.avoids d && q.avoids d
  | .group p | .optional p | .star p | .lazyStar p | .plus p => p.avoids d

theorem not_mem_of_matches {d : Char} {p : Pattern} {u : List Char} (hp : p.avoids d = true)
    (h : p.Matches u) : d ∉ u := by
  suffices hne : ∀ c ∈ u, c ≠ d from fun hd => hne d hd rfl
  induction p generalizing u with
  | empty =>
    obtain rfl : u = [] := h
    simp
  | char c =>
    obtain rfl : u = [c] := h
    simpa [avoids] using hp
  | any =>
    obtain ⟨c, hc, rfl⟩ := h
    have hd : d = '\n' := by simpa [avoids] using hp
    simpa [hd] using hc
  | oneIn negated items =>
    obtain ⟨c, hc, rfl⟩ := h
    rintro e he rfl
    obtain rfl := List.mem_singleton.1 he
    rw [avoids, beq_iff_eq] at hp
    simp [hp] at hc
  | seq p q ihp ihq =>
    obtain ⟨v, w, rfl, hv, hw⟩ := h
    obtain ⟨hp, hq⟩ : p.avoids d = true ∧ q.avoids d = true := by simpa [avoids] using hp
    intro c hc
    rcases List.mem_append.1 hc with hc | hc
    · exact ihp hp hv c hc
    · exact ihq hq hw c hc
  | alt p q ihp ihq =>
    obtain ⟨hp, hq⟩ : p.avoids d = true ∧ q.avoids d = true := by simpa [avoids] using hp
    rcases h with h | h
    · exact ihp hp h
    · exact ihq hq h
  | group p ih => exact ih hp h
  | optional p ih =>
    rcases h with h | rfl
    · exact ih hp h
    · simp
  | star p ih | lazyStar p ih => exact Repeated.forall_mem h fun v hv => ih hp hv
  | plus p ih =>
    obtain ⟨v, w, rfl, hv, hw⟩ := h
    intro c hc
    rcases List.mem_append.1 hc with hc | hc
    · exact ih hp hv c hc
    · exact Repeated.forall_mem hw (fun v hv => ih hp hv) c hc

/-- Whether a pattern matches only texts that hold one of some characters. -/
def needs (ds : List Char) : Pattern → Bool
  | .char c => ds.contains c
  | .seq p q => p.needs ds || q.needs ds
  | .alt p q => p.needs ds && q.needs ds
  | .group p | .plus p => p.needs ds
  | .empty | .any | .oneIn .. | .optional _ | .star _ | .lazyStar _ => false

theorem exists_mem_of_matches {ds : List Char} {p : Pattern} {u : List Char}
    (hp : p.needs ds = true) (h : p.Matches u) : ∃ c ∈ u, c ∈ ds := by
  induction p generalizing u with
  | char c =>
    obtain rfl : u = [c] := h
    exact ⟨c, List.mem_singleton_self c, List.contains_iff_mem.1 hp⟩
  | seq p q ihp ihq =>
    obtain ⟨v, w, rfl, hv, hw⟩ := h
    rcases Bool.or_eq_true_iff.1 hp with hp | hq
    · obtain ⟨c, hc, hd⟩ := ihp hp hv
      exact ⟨c, List.mem_append_left w hc, hd⟩
    · obtain ⟨c, hc, hd⟩ := ihq hq hw
      exact ⟨c, List.mem_append_right v hc, hd⟩
  | alt p q ihp ihq =>
    obtain ⟨hp, hq⟩ := Bool.and_eq_true_iff.1 hp
    exact h.elim (ihp hp) (ihq hq)
  | group p ih => exact ih hp h
  | plus p ih =>
    obtain ⟨v, w, rfl, hv, -⟩ := h
    obtain ⟨c, hc, hd⟩ := ih hp hv
    exact ⟨c, List.mem_append_left w hc, hd⟩
  | empty | any | oneIn | optional | star | lazyStar => cases hp

/-- A word that may be followed by something with a delimiter, in a text without delimiters. -/
theorem eq_of_matches_optional {ds : List Char} {word : String} {p : Pattern} {u : List Char}
    (hp : p.needs ds = true) (h : (Pattern.seq (Pattern.word word) (.optional p)).Matches u)
    (hu : ∀ c ∈ u, c ∉ ds) : u = word.toList := by
  obtain ⟨v, w, rfl, hv, hw⟩ := h
  obtain rfl := matches_word.1 hv
  rcases hw with hw | rfl
  · obtain ⟨c, hc, hd⟩ := exists_mem_of_matches hp hw
    exact absurd hd (hu c (List.mem_append_right _ hc))
  · exact List.append_nil _

/-- A number that is written with digits. -/
def numeral : Pattern :=
  .seq decimalNumber (.optional (.group (sequence [.char '/', optionalMinus, .plus digit])))

end Pattern

/-! ## Reserved texts -/

/-- The characters, apart from blanks, that a name in a token cannot hold. -/
def delimiters : List Char :=
  ['\x7b', '\x7d', '(', ')', '[', ']', '\x22']

/-- The words that are tokens of kinds that have no name. -/
def keywords : List String :=
  ["Err", "Infinity", "-Infinity", "NaN", "π", "e", "T", "F", "int", "real", "bool"]
    ++ Operator.all.flatMap fun op => op.info.spellings

/-- What stands in front of the name in a token of a kind that has one, calls apart. -/
def Kind.sigil? : Kind → Option String
  | .assign => some "->$"
  | .fetch => some "$"
  | .null | .data => some "@"
  | _ => none

/-- The texts, among those without delimiters, that are read as something other than a call. -/
def Reserved (u : List Char) : Prop :=
  (∃ w ∈ keywords, u = w.toList) ∨ Pattern.numeral.Matches u ∨
    ∃ k s, Kind.sigil? k = some s ∧ ∃ t, t ≠ [] ∧ u = s.toList ++ t

theorem matches_plus_nameChar {u : List Char} : (Pattern.plus .nameChar).Matches u ↔
    u ≠ [] ∧ ∀ c ∈ u, Text.isBlank c = false ∧ c ∉ delimiters := by
  simp [Pattern.nameChar, Pattern.matches_plus_oneIn, ClassItem.accepts, delimiters]

/-- The characters of keywords are written as they are, and no keyword looks like a reference. -/
theorem isBare_of_mem_keywords {w : String} (hw : w ∈ keywords) :
    ∀ c ∈ w.toList, Text.isBare c = true ∧ c ≠ '@' := by
  have hall : (keywords.all fun w => w.toList.all fun c => Text.isBare c && c != '@') = true := by
    decide
  simpa using List.all_eq_true.1 (List.all_eq_true.1 hall w hw)

namespace Kind

variable {k : Kind} {u : List Char}

theorem mem_keywords_of_operator {op : Operator} (h : (operator op).pattern.Matches u) :
    ∃ w ∈ keywords, u = w.toList := by
  have hne : op.info.spellings.map Pattern.word ≠ [] :=
    List.ne_nil_of_mem (List.mem_map_of_mem op.token_mem_spellings)
  obtain ⟨p, hp, hmatch⟩ := (Grammar.matches_oneOf hne).1 h
  obtain ⟨w, hw, rfl⟩ := List.mem_map.1 hp
  refine ⟨w, List.mem_append_right _ ?_, Pattern.matches_word.1 hmatch⟩
  exact List.mem_flatMap.2 ⟨op, op.mem_all, hw⟩

theorem reserved_of_number (h : Kind.number.pattern.Matches u) :
    (∃ w ∈ keywords, u = w.toList) ∨ Pattern.numeral.Matches u := by
  rcases h with h | ⟨minus, _, rfl, hminus, hw⟩ | h | h | h
  · exact .inr h
  · left
    obtain rfl := Pattern.matches_word.1 hw
    rcases hminus with hminus | rfl
    · obtain rfl : minus = ['-'] := hminus
      exact ⟨"-Infinity", by simp [keywords], rfl⟩
    · exact ⟨"Infinity", by simp [keywords], rfl⟩
  · exact .inl ⟨"NaN", by simp [keywords], Pattern.matches_word.1 h⟩
  · exact .inl ⟨"π", by simp [keywords], Pattern.matches_word.1 h⟩
  · exact .inl ⟨"e", by simp [keywords], Pattern.matches_word.1 h⟩

/-- **Kinds without delimiters.** A token without delimiters is a keyword, a number, or a name with
what stands in front of it in its kind, unless it is a call. -/
theorem reserved_of_matches (hk : k ∈ all) (h : k.pattern.Matches u)
    (hu : ∀ c ∈ u, c ∉ delimiters) :
    k = .code ∨ (∃ w ∈ keywords, u = w.toList) ∨ Pattern.numeral.Matches u ∨
      ∃ s, k.sigil? = some s ∧ ∃ t, t ≠ [] ∧ u = s.toList ++ t := by
  have hneeds : ∀ {p : Pattern}, p.needs delimiters = true → ¬ p.Matches u := by
    intro p hp hmatch
    obtain ⟨c, hc, hd⟩ := Pattern.exists_mem_of_matches hp hmatch
    exact hu c hc hd
  have hnamed : ∀ {w : String}, k.sigil? = some w →
      (Pattern.seq (Pattern.word w) (.plus .nameChar)).Matches u →
      ∃ s, k.sigil? = some s ∧ ∃ t, t ≠ [] ∧ u = s.toList ++ t := by
    rintro w hw ⟨v, t, rfl, hv, ht⟩
    exact ⟨w, hw, t, (matches_plus_nameChar.1 ht).1, by rw [Pattern.matches_word.1 hv]⟩
  cases k with
  | string | memoryReference | memory | package | getSymbol | setSymbol | color =>
    exact absurd h (hneeds rfl)
  | error =>
    exact .inr (.inl ⟨"Err", by simp [keywords], Pattern.eq_of_matches_optional rfl h hu⟩)
  | randomInt =>
    exact .inr (.inl ⟨"int", by simp [keywords], Pattern.eq_of_matches_optional rfl h hu⟩)
  | randomReal =>
    exact .inr (.inl ⟨"real", by simp [keywords], Pattern.eq_of_matches_optional rfl h hu⟩)
  | randomBool => exact .inr (.inl ⟨"bool", by simp [keywords], Pattern.matches_word.1 h⟩)
  | boolean =>
    obtain ⟨c, hc, rfl⟩ := h
    have hc : c = 'T' ∨ c = 'F' := by simpa [ClassItem.accepts] using hc
    rcases hc with rfl | rfl
    · exact .inr (.inl ⟨"T", by simp [keywords], rfl⟩)
    · exact .inr (.inl ⟨"F", by simp [keywords], rfl⟩)
  | number => exact .inr ((reserved_of_number h).imp_right .inl)
  | operator op => exact .inr (.inl (mem_keywords_of_operator h))
  | assign => exact .inr (.inr (.inr (hnamed rfl h)))
  | fetch => exact .inr (.inr (.inr (hnamed rfl h)))
  | data => exact .inr (.inr (.inr (hnamed rfl h)))
  | null => exact .inr (.inr (.inr ⟨"@", rfl, "null".toList, by simp, Pattern.matches_word.1 h⟩))
  | code => exact .inl rfl
  | extension => cases not_nullable _ hk

theorem mem_all_of_fromOperator (op : Operator) (h : k ∈ fromOperator op) : k ∈ all :=
  List.mem_append_left _ (List.mem_append_right _ (List.mem_flatMap.2 ⟨op, op.mem_all, h⟩))

theorem operator_mem_all (op : Operator) : operator op ∈ all := by
  refine mem_all_of_fromOperator op ?_
  unfold fromOperator
  split <;> exact List.mem_cons_self

theorem data_mem_all : data ∈ all :=
  mem_all_of_fromOperator .iterate (by simp [fromOperator])

theorem code_mem_all : code ∈ all := by
  simp [all]

/-- A keyword is a token of a kind other than calls. -/
theorem exists_matches_of_mem_keywords {w : String} (hw : w ∈ keywords) :
    ∃ k ∈ all, k ≠ code ∧ k.pattern.Matches w.toList := by
  have hwords : ∀ w ∈ ["Err", "Infinity", "-Infinity", "NaN", "π", "e", "T", "F", "int", "real",
      "bool"], ∃ k ∈ [error, number, boolean, randomInt, randomReal, randomBool],
        k.pattern.matchesAll w.toList = true := by
    decide
  rcases List.mem_append.1 hw with hw | hw
  · obtain ⟨k, hk, hmatch⟩ := hwords w hw
    have hcore : k ∈ all ∧ k ≠ code := by
      simp only [List.mem_cons, List.not_mem_nil, or_false] at hk
      rcases hk with rfl | rfl | rfl | rfl | rfl | rfl <;> simp [all]
    exact ⟨k, hcore.1, hcore.2, Pattern.matchesAll_iff.1 hmatch⟩
  · obtain ⟨op, -, hw⟩ := List.mem_flatMap.1 hw
    have hpattern : Pattern.word w ∈ op.info.spellings.map Pattern.word := List.mem_map_of_mem hw
    exact ⟨operator op, operator_mem_all op, by simp,
      (Grammar.matches_oneOf (List.ne_nil_of_mem hpattern)).2
        ⟨_, hpattern, Pattern.matches_word.2 rfl⟩⟩

/-- What is reserved is a token of a kind other than calls. -/
theorem exists_matches_of_reserved (h : Reserved u)
    (hu : ∀ c ∈ u, Text.isBlank c = false ∧ c ∉ delimiters) :
    ∃ k ∈ all, k ≠ code ∧ k.pattern.Matches u := by
  rcases h with ⟨w, hw, rfl⟩ | hnumeral | ⟨k, s, hs, t, ht, rfl⟩
  · exact exists_matches_of_mem_keywords hw
  · exact ⟨.number, by simp [all], by simp, .inl hnumeral⟩
  · have hname : (Pattern.plus .nameChar).Matches t :=
      matches_plus_nameChar.2 ⟨ht, fun c hc => hu c (List.mem_append_right _ hc)⟩
    cases k with
    | assign =>
      cases hs
      exact ⟨.assign, mem_all_of_fromOperator .disjunction (by simp [fromOperator]), by simp, _, t,
        rfl, Pattern.matches_word.2 rfl, hname⟩
    | fetch =>
      cases hs
      exact ⟨.fetch, mem_all_of_fromOperator .disjunction (by simp [fromOperator]), by simp, ['$'],
        t, rfl, rfl, hname⟩
    | null | data =>
      cases hs
      exact ⟨.data, data_mem_all, by simp, ['@'], t, rfl, rfl, hname⟩
    | _ => cases hs

end Kind

/-! ## Calls and data references -/

namespace Grammar

theorem coreEntry_inj {k k' : Kind} (h : coreEntry k = coreEntry k') : k = k' :=
  Maker.core.inj (congrArg Entry.maker h)

/-- Calls are tried last: what is read as a call is a token of no other kind. -/
theorem eq_code_of_matches {u : List Char} (h : core.entryOf? u = some (coreEntry .code)) {k : Kind}
    (hk : k ∈ Kind.all) (hmatch : k.pattern.Matches u) : k = .code := by
  have hall : Kind.all = Kind.all.dropLast ++ [.code] :=
    (List.dropLast_append_getLast? _ (by simp [Kind.all, List.getLast?_cons])).symm
  have hlast : Kind.code ∉ Kind.all.dropLast := by decide
  rw [hall, List.mem_append, List.mem_singleton] at hk
  refine hk.resolve_left fun hfront => ?_
  have hentries : core.entries = Kind.all.dropLast.map coreEntry ++ [coreEntry .code] := by
    rw [core, hall, List.map_append, List.map_singleton, ← hall]
  rw [entryOf?, hentries, List.find?_append] at h
  cases hfind : (Kind.all.dropLast.map coreEntry).find? fun e => e.pattern.matchesAll u with
  | none =>
    have hnone := List.find?_eq_none.1 hfind _ (List.mem_map_of_mem hfront)
    exact hnone (Pattern.matchesAll_iff.2 hmatch)
  | some e =>
    rw [hfind] at h
    obtain rfl : e = coreEntry .code := Option.some.inj h
    obtain ⟨k', hk', heq⟩ := List.mem_map.1 (List.mem_of_find?_eq_some hfind)
    rw [coreEntry_inj heq] at hk'
    exact hlast hk'

/-- What is read as a token of a kind matches the pattern of the kind. -/
theorem matches_of_entryOf? {u : List Char} {k : Kind} (h : core.entryOf? u = some (coreEntry k)) :
    k.pattern.Matches u := by
  have hall := List.find?_some h
  exact Pattern.matchesAll_iff.1 hall

/-- **Calls.** A text is read as a call if it could be a name and is not reserved. -/
theorem entryOf?_code_iff {u : List Char} : core.entryOf? u = some (coreEntry .code) ↔
    u ≠ [] ∧ (∀ c ∈ u, Text.isBlank c = false ∧ c ∉ delimiters) ∧ ¬ Reserved u := by
  constructor
  · intro h
    obtain ⟨hne, hu⟩ := matches_plus_nameChar.1 (matches_of_entryOf? h)
    refine ⟨hne, hu, fun hreserved => ?_⟩
    obtain ⟨k, hk, hcode, hmatch⟩ := Kind.exists_matches_of_reserved hreserved hu
    exact hcode (eq_code_of_matches h hk hmatch)
  · rintro ⟨hne, hu, hreserved⟩
    have hcode : Kind.code.pattern.Matches u := matches_plus_nameChar.2 ⟨hne, hu⟩
    obtain ⟨k, hk, hmatch, hentry⟩ := exists_entryOf? ⟨.code, Kind.code_mem_all, hcode⟩
    rcases Kind.reserved_of_matches hk hmatch fun c hc => (hu c hc).2 with
      rfl | hword | hnumeral | ⟨s, hs, hnamed⟩
    · exact hentry
    · exact absurd (.inl hword) hreserved
    · exact absurd (.inr (.inl hnumeral)) hreserved
    · exact absurd (.inr (.inr ⟨k, s, hs, hnamed⟩)) hreserved

/-- **Data references.** A text behind an `@` is read as the name of one if it could be a name and
is not `null`. -/
theorem entryOf?_data_iff {t : List Char} (ht : t ≠ []) (hblank : ∀ c ∈ t, Text.isBlank c = false) :
    core.entryOf? ('@' :: t) = some (coreEntry .data) ↔
      (∀ c ∈ t, c ∉ delimiters) ∧ t ≠ "null".toList := by
  constructor
  · intro h
    obtain ⟨v, w, heq, rfl, hname⟩ := matches_of_entryOf? h
    obtain rfl : t = w := (List.cons.inj heq).2
    refine ⟨fun c hc => ((matches_plus_nameChar.1 hname).2 c hc).2, ?_⟩
    rintro rfl
    have hother : (core.entryOf? ('@' :: "null".toList)).map Entry.name ≠
        some (coreEntry .data).name := by decide
    rw [h] at hother
    exact hother rfl
  · rintro ⟨hu, hnull⟩
    have hdata : Kind.data.pattern.Matches ('@' :: t) :=
      ⟨['@'], t, rfl, rfl, matches_plus_nameChar.2 ⟨ht, fun c hc => ⟨hblank c hc, hu c hc⟩⟩⟩
    obtain ⟨k, hk, hmatch, hentry⟩ := exists_entryOf? ⟨.data, Kind.data_mem_all, hdata⟩
    have hfree : ∀ c ∈ '@' :: t, c ∉ delimiters :=
      List.forall_mem_cons.2 ⟨by decide, hu⟩
    rcases Kind.reserved_of_matches hk hmatch hfree with
      rfl | ⟨w, hw, heq⟩ | hnumeral | ⟨s, hs, r, -, heq⟩
    · exact absurd (eq_code_of_matches hentry Kind.data_mem_all hdata) (by simp)
    · exact absurd rfl (isBare_of_mem_keywords hw '@' (heq ▸ List.mem_cons_self)).2
    · exact absurd List.mem_cons_self (Pattern.not_mem_of_matches (d := '@') (by decide) hnumeral)
    · cases k with
      | assign | fetch =>
        cases hs
        cases heq
      | null =>
        have heq : '@' :: t = "@null".toList := Pattern.matches_word.1 hmatch
        exact absurd (List.cons.inj heq).2 hnull
      | data => exact hentry
      | _ => cases hs

end Grammar

/-! ## Escaped names -/

section

variable {s : List Char}

theorem isBare_of_numeral {u : List Char} (h : Pattern.numeral.Matches u) :
    ∀ c ∈ u, Text.isBare c = true := by
  intro c hc
  have hplain : plainChar c = true := Pattern.plainChar_of_matches (by decide) h c hc
  refine Text.isBare_iff.2 ⟨?_, (plainChar_iff.1 hplain).1⟩
  rintro rfl
  exact Pattern.not_mem_of_matches (d := '\\') (by decide) h hc

theorem isBare_of_sigil? {k : Kind} {w : String} (h : k.sigil? = some w) :
    ∀ c ∈ w.toList, Text.isBare c = true := by
  cases k with
  | assign | fetch | null | data =>
    cases h
    exact List.all_eq_true.1 rfl
  | _ => cases h

/-- **What is reserved** does not become so by being written, and stays so. -/
theorem reserved_escapeChars : Reserved (Text.escapeChars s) ↔ Reserved s := by
  refine or_congr ?_ (or_congr ?_ ?_)
  · refine exists_congr fun w => and_congr_right fun hw => ?_
    exact Text.escapeChars_eq_iff fun c hc => (isBare_of_mem_keywords hw c hc).1
  · constructor
    · intro h
      rwa [(Text.escapeChars_eq_iff (isBare_of_numeral h)).1 rfl]
    · intro h
      rwa [Text.escapeChars_eq_self (isBare_of_numeral h)]
  · constructor
    · rintro ⟨k, w, hw, t, ht, heq⟩
      have hbackslash : '\\' ∉ w.toList := fun hmem =>
        absurd (isBare_of_sigil? hw _ hmem) (by decide)
      have hs : s = w.toList ++ Text.unescapeChars t := by
        rw [← Text.unescapeChars_append hbackslash, ← heq, Text.unescapeChars_escapeChars]
      exact ⟨k, w, hw, _, fun hnil => ht (Text.unescapeChars_eq_nil_iff.1 hnil), hs⟩
    · rintro ⟨k, w, hw, t, ht, rfl⟩
      rw [Text.escapeChars_append, Text.escapeChars_eq_self (isBare_of_sigil? hw)]
      exact ⟨k, w, hw, _, fun hnil => ht (Text.escapeChars_eq_nil_iff.1 hnil), rfl⟩

/-- Writing a name neither adds delimiters nor takes any away. -/
theorem delimiters_escapeChars :
    (∀ c ∈ Text.escapeChars s, c ∉ delimiters) ↔ ∀ c ∈ s, c ∉ delimiters := by
  have hdelimiters : ∀ c ∈ delimiters, Text.isBare c = true ∧ c ∉ Text.escapeMarks := by
    have hall : (delimiters.all fun c => Text.isBare c && !Text.escapeMarks.contains c) = true := by
      decide
    simpa using List.all_eq_true.1 hall
  constructor
  · intro h c hc hd
    exact h c (Text.mem_escapeChars_of_isBare hc (hdelimiters c hd).1) hd
  · intro h c hc hd
    rcases Text.mem_of_mem_escapeChars hc with hmark | ⟨hmem, -⟩
    · exact (hdelimiters c hd).2 hmark
    · exact h c hmem hd

end

/-! ## Reading what is written -/

namespace Grammar

variable {l : Localizer}

theorem kind_make_ofToken {inner : List Char → Literal} {k : Kind} (hk : k ∈ Kind.all)
    (s : List Char) (st : Store) : ((Literal.ofToken inner k s).make l st).1.kind = k := by
  cases k with
  | extension => cases Kind.not_nullable _ hk
  | _ => rfl

/-- What is read as a call says the name that is written in it. -/
theorem literal_of_code {text : String} (h : core.entryOf? text.toList = some (coreEntry .code)) :
    core.literal text = .code (Text.unescape text) := by
  rw [literal_of_entryOf? h, Literal.ofToken, String.ofList_toList]

/-- What is read as a data reference says the name that is written behind the sign. -/
theorem literal_of_data {text : String} (h : core.entryOf? text.toList = some (coreEntry .data)) :
    ∃ t, text.toList = '@' :: t ∧ (Pattern.plus .nameChar).Matches t ∧
      core.literal text = .data (Text.unescape (String.ofList t)) := by
  obtain ⟨v, t, heq, rfl, hname⟩ := matches_of_entryOf? h
  refine ⟨t, heq, hname, ?_⟩
  rw [literal_of_entryOf? h, heq]
  rfl

end Grammar

/-- A data or code block is written with its name escaped. -/
theorem Heap.written_of_reference? {h : Heap} {b : Block} {name : String}
    (hname : h.reference? b = some name) :
    (b.kind = .data ∧ h.written b = "@" ++ Text.escape name) ∨
      (b.kind = .code ∧ h.written b = Text.escape name) := by
  cases b with
  | data loc resolved =>
    obtain rfl := Option.some.inj hname
    exact .inl ⟨rfl, rfl⟩
  | code own target =>
    obtain rfl := Option.some.inj hname
    exact .inr ⟨rfl, rfl⟩
  | _ => cases hname

namespace Environment

variable {l : Localizer} {text name : String} {st st' : Store} {b : Block}

/-- A block that is read refers to the name in the literal. -/
theorem reference?_block (l : Localizer) (text : String) (st : Store) :
    ((mk l .core).block text st).2.heap.reference? ((mk l .core).block text st).1 =
      (Grammar.core.literal text).reference? :=
  reference?_eq_of_made (Literal.make_made _ st fun _ _ _ => rfl)

/-- The kind of a block that is no error is that of its token. -/
theorem kind_block (l : Localizer) (text : String) (st : Store) {k : Kind} (herror : k ≠ .error) :
    ((mk l .core).block text st).1.kind = k ↔
      Grammar.core.entryOf? text.toList = some (Grammar.coreEntry k) := by
  rw [block]
  cases he : Grammar.core.entryOf? text.toList with
  | none =>
    rw [Grammar.literal_of_unreadable he]
    exact iff_of_false (fun h => herror h.symm) (by simp)
  | some e =>
    obtain ⟨k', hk', rfl⟩ := Grammar.exists_kind_of_mem (List.mem_of_find?_eq_some he)
    rw [Grammar.literal_of_entryOf? he, Grammar.kind_make_ofToken hk']
    exact ⟨fun h => by rw [h], fun h => Grammar.coreEntry_inj (Option.some.inj h)⟩

/-- **Written calls.** The written name of a call is read as a call of that name unless a delimiter
is in it or it is reserved. -/
theorem reread_code_iff (hne : name ≠ "") :
    (((mk l .core).block (Text.escape name) st).1.kind = .code ∧
        ((mk l .core).block (Text.escape name) st).2.heap.reference?
          ((mk l .core).block (Text.escape name) st).1 = some name) ↔
      (∀ c ∈ name.toList, c ∉ delimiters) ∧ ¬ Reserved name.toList := by
  have htext : (Text.escape name).toList = Text.escapeChars name.toList := String.toList_ofList
  rw [← delimiters_escapeChars, ← reserved_escapeChars, ← htext, reference?_block,
    kind_block _ _ _ (by simp)]
  constructor
  · rintro ⟨hentry, -⟩
    obtain ⟨-, hu, hreserved⟩ := Grammar.entryOf?_code_iff.1 hentry
    exact ⟨fun c hc => (hu c hc).2, hreserved⟩
  · rintro ⟨hu, hreserved⟩
    have hfilled : (Text.escape name).toList ≠ [] := by
      rw [htext, Ne, Text.escapeChars_eq_nil_iff]
      simpa using hne
    have hblank : ∀ c ∈ (Text.escape name).toList, Text.isBlank c = false := by
      rw [htext]
      exact fun c => Text.isBlank_of_mem_escapeChars
    have hentry := Grammar.entryOf?_code_iff.2
      ⟨hfilled, fun c hc => ⟨hblank c hc, hu c hc⟩, hreserved⟩
    refine ⟨hentry, ?_⟩
    rw [Grammar.literal_of_code hentry, Text.unescape_escape]
    rfl

/-- **Written data references.** The written name of a data reference is read as one to that name
unless a delimiter is in it or it is `null`. -/
theorem reread_data_iff (hne : name ≠ "") :
    (((mk l .core).block ("@" ++ Text.escape name) st).1.kind = .data ∧
        ((mk l .core).block ("@" ++ Text.escape name) st).2.heap.reference?
          ((mk l .core).block ("@" ++ Text.escape name) st).1 = some name) ↔
      (∀ c ∈ name.toList, c ∉ delimiters) ∧ name ≠ "null" := by
  have htext : ("@" ++ Text.escape name).toList = '@' :: Text.escapeChars name.toList := by
    simp [Text.escape]
  have hfilled : Text.escapeChars name.toList ≠ [] := by
    rw [Ne, Text.escapeChars_eq_nil_iff]
    simpa using hne
  have hnull : Text.escapeChars name.toList = "null".toList ↔ name = "null" := by
    rw [Text.escapeChars_eq_iff (List.all_eq_true.1 rfl), String.toList_inj]
  have hentry : Grammar.core.entryOf? ("@" ++ Text.escape name).toList =
      some (Grammar.coreEntry .data) ↔ (∀ c ∈ name.toList, c ∉ delimiters) ∧ name ≠ "null" := by
    rw [htext, Grammar.entryOf?_data_iff hfilled fun c => Text.isBlank_of_mem_escapeChars,
      delimiters_escapeChars, Ne, hnull]
  rw [← hentry, reference?_block, kind_block _ _ _ (by simp)]
  constructor
  · exact And.left
  · intro h
    refine ⟨h, ?_⟩
    obtain ⟨t, ht, -, hliteral⟩ := Grammar.literal_of_data h
    obtain rfl : Text.escapeChars name.toList = t := (List.cons.inj (htext.symm.trans ht)).2
    have hread : Text.unescape (String.ofList (Text.escapeChars name.toList)) = name :=
      Text.unescape_escape name
    rw [hliteral, hread, Literal.reference?, if_neg (by simpa using hne)]

/-! ## Names that survive -/

/-- The text and the name of a block that is read and has one. -/
theorem block_cases (hread : (mk l .core).block text st = (b, st'))
    (hname : st'.heap.reference? b = some name) :
    (b.kind = .code ∧ (Pattern.plus .nameChar).Matches text.toList ∧ name = Text.unescape text) ∨
      (b.kind = .data ∧ ∃ t, text.toList = '@' :: t ∧ (Pattern.plus .nameChar).Matches t ∧
        name = Text.unescape (String.ofList t)) := by
  have hliteral := reference?_block l text st
  have hkind : ∀ {k : Kind}, k ≠ .error → b.kind = k →
      Grammar.core.entryOf? text.toList = some (Grammar.coreEntry k) := by
    rintro k herror rfl
    exact (kind_block l text st herror).1 (by rw [hread])
  rw [hread, hname] at hliteral
  rcases Heap.written_of_reference? hname with ⟨hdata, -⟩ | ⟨hcode, -⟩
  · have hentry := hkind (by simp) hdata
    obtain ⟨t, htext, hmatch, heq⟩ := Grammar.literal_of_data hentry
    have hne := Text.unescape_ne_empty (matches_plus_nameChar.1 hmatch).1
    rw [heq, Literal.reference?, if_neg (by simpa using hne)] at hliteral
    exact .inr ⟨hdata, t, htext, hmatch, Option.some.inj hliteral⟩
  · have hentry := hkind (by simp) hcode
    rw [Grammar.literal_of_code hentry] at hliteral
    exact .inl ⟨hcode, Grammar.matches_of_entryOf? hentry, Option.some.inj hliteral⟩

theorem name_ne_empty (hread : (mk l .core).block text st = (b, st'))
    (hname : st'.heap.reference? b = some name) : name ≠ "" := by
  rcases block_cases hread hname with ⟨-, hmatch, rfl⟩ | ⟨-, t, -, hmatch, rfl⟩
  · have hne := Text.unescape_ne_empty (matches_plus_nameChar.1 hmatch).1
    rwa [String.ofList_toList] at hne
  · exact Text.unescape_ne_empty (matches_plus_nameChar.1 hmatch).1

/-- **Names without escapes.** A text without backslashes is written again as it was read. -/
theorem written_of_read (hread : (mk l .core).block text st = (b, st'))
    (hname : st'.heap.reference? b = some name) (hplain : '\\' ∉ text.toList) :
    st'.heap.written b = text := by
  have hself : ∀ {t : List Char}, '\\' ∉ t → (Pattern.plus .nameChar).Matches t →
      Text.escape (Text.unescape (String.ofList t)) = String.ofList t := by
    intro t ht hmatch
    have hbare : ∀ c ∈ t, Text.isBare c = true := fun c hc => Text.isBare_iff.2
      ⟨fun heq => ht (heq ▸ hc), ((matches_plus_nameChar.1 hmatch).2 c hc).1⟩
    have hunescape := Text.unescapeChars_append ht []
    rw [List.append_nil, Text.unescapeChars_eq_nil_iff.2 rfl, List.append_nil] at hunescape
    rw [Text.escape, Text.unescape, String.toList_ofList, String.toList_ofList, hunescape,
      Text.escapeChars_eq_self hbare]
  rcases Heap.written_of_reference? hname with ⟨hdata, hwritten⟩ | ⟨hcode, hwritten⟩
  · rcases block_cases hread hname with ⟨hcode, -⟩ | ⟨-, t, htext, hmatch, rfl⟩
    · rw [hdata] at hcode
      cases hcode
    · rw [htext, List.mem_cons, not_or] at hplain
      rw [hwritten, hself hplain.2 hmatch, ← String.toList_inj, htext]
      simp
  · rcases block_cases hread hname with ⟨-, hmatch, rfl⟩ | ⟨hdata, -⟩
    · have htext := hself hplain hmatch
      rwa [String.ofList_toList, ← hwritten] at htext
    · rw [hcode] at hdata
      cases hdata

/-- **Names that survive.** A data reference or a call that is read from a text is written as a text
that is read as the same kind with the same name if and only if no delimiter is in the name, and it
is not `null`, for a reference, and not reserved, for a call. -/
theorem name_reread_iff (l : Localizer) (hread : (mk l .core).block text st = (b, st'))
    (hname : st'.heap.reference? b = some name) (st₁ : Store) :
    (((mk l .core).block (st'.heap.written b) st₁).1.kind = b.kind ∧
        ((mk l .core).block (st'.heap.written b) st₁).2.heap.reference?
          ((mk l .core).block (st'.heap.written b) st₁).1 = some name) ↔
      (∀ c ∈ name.toList, c ∉ delimiters) ∧ (b.kind = .data → name ≠ "null") ∧
        (b.kind = .code → ¬ Reserved name.toList) := by
  have hne := name_ne_empty hread hname
  rcases Heap.written_of_reference? hname with ⟨hkind, hwritten⟩ | ⟨hkind, hwritten⟩
  · rw [hwritten, hkind, reread_data_iff hne]
    simp
  · rw [hwritten, hkind, reread_code_iff hne]
    simp

/-- A call of `1` can be read, but not written: it is read again as a number. -/
theorem name_reread_iff_numeral :
    ∃ b st', (mk .plain .core).block "\\u0031" (Store.ofSeed 0) = (b, st') ∧ b.kind = .code ∧
      st'.heap.reference? b = some "1" ∧
      ¬ (((mk .plain .core).block (st'.heap.written b) (Store.ofSeed 0)).1.kind = b.kind ∧
        ((mk .plain .core).block (st'.heap.written b) (Store.ofSeed 0)).2.heap.reference?
          ((mk .plain .core).block (st'.heap.written b) (Store.ofSeed 0)).1 = some "1") := by
  have hliteral : Grammar.core.literal "\\u0031" = .code "1" := by decide +kernel
  have hread : (mk .plain .core).block "\\u0031" (Store.ofSeed 0) =
      (.code "1" none, Store.ofSeed 0) := by
    rw [block, hliteral]
    rfl
  refine ⟨_, _, hread, rfl, rfl, fun hsame => ?_⟩
  obtain ⟨-, -, hreserved⟩ := (name_reread_iff .plain hread rfl (Store.ofSeed 0)).1 hsame
  exact hreserved rfl (.inr (.inl (Pattern.matchesAll_iff.1 (by decide +kernel))))

end Environment

end BlockMachine
