import BlockMachine.Proofs.Grammar.RandomBounds
import BlockMachine.Proofs.Workspace.Rereading

/-!
# Literals as text

How what is read from a text is written, and which kind of token that text is again.

* `Literal.readString_quote`, `Literal.matches_quote` — a string in quotes is read as it was;
* `Literal.written`, `Literal.written_of_made` — a block is written as the literal it was made of;
* `Inside`, `Kind.matches_package` — what stands in the brackets of a package:
  `Grammar.literal_eq_package_iff`;
* `Kind.verbatim`, `Literal.written_verbatim` — the kinds that are written as they were read;
* `Literal.Enclosable`, `Literal.inside_written` — the literals whose text can stand in brackets;
* `Literal.Writable`, `Literal.exists_matches_written` — the literals whose text is a token.
-/

namespace BlockMachine

open Decimal (plain isDigit)

/-! ## Texts in quotes -/

namespace Literal

variable {a b new x : Char} {s : List Char}

theorem replacePair_pair (a b new : Char) (s : List Char) :
    replacePair a b new (a :: b :: s) = new :: replacePair a b new s := by
  rw [replacePair, if_pos ⟨rfl, rfl⟩]

theorem replacePair_cons (h : x = a → s.head? ≠ some b) :
    replacePair a b new (x :: s) = x :: replacePair a b new s := by
  cases s with
  | nil => rfl
  | cons y s => rw [replacePair, if_neg fun hpair => h hpair.1 (congrArg some hpair.2)]

/-- A text between quotes, with a backslash before each quote and backslash. -/
def quoteChars (s : List Char) : List Char :=
  s.flatMap fun c => if c = '\\' ∨ c = '\x22' then ['\\', c] else [c]

/-- A text with a backslash before each backslash. -/
def slashChars (s : List Char) : List Char :=
  s.flatMap fun c => if c = '\\' then ['\\', c] else [c]

theorem quoteChars_cons (c : Char) (s : List Char) : quoteChars (c :: s) =
    (if c = '\\' ∨ c = '\x22' then ['\\', c] else [c]) ++ quoteChars s :=
  List.flatMap_cons

theorem slashChars_cons (c : Char) (s : List Char) :
    slashChars (c :: s) = (if c = '\\' then ['\\', c] else [c]) ++ slashChars s :=
  List.flatMap_cons

theorem head_quoteChars (s : List Char) : (quoteChars s).head? ≠ some '\x22' := by
  cases s with
  | nil => exact nofun
  | cons c s =>
    rw [quoteChars_cons]
    split
    case isTrue _ => simp
    case isFalse hc => simpa using (not_or.1 hc).2

/-- Reading a written text first leaves the backslashes of the backslashes. -/
theorem replacePair_quoteChars (s : List Char) :
    replacePair '\\' '\x22' '\x22' (quoteChars s) = slashChars s := by
  induction s with
  | nil => rfl
  | cons c s ih =>
    rw [quoteChars_cons, slashChars_cons]
    by_cases hslash : c = '\\'
    · subst hslash
      rw [if_pos (.inl rfl), if_pos rfl, List.cons_append, List.singleton_append,
        replacePair_cons fun _ => by simp, replacePair_cons fun _ => head_quoteChars s, ih]
      rfl
    · rw [if_neg hslash]
      by_cases hquote : c = '\x22'
      · subst hquote
        rw [if_pos (.inr rfl), List.cons_append, List.singleton_append, replacePair_pair, ih]
        rfl
      · rw [if_neg (not_or.2 ⟨hslash, hquote⟩), List.singleton_append,
          replacePair_cons fun h => absurd h hslash, ih]
        rfl

/-- And then takes these away. -/
theorem replacePair_slashChars (s : List Char) :
    replacePair '\\' '\\' '\\' (slashChars s) = s := by
  induction s with
  | nil => rfl
  | cons c s ih =>
    rw [slashChars_cons]
    by_cases hslash : c = '\\'
    · subst hslash
      rw [if_pos rfl, List.cons_append, List.singleton_append, replacePair_pair, ih]
    · rw [if_neg hslash, List.singleton_append, replacePair_cons fun h => absurd h hslash, ih]

theorem toList_quote (s : String) :
    (quote s).toList = '\x22' :: quoteChars s.toList ++ ['\x22'] := by
  rw [quote, String.toList_ofList]
  rfl

/-- **Texts survive.** Reading the written form of a text gives the text. -/
theorem readString_quote (s : String) : readString (quote s).toList = s := by
  have hinside : between 1 1 ('\x22' :: quoteChars s.toList ++ ['\x22']) = quoteChars s.toList :=
    Grammar.between_append ['\x22'] _ ['\x22']
  rw [readString, toList_quote, hinside, replacePair_quoteChars, replacePair_slashChars,
    String.ofList_toList]

theorem quoted_quoteChars (s : List Char) : Quoted (quoteChars s) := by
  induction s with
  | nil => exact .nil
  | cons c s ih =>
    rw [quoteChars_cons]
    split
    case isTrue hc =>
      refine .cons (.inr ⟨['\\'], [c], rfl, rfl, c, ?_, rfl⟩) nofun ih
      rcases hc with rfl | rfl <;> decide
    case isFalse hc =>
      exact .cons (.inl ⟨c, by simpa [ClassItem.accepts] using hc, rfl⟩) nofun ih

theorem matches_quote (s : String) : Pattern.quotedText.Matches (quote s).toList := by
  rw [toList_quote]
  exact Pattern.matches_quotedText.2 ⟨_, rfl, quoted_quoteChars _⟩

/-! ## How literals are written -/

/-- The text of what is made of a literal. -/
def written (l : Localizer) : Literal → String
  | .error message => errorText message
  | .number value => value.written
  | .boolean value => if value then "T" else "F"
  | .string value => quote value
  | .memoryReference name => "MemRef[" ++ name ++ "]"
  | .memory id => "Object[" ++ id ++ "]"
  | .randomInt bounds => bounds.written "int"
  | .randomReal bounds => bounds.written "real"
  | .randomBool => "bool"
  | .operator op => op.info.token
  | .assign name => "->$" ++ name
  | .fetch name => "$" ++ name
  | .null => "@null"
  | .data name => "@" ++ Text.escape (if name.isEmpty then "a1" else name)
  | .package inner => "[" ++ inner.written l ++ "]"
  | .getSymbol name => "Get[" ++ name ++ "]"
  | .setSymbol name => "Set[" ++ name ++ "]"
  | .color value => value.written
  | .code name => Text.escape name
  | .extension ext => ext.written
  | .unreadable text => errorText (unreadableMessage l text)

variable {l : Localizer} {h : Heap} {x : Literal} {b : Block}

/-- The text of a block that is no package, at any depth. -/
theorem writtenAt_of_made (hx : ∀ inner, x ≠ .package inner) (hb : Made l h x b) (depth : Nat) :
    h.writtenAt depth b = x.written l := by
  cases x with
  | package inner => exact absurd rfl (hx inner)
  | null =>
    obtain ⟨d, rfl, -⟩ := hb
    simp only [Heap.writtenAt, written]
  | data name =>
    obtain ⟨d, rfl, -, hname⟩ := hb
    simp only [Heap.writtenAt, written, hname]
  | _ =>
    obtain ⟨dice, rfl⟩ := hb
    simp only [make, Heap.writtenAt, Block.ofFraction, written]

/-- **What is made of a literal is written as the literal says**, if packages do not nest. -/
theorem written_of_made (hx : ∀ inner, x = .package inner → ∀ y, inner ≠ .package y)
    (hb : Made l h x b) : h.written b = x.written l := by
  cases x with
  | package inner =>
    obtain ⟨d, z, rfl, hblocks, hz⟩ := hb
    simp only [Heap.written, Heap.writtenAt, Heap.bracketed, hblocks, written,
      writtenAt_of_made (hx inner rfl) hz]
  | _ => exact writtenAt_of_made (by simp) hb _

end Literal

/-! ## What stands in brackets -/

/-- The characters that can be in brackets only as parts of a text in quotes. -/
def brackets : List Char :=
  ['\x22', '[', ']']

/-- What a package can hold: a text in quotes, or one without quotes and brackets. -/
def Inside (s : List Char) : Prop :=
  (∀ c ∈ s, c ∉ brackets) ∨ Pattern.quotedText.Matches s

namespace Kind

variable {s u : List Char}

theorem matches_package :
    Kind.package.pattern.Matches u ↔ ∃ s, Inside s ∧ u = '[' :: s ++ [']'] := by
  have hchars : ∀ s,
      (Pattern.lazyStar (.oneIn true [.char '\x22', .char '[', .char ']'])).Matches s ↔
      ∀ c ∈ s, c ∉ brackets := by
    intro s
    refine Iff.trans Pattern.matches_star_oneIn ?_
    simp [ClassItem.accepts, brackets]
  constructor
  · rintro (⟨_, _, rfl, rfl, s, _, rfl, hs, rfl⟩ | ⟨_, _, rfl, rfl, s, _, rfl, hs, rfl⟩)
    · exact ⟨s, .inl ((hchars s).1 hs), rfl⟩
    · exact ⟨s, .inr hs, rfl⟩
  · rintro ⟨s, hs | hs, rfl⟩
    · exact .inl ⟨['['], _, rfl, rfl, s, [']'], rfl, (hchars s).2 hs, rfl⟩
    · exact .inr ⟨['['], _, rfl, rfl, s, [']'], rfl, hs, rfl⟩

theorem matches_package_iff : Kind.package.pattern.Matches ('[' :: s ++ [']']) ↔ Inside s := by
  rw [matches_package]
  constructor
  · rintro ⟨s', hs', heq⟩
    obtain rfl : s = s' := List.append_cancel_right (List.cons.inj heq).2
    exact hs'
  · exact fun hs => ⟨s, hs, rfl⟩

end Kind

namespace Grammar

/-- Only a package begins with a bracket. -/
theorem entryOf?_package_iff {u : List Char} :
    core.entryOf? u = some (coreEntry .package) ↔ Kind.package.pattern.Matches u := by
  refine ⟨matches_of_entryOf?, fun h => ?_⟩
  obtain ⟨s, -, rfl⟩ := Kind.matches_package.1 h
  refine entryOf?_of_unique (c := '[') (d := '[') ?_ ?_ h rfl List.mem_cons_self
  · exact Kind.mem_all_of_fromOperator .iterate (by simp [Kind.fromOperator])
  · decide

/-- Only a string begins with a quote. -/
theorem entryOf?_string_iff {u : List Char} :
    core.entryOf? u = some (coreEntry .string) ↔ Pattern.quotedText.Matches u := by
  refine ⟨matches_of_entryOf?, fun h => ?_⟩
  obtain ⟨inside, hu, -⟩ := Pattern.matches_quotedText.1 h
  refine entryOf?_of_unique (k := .string) (c := '\x22') (d := '\x22') ?_ ?_ h ?_ ?_
  · simp [Kind.all]
  · decide
  · rw [hu]
    rfl
  · simp [hu]

/-- A string is read from its text between quotes. -/
theorem literal_quote (s : String) : core.literal (quote s) = .string s := by
  rw [literal_of_entryOf? (entryOf?_string_iff.2 (Literal.matches_quote s)), Literal.ofToken,
    Literal.readString_quote]

/-- Errors are tried first. -/
theorem entryOf?_error_iff {u : List Char} :
    core.entryOf? u = some (coreEntry .error) ↔ Kind.error.pattern.Matches u := by
  refine ⟨matches_of_entryOf?, fun h => ?_⟩
  have hentries : core.entries = coreEntry .error :: core.entries.tail := rfl
  rw [entryOf?, hentries, List.find?_cons_of_pos (by rwa [coreEntry, Pattern.matchesAll_iff])]

/-- In brackets, only a text in quotes holds quotes or brackets, and it is a string. -/
theorem plain_of_inside {u : List Char} {k : Kind} (hu : Inside u)
    (he : core.entryOf? u = some (coreEntry k)) (hk : k ≠ .string) : ∀ c ∈ u, c ∉ brackets := by
  refine hu.resolve_right fun hquoted => hk ?_
  exact coreEntry_inj (Option.some.inj (he.symm.trans (entryOf?_string_iff.2 hquoted)))

theorem eq_string_of_needs {u : List Char} {k : Kind} (hu : Inside u)
    (he : core.entryOf? u = some (coreEntry k)) (hneeds : k.pattern.needs brackets = true) :
    k = .string := by
  by_contra hk
  obtain ⟨c, hc, hd⟩ := Pattern.exists_mem_of_matches hneeds (matches_of_entryOf? he)
  exact plain_of_inside hu he hk c hc hd

/-- What is in the brackets is read on its own. -/
theorem literal_bracketed {w : String} (h : Inside w.toList) :
    core.literal ("[" ++ w ++ "]") = .package (core.literal w) := by
  have htext : ("[" ++ w ++ "]").toList = '[' :: w.toList ++ [']'] := by simp
  have hentry : core.entryOf? ("[" ++ w ++ "]").toList = some (coreEntry .package) := by
    rw [entryOf?_package_iff, htext, Kind.matches_package_iff]
    exact h
  have hinside : Literal.between 1 1 ('[' :: w.toList ++ [']']) = w.toList :=
    between_append ['['] _ [']']
  rw [literal_of_entryOf? hentry, Literal.ofToken, htext, hinside, literal]
  refine congrArg Literal.package (literalAt_eq ?_ ?_)
  · rw [← String.length_toList, htext]
    simp
  · exact Nat.lt_succ_of_le (le_of_eq String.length_toList)

/-- **Packages.** The token of a package holds what its literal is read from. -/
theorem literal_eq_package_iff {text : String} {x : Literal} :
    core.literal text = .package x ↔
      ∃ w : String, Inside w.toList ∧ text = "[" ++ w ++ "]" ∧ core.literal w = x := by
  constructor
  · intro h
    obtain ⟨d, -, hmatch⟩ := package_of_literalAt h
    obtain ⟨s, hs, htext⟩ := Kind.matches_package.1 hmatch
    have htext' : text = "[" ++ String.ofList s ++ "]" := by
      rw [← String.toList_inj, htext]
      simp
    have hinside : Inside (String.ofList s).toList := by rwa [String.toList_ofList]
    rw [htext', literal_bracketed hinside] at h
    exact ⟨_, hinside, htext', Literal.package.inj h⟩
  · rintro ⟨w, hw, rfl, rfl⟩
    exact literal_bracketed hw

end Grammar

/-! ## Literals that are written as they were read -/

/-- Kinds whose blocks are written as the tokens that they were read from. -/
def Kind.verbatim : List Kind :=
  [.boolean, .memoryReference, .randomBool, .assign, .fetch, .null, .getSymbol, .setSymbol]

namespace Literal

variable {l : Localizer} {text : String}

theorem written_verbatim {k : Kind} (hk : k ∈ Kind.verbatim)
    (h : Grammar.core.entryOf? text.toList = some (Grammar.coreEntry k)) :
    (Grammar.core.literal text).written l = text := by
  have hmatch := Grammar.matches_of_entryOf? h
  have hbrackets : ∀ {word : String} {n : Nat}, word.length = n →
      (Pattern.sequence [Pattern.word word, .noBrackets, .char ']']).Matches text.toList →
      word ++ String.ofList (between n 1 text.toList) ++ "]" = text := by
    rintro word n rfl ⟨_, _, htext, hword, name, _, rfl, -, rfl⟩
    obtain rfl := Pattern.matches_word.1 hword
    have hinside : between word.length 1 (word.toList ++ name ++ [']']) = name := by
      rw [← String.length_toList]
      exact Grammar.between_append word.toList name [']']
    rw [← String.toList_inj, htext, ← List.append_assoc, hinside]
    simp
  have hnamed : ∀ {word : String} {n : Nat}, word.length = n →
      (Pattern.seq (Pattern.word word) (.plus .nameChar)).Matches text.toList →
      word ++ String.ofList (text.toList.drop n) = text := by
    rintro word n rfl ⟨_, name, htext, hword, -⟩
    obtain rfl := Pattern.matches_word.1 hword
    rw [← String.toList_inj, htext, ← String.length_toList, List.drop_left]
    simp
  rw [Grammar.literal_of_entryOf? h]
  simp only [Kind.verbatim, List.mem_cons, List.not_mem_nil, or_false] at hk
  rcases hk with rfl | rfl | rfl | rfl | rfl | rfl | rfl | rfl
  · obtain ⟨c, hc, htext⟩ := hmatch
    rw [← String.toList_inj, htext]
    have hc : c = 'T' ∨ c = 'F' := by simpa [ClassItem.accepts] using hc
    rcases hc with rfl | rfl <;> simp [ofToken, written]
  · exact hbrackets rfl hmatch
  · exact (String.toList_inj.1 (Pattern.matches_word.1 hmatch)).symm
  · exact hnamed rfl hmatch
  · exact hnamed rfl hmatch
  · exact (String.toList_inj.1 (Pattern.matches_word.1 hmatch)).symm
  · exact hbrackets rfl hmatch
  · exact hbrackets rfl hmatch

/-! ## Literals in brackets -/

/-- Whether a literal stays in its brackets when it is written: names hold no delimiters, and errors
have no message, which would be in quotes. -/
def Enclosable (l : Localizer) : Literal → Prop
  | .error message => message = ""
  | .data name | .code name => ∀ c ∈ name.toList, c ∉ delimiters
  | .unreadable text => unreadableMessage l text = ""
  | _ => True

end Literal

/-- The text of a pattern that avoids quotes and brackets can stand in brackets. -/
theorem inside_of_matches {p : Pattern} {s : List Char}
    (hp : (brackets.all fun d => p.avoids d) = true) (h : p.Matches s) : Inside s := by
  refine .inl fun c hc hd => ?_
  exact Pattern.not_mem_of_matches (List.all_eq_true.1 hp c hd) h hc

theorem not_mem_brackets_word {word : String}
    (h : (word.toList.all fun c => !brackets.contains c) = true) :
    ∀ c ∈ word.toList, c ∉ brackets := by
  simpa using List.all_eq_true.1 h

/-- The text of a double holds no bracket. -/
theorem not_mem_brackets_plain {x : Float} : ∀ c ∈ (plain x).toList, c ∉ brackets := by
  intro c hc
  by_cases hfinite : x.isFinite = true
  · rcases mem_plain hfinite hc with hdigit | rfl | rfl
    · intro hd
      have hall : (brackets.all fun d => !isDigit d) = true := by decide
      have hnot := List.all_eq_true.1 hall c hd
      rw [hdigit] at hnot
      cases hnot
    · decide
    · decide
  · have hwords : plain x = "NaN" ∨ plain x = "inf" ∨ plain x = "-inf" := by
      rw [plain]
      split
      case isTrue _ => exact .inl rfl
      case isFalse hnan =>
        have hinf : x.isInf = true := by
          by_contra hinf
          exact hfinite (Decimal.isFinite_of (by simpa using hnan) (by simpa using hinf))
        rw [if_pos hinf]
        cases Decimal.isNegative x
        · exact .inr (.inl rfl)
        · exact .inr (.inr rfl)
    rcases hwords with hword | hword | hword
    all_goals
      rw [hword] at hc
      exact not_mem_brackets_word (by decide) c hc

theorem not_mem_brackets_escape {name : String} (h : ∀ c ∈ name.toList, c ∉ delimiters) :
    ∀ c ∈ (Text.escape name).toList, c ∉ brackets := by
  intro c hc hd
  rw [Text.escape, String.toList_ofList] at hc
  have hall : (brackets.all delimiters.contains) = true := by decide
  exact delimiters_escapeChars.2 h c hc (List.contains_iff_mem.1 (List.all_eq_true.1 hall c hd))

theorem not_mem_brackets_bounds {word : String} (hword : ∀ c ∈ word.toList, c ∉ brackets)
    (bounds : Bounds) : ∀ c ∈ (bounds.written word).toList, c ∉ brackets := by
  rw [Bounds.written]
  split
  case h_1 lo hi hvalid =>
    simp only [String.toList_append, List.forall_mem_append]
    exact ⟨⟨⟨⟨⟨hword, not_mem_brackets_word (by decide)⟩, not_mem_brackets_plain⟩,
      not_mem_brackets_word (by decide)⟩, not_mem_brackets_plain⟩,
      not_mem_brackets_word (by decide)⟩
  case h_2 => exact hword

theorem Operator.not_mem_brackets_token (op : Operator) :
    ∀ c ∈ op.info.token.toList, c ∉ brackets := by
  have hall : (Operator.all.all fun op =>
      op.info.token.toList.all fun c => !brackets.contains c) = true := by decide
  exact not_mem_brackets_word (List.all_eq_true.1 hall op op.mem_all)

/-- The text of a number holds no bracket. -/
theorem Fraction.inside_written {r : Fraction}
    (hd : Decimal.isWhole r.denominator = true) : Inside r.written.toList := by
  by_cases hnan : r.numerator.isNaN = true ∧ (r.denominator == 1) = false
  · rw [written_nan_over hnan.1 hnan.2, String.toList_append]
    exact .inl (List.forall_mem_append.2
      ⟨not_mem_brackets_word (by decide), not_mem_brackets_plain⟩)
  · exact inside_of_matches (by decide) ((readsAs_written_iff hd).2 hnan).1

namespace Literal

variable {l : Localizer} {text : String}

theorem inside_written (htext : Inside text.toList)
    (hx : (Grammar.core.literal text).Enclosable l) :
    Inside ((Grammar.core.literal text).written l).toList := by
  cases he : Grammar.core.entryOf? text.toList with
  | none =>
    rw [Grammar.literal_of_unreadable he] at hx ⊢
    rw [written, errorText, if_pos (by simpa [Enclosable] using hx)]
    exact .inl (not_mem_brackets_word (by decide))
  | some e =>
    obtain ⟨k, hk, rfl⟩ := Grammar.exists_kind_of_mem (List.mem_of_find?_eq_some he)
    by_cases hverbatim : k ∈ Kind.verbatim
    · rwa [written_verbatim hverbatim he]
    rw [Grammar.literal_of_entryOf? he] at hx ⊢
    have hneeds := Grammar.eq_string_of_needs htext he
    cases k with
    | string => exact .inr (matches_quote _)
    | memoryReference | memory | package | getSymbol | setSymbol | color => cases hneeds rfl
    | boolean | randomBool | assign | fetch | null => exact absurd (by decide) hverbatim
    | extension => cases Kind.not_nullable _ hk
    | error =>
      rw [ofToken] at hx ⊢
      rw [written, errorText, if_pos (by simpa [Enclosable] using hx)]
      exact .inl (not_mem_brackets_word (by decide))
    | number => exact Fraction.inside_written (Fraction.isWhole_denominator_readFraction _)
    | randomInt => exact .inl (not_mem_brackets_bounds (not_mem_brackets_word (by decide)) _)
    | randomReal => exact .inl (not_mem_brackets_bounds (not_mem_brackets_word (by decide)) _)
    | operator op => exact .inl op.not_mem_brackets_token
    | data =>
      refine .inl ?_
      rw [ofToken, written, String.toList_append, List.forall_mem_append]
      refine ⟨not_mem_brackets_word (by decide), not_mem_brackets_escape ?_⟩
      split
      case isTrue _ => simp [delimiters]
      case isFalse _ => exact hx
    | code => exact .inl (not_mem_brackets_escape hx)

/-! ## Literals that are written as tokens -/

/-- Whether a literal is written as a token: names hold no delimiters, random numbers are not rolled
between infinite bounds, and what is in a package stays in its brackets. -/
def Writable (l : Localizer) : Literal → Prop
  | .error _ | .unreadable _ => True
  | .package inner => inner.Enclosable l
  | .randomInt bounds | .randomReal bounds => ∀ x y, bounds.valid = some (x, y) →
    x.isFinite = true ∧ y.isFinite = true
  | x => x.Enclosable l

/-- A number is written as one, or as a word over a number, which is a call. -/
theorem exists_matches_number {r : Fraction} (hd : Decimal.isWhole r.denominator = true) :
    ∃ k ∈ Kind.all, k.pattern.Matches r.written.toList ∧ k ≠ .memory := by
  by_cases hnan : r.numerator.isNaN = true ∧ (r.denominator == 1) = false
  · refine ⟨.code, Kind.code_mem_all, matches_plus_nameChar.2 ?_, by simp⟩
    have hplain := Pattern.matches_decimalNumber_plain (Bool.and_eq_true_iff.1 hd).1
    have hdelimiters : (delimiters.all fun d => Pattern.decimalNumber.avoids d) = true := by decide
    have hword : ∀ c ∈ "NaN/".toList, Text.isBlank c = false ∧ c ∉ delimiters := by
      simp [delimiters, Text.isBlank, Text.blankPoints]
    rw [Fraction.written_nan_over hnan.1 hnan.2, String.toList_append]
    refine ⟨by simp, List.forall_mem_append.2 ⟨hword, fun c hc => ?_⟩⟩
    exact ⟨(plain_of_bound hplain c hc).1, fun hd =>
      Pattern.not_mem_of_matches (List.all_eq_true.1 hdelimiters c hd) hplain hc⟩
  · exact ⟨.number, by simp [Kind.all], ((Fraction.readsAs_written_iff hd).2 hnan).1, by simp⟩

/-- The id of an object has no comma. -/
theorem bne_comma_of_identChar {id : List Char} (hid : ∀ c ∈ id, Kind.identChar c = true) :
    ∀ c ∈ id, (c != ',') = true := by
  intro c hc
  rw [bne_iff_ne]
  rintro rfl
  exact absurd (hid _ hc) (by decide)

/-- It is all that stands in the brackets, if no contents do. -/
theorem readMemory_id {id : List Char} (hid : ∀ c ∈ id, Kind.identChar c = true) :
    readMemory ("Object[".toList ++ id ++ [']']) = String.ofList id := by
  have hinside : between 7 1 ("Object[".toList ++ id ++ [']']) = id :=
    Grammar.between_append "Object[".toList id [']']
  rw [readMemory, hinside, List.takeWhile_eq_self_iff.2 (bne_comma_of_identChar hid)]

/-- An object is written without its contents. -/
theorem matches_memory_written {text : List Char} (h : Kind.memory.pattern.Matches text) :
    Kind.memory.pattern.Matches ("Object[" ++ readMemory text ++ "]").toList ∧
      ',' ∉ ("Object[" ++ readMemory text ++ "]").toList := by
  obtain ⟨id, hid, htext⟩ := Kind.matches_memory.1 h
  have hcomma := bne_comma_of_identChar hid
  have hread : readMemory text = String.ofList id := by
    rcases htext with rfl | ⟨contents, -, rfl⟩
    · exact readMemory_id hid
    · have hinside :
          between 7 1 ("Object[".toList ++ (id ++ ", \x7b".toList ++ contents ++ ['\x7d'])
          ++ [']']) = id ++ ", \x7b".toList ++ contents ++ ['\x7d'] :=
        Grammar.between_append "Object[".toList _ [']']
      have hassoc : "Object[".toList ++ id ++ ", \x7b".toList ++ contents ++ ['\x7d', ']'] =
          "Object[".toList ++ (id ++ ", \x7b".toList ++ contents ++ ['\x7d']) ++ [']'] := by
        simp
      -- behind the id a comma comes first
      have hcut : (id ++ ", \x7b".toList ++ contents ++ ['\x7d']).takeWhile (· != ',') = id := by
        rw [List.append_assoc, List.append_assoc]
        exact takeWhile_stop hcomma (by decide)
      rw [readMemory, hassoc, hinside, hcut]
  have hwritten :
      ("Object[" ++ readMemory text ++ "]").toList = "Object[".toList ++ id ++ [']'] := by
    rw [hread]
    simp
  rw [hwritten]
  refine ⟨Kind.matches_memory.2 ⟨id, hid, .inl rfl⟩, fun hmem => ?_⟩
  rw [List.mem_append, List.mem_append] at hmem
  rcases hmem with (hmem | hmem) | hmem
  · exact absurd hmem (by decide)
  · exact absurd (hcomma _ hmem) (by decide)
  · exact absurd hmem (by decide)

theorem matches_color_written (c : Color) : Kind.color.pattern.Matches c.written.toList := by
  have hdigits : ∀ n : Nat, (Pattern.plus .digit).Matches (Decimal.natText n).toList := by
    intro n
    rw [Pattern.matches_plus_digit, Decimal.natText, String.toList_ofList]
    exact ⟨List.ne_nil_of_length_pos Nat.length_toDigits_pos, Decimal.allDigits_toDigits n⟩
  have htext : c.written.toList = "Color[".toList ++ ((Decimal.natText c.red.val).toList ++
      ([','] ++ ((Decimal.natText c.green.val).toList ++ ([','] ++
        ((Decimal.natText c.blue.val).toList ++ [']']))))) := by
    simp [Color.written]
  rw [htext]
  exact ⟨_, _, rfl, Pattern.matches_word.2 rfl, _, _, rfl, hdigits _, [','], _, rfl, rfl, _, _, rfl,
    hdigits _, [','], _, rfl, rfl, _, [']'], rfl, hdigits _, rfl⟩

/-- A name without delimiters is written as one. -/
theorem matches_name_written {name : String} (hne : name ≠ "")
    (hname : ∀ c ∈ name.toList, c ∉ delimiters) :
    (Pattern.plus .nameChar).Matches (Text.escape name).toList := by
  rw [Text.escape, String.toList_ofList]
  refine matches_plus_nameChar.2 ⟨?_, fun c hc => ⟨Text.isBlank_of_mem_escapeChars hc, ?_⟩⟩
  · rw [Ne, Text.escapeChars_eq_nil_iff]
    simpa using hne
  · exact delimiters_escapeChars.2 hname c hc

/-- A finite bound of a whole number is whole. -/
theorem isWhole_boundAs {a : List Char} {misplaced : Bool} (ha : RandomKind.int.bound.Matches a)
    (hfinite : (boundAs misplaced a).isFinite = true) :
    Decimal.isWhole (boundAs misplaced a) = true := by
  cases misplaced with
  | true =>
    have hnone : noNumber.isFinite = false := by decide
    rw [boundAs, if_pos rfl, hnone] at hfinite
    cases hfinite
  | false =>
    exact (RandomKind.isWhole_readFloat ha).resolve_right (Decimal.not_isInf_of_isFinite hfinite)

/-- A random literal is written as one of its kind, if its bounds are finite. -/
theorem matches_random_written {text : String} {k : RandomKind}
    (he : Grammar.core.entryOf? text.toList = some (Grammar.coreEntry k.kind)) :
    ∃ bounds, Grammar.core.literal text = k.literal bounds ∧
      ((∀ x y, bounds.valid = some (x, y) → x.isFinite = true ∧ y.isFinite = true) →
        k.kind.pattern.Matches (bounds.written k.word).toList) := by
  rcases RandomKind.matches_iff.1 (Grammar.matches_of_entryOf? he) with
    hword | ⟨a, b, ha, hb, htext⟩
  · obtain rfl := String.toList_inj.1 hword
    exact ⟨none, RandomKind.literal_word, fun _ => RandomKind.matches_iff.2 (.inl rfl)⟩
  · obtain rfl : text = String.ofList (k.text a b) := by rw [← htext, String.ofList_toList]
    refine ⟨_, RandomKind.literal_text ha hb, fun hfinite => ?_⟩
    by_cases hle : boundAs ('-' ∈ a.tail) a ≤ boundAs ('-' ∈ a.tail) b
    · obtain ⟨hx, hy⟩ := hfinite _ _ (by rw [Bounds.valid, if_pos hle])
      rw [k.written_eq hle, String.toList_ofList]
      refine RandomKind.matches_iff.2 (.inr ⟨_, _, k.bound_plain ?_ hx, k.bound_plain ?_ hy, rfl⟩)
      · rintro rfl
        exact isWhole_boundAs ha hx
      · rintro rfl
        exact isWhole_boundAs hb hy
    · rw [Bounds.written, Bounds.valid, if_neg hle]
      exact RandomKind.matches_iff.2 (.inl rfl)

/-- **Literals that are read are written as tokens.** -/
theorem exists_matches_written {k : Kind}
    (he : Grammar.core.entryOf? text.toList = some (Grammar.coreEntry k))
    (hx : (Grammar.core.literal text).Writable l) :
    ∃ k ∈ Kind.all, k.pattern.Matches ((Grammar.core.literal text).written l).toList ∧
      (k = .memory → ',' ∉ ((Grammar.core.literal text).written l).toList) := by
  obtain ⟨k', hk, heq⟩ := Grammar.exists_kind_of_mem (List.mem_of_find?_eq_some he)
  obtain rfl := Grammar.coreEntry_inj heq
  have hmatch := Grammar.matches_of_entryOf? he
  by_cases hverbatim : k' ∈ Kind.verbatim
  · rw [written_verbatim hverbatim he]
    exact ⟨k', hk, hmatch, by rintro rfl; exact absurd hverbatim (by decide)⟩
  have hliteral := Grammar.literal_of_entryOf? he
  cases k' with
  | boolean | randomBool | assign | fetch | null | memoryReference | getSymbol | setSymbol =>
    exact absurd (by decide) hverbatim
  | extension => cases Kind.not_nullable _ hk
  | error =>
    rw [hliteral]
    exact ⟨.error, hk, matches_errorText _, by simp⟩
  | number =>
    rw [hliteral]
    obtain ⟨k, hk, hmatch, hne⟩ :=
      exists_matches_number (Fraction.isWhole_denominator_readFraction text.toList)
    exact ⟨k, hk, hmatch, fun h => absurd h hne⟩
  | string =>
    rw [hliteral]
    exact ⟨.string, hk, matches_quote _, by simp⟩
  | memory =>
    rw [hliteral]
    obtain ⟨hmatch, hcomma⟩ := matches_memory_written hmatch
    exact ⟨.memory, hk, hmatch, fun _ => hcomma⟩
  | randomInt =>
    obtain ⟨bounds, hbounds, hfinite⟩ := matches_random_written (k := .int) he
    rw [hbounds] at hx ⊢
    exact ⟨.randomInt, hk, hfinite hx, by simp⟩
  | randomReal =>
    obtain ⟨bounds, hbounds, hfinite⟩ := matches_random_written (k := .real) he
    rw [hbounds] at hx ⊢
    exact ⟨.randomReal, hk, hfinite hx, by simp⟩
  | operator op =>
    rw [hliteral]
    have hpattern := List.mem_map_of_mem (f := Pattern.word) op.token_mem_spellings
    exact ⟨.operator op, hk, (Grammar.matches_oneOf (List.ne_nil_of_mem hpattern)).2
      ⟨_, hpattern, Pattern.matches_word.2 rfl⟩, by simp⟩
  | data =>
    obtain ⟨t, -, ht, hdata⟩ := Grammar.literal_of_data he
    rw [hdata] at hx ⊢
    have hne := Text.unescape_ne_empty (matches_plus_nameChar.1 ht).1
    rw [written, if_neg (by simpa using hne), String.toList_append]
    exact ⟨.data, hk, ⟨['@'], _, rfl, rfl, matches_name_written hne hx⟩, by simp⟩
  | package =>
    rw [ofToken] at hliteral
    obtain ⟨w, hw, rfl, -⟩ := Grammar.literal_eq_package_iff.1 hliteral
    rw [Grammar.literal_bracketed hw] at hx ⊢
    have htext : (written l (.package (Grammar.core.literal w))).toList =
        '[' :: ((Grammar.core.literal w).written l).toList ++ [']'] := by
      rw [written]
      simp
    rw [htext]
    exact ⟨.package, hk, Kind.matches_package_iff.2 (inside_written hw hx), by simp⟩
  | color =>
    rw [hliteral]
    exact ⟨.color, hk, matches_color_written _, by simp⟩
  | code =>
    rw [Grammar.literal_of_code he] at hx ⊢
    have hne := Text.unescape_ne_empty (matches_plus_nameChar.1 hmatch).1
    rw [String.ofList_toList] at hne
    exact ⟨.code, hk, matches_name_written hne hx, by simp⟩

end Literal

end BlockMachine
