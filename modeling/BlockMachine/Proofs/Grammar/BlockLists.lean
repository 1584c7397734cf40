import BlockMachine.Environment
import BlockMachine.Proofs.Grammar.TokenList
import BlockMachine.Proofs.Workspace.Building

/-!
# Block lists against single tokens

A text that is a token by itself can be put into a list of tokens, with one blank between them. The
list is always accepted. It is read token by token, with one exception: an object that is written
with its contents reaches as far as the line allows, so it takes along what follows it if a closing
brace and bracket with a blank behind them come later on the line.

* `Pattern.Greedy` — matchers that answer with the longest front part first;
* `Swallows` — the texts that an object with contents reaches into, `Contained` — lists of tokens
  where this does not happen;
* `Grammar.tokenTexts_joined` — the tokens of such a list are found again exactly then;
* `Workspace.parseBlocks_joined` — reading the list, against reading the tokens one by one.
-/

namespace BlockMachine

/-! ## Greedy matchers -/

theorem eraseDups_sublist : ∀ xs : List Nat, xs.eraseDups.Sublist xs
  | [] => .slnil
  | x :: xs => by
    rw [List.eraseDups_cons]
    exact ((eraseDups_sublist _).trans List.filter_sublist).cons_cons x
  termination_by xs => xs.length
  decreasing_by exact Nat.lt_succ_of_le (List.length_filter_le _ _)

/-- In a list that decreases, the first hit is the largest. -/
theorem find?_of_pairwise {xs : List Nat} {test : Nat → Bool} {n : Nat}
    (hxs : xs.Pairwise (· > ·)) (hfind : xs.find? test = some n) :
    ∀ m ∈ xs, test m = true → m ≤ n := by
  induction xs with
  | nil => cases hfind
  | cons x xs ih =>
    obtain ⟨hx, hmore⟩ := List.pairwise_cons.1 hxs
    rintro m hm hmtest
    rw [List.find?_cons] at hfind
    cases htest : test x with
    | true =>
      rw [htest] at hfind
      obtain rfl : x = n := by simpa using hfind
      rcases List.mem_cons.1 hm with rfl | hm
      · exact Nat.le_refl _
      · exact Nat.le_of_lt (hx m hm)
    | false =>
      rw [htest] at hfind
      rcases List.mem_cons.1 hm with rfl | hm
      · rw [htest] at hmtest
        cases hmtest
      · exact ih hmore hfind m hm hmtest

namespace Pattern

/-- A matcher that answers with the longest front part first, and then with ever shorter ones. -/
def Greedy (f : List Char → List Nat) : Prop :=
  ∀ s, (f s).Pairwise (· > ·)

namespace Greedy

theorem oneChar (test : Char → Bool) : Greedy (oneChar test) := by
  intro s
  cases s with
  | nil => exact .nil
  | cons c s =>
    rw [Pattern.oneChar]
    split <;> simp

/-- A class of characters, repeated: the whole run comes first. -/
theorem star (test : Char → Bool) :
    Greedy fun s => (repeatMost (Pattern.oneChar test) (s.length + 1) 0 s []).reverse := by
  intro s
  have hrun : ∀ c ∈ s.takeWhile test, test c = true := List.all_eq_true.1 List.all_takeWhile
  have hrest : ∀ c ∈ (s.dropWhile test).head?, test c = false := by
    intro c hc
    have hstop := List.head?_dropWhile_not test s
    rwa [Option.mem_def.1 hc] at hstop
  have hsearch := repeatMost_oneChar 0 (s.length + 1) hrun hrest
    (Nat.lt_succ_of_le (List.takeWhile_sublist test).length_le)
  rw [List.takeWhile_append_dropWhile] at hsearch
  simp only [hsearch, List.pairwise_reverse]
  exact List.pairwise_lt_range'

/-- One behind the other, if a shorter first part cannot be made up for by the second. -/
theorem seq {f g : List Char → List Nat} (hf : Greedy f) (hg : Greedy g)
    (hshort : ∀ s, ∀ n ∈ f s, ∀ m ∈ f s, m < n →
      ∀ b ∈ g (s.drop n), ∀ b' ∈ g (s.drop m), m + b' < n + b) :
    Greedy (seqLengths f g) := by
  intro s
  refine List.Pairwise.sublist (eraseDups_sublist _) (List.pairwise_flatMap.2 ⟨?_, ?_⟩)
  · intro n _
    rw [List.pairwise_map]
    exact (hg _).imp fun hlt => Nat.add_lt_add_left hlt n
  · refine (hf s).imp_of_mem fun {n m} hn hm hlt => ?_
    rintro _ hx _ hy
    obtain ⟨b, hb, rfl⟩ := List.mem_map.1 hx
    obtain ⟨b', hb', rfl⟩ := List.mem_map.1 hy
    exact hshort s n hn m hm hlt b hb b' hb'

/-- A first part of one length only. -/
theorem seq_of_length {f g : List Char → List Nat} (hf : Greedy f) (hg : Greedy g) {k : Nat}
    (hone : ∀ s, ∀ n ∈ f s, n = k) : Greedy (seqLengths f g) := by
  refine seq hf hg fun s n hn m hm hlt => ?_
  rw [hone s n hn, hone s m hm] at hlt
  exact absurd hlt (Nat.lt_irrefl k)

/-- One character behind the first part. -/
theorem seq_oneChar {f : List Char → List Nat} (hf : Greedy f) (test : Char → Bool) :
    Greedy (seqLengths f (Pattern.oneChar test)) := by
  refine seq hf (oneChar test) fun s n _ m _ hlt b hb b' hb' => ?_
  obtain ⟨_, _, -, rfl, _, -, rfl⟩ := (Finds.oneChar test _ _).1 hb
  obtain ⟨_, _, -, rfl, _, -, rfl⟩ := (Finds.oneChar test _ _).1 hb'
  exact Nat.add_lt_add_right hlt 1

theorem optional {p : Pattern} (hp : Greedy p.lengths) (hfilled : ¬ p.Matches []) :
    Greedy (Pattern.optional p).lengths := by
  intro s
  refine List.Pairwise.sublist (eraseDups_sublist _) (List.pairwise_append.2 ⟨hp s, by simp, ?_⟩)
  rintro n hn m hm
  obtain rfl := List.mem_singleton.1 hm
  obtain ⟨u, v, rfl, rfl, hu⟩ := split_of_mem_lengths hn
  refine List.length_pos_iff.2 ?_
  rintro rfl
  exact hfilled hu

theorem word (s : String) : Greedy (word s).lengths := by
  rw [Pattern.word]
  induction s.toList with
  | nil => exact fun _ => List.pairwise_singleton _ _
  | cons c cs ih =>
    cases cs with
    | nil => exact oneChar _
    | cons d cs =>
      refine seq_of_length (k := 1) (oneChar _) ih fun s n hn => ?_
      obtain ⟨_, _, -, rfl, _, -, rfl⟩ := (Finds.oneChar _ _ _).1 hn
      rfl

end Greedy

theorem length_of_mem_word {w : String} {s : List Char} {n : Nat}
    (hn : n ∈ (Pattern.word w).lengths s) : n = w.toList.length := by
  obtain ⟨u, v, -, rfl, hu⟩ := split_of_mem_lengths hn
  rw [matches_word.1 hu]

/-- The end of an object, from the end of its name on. -/
def memoryEnd : Pattern :=
  sequence [.optional (.group (sequence [Pattern.word ", \x7b", .star .any, .char '\x7d'])),
    .char ']']

theorem head_of_memoryEnd {u : List Char} (h : memoryEnd.Matches u) :
    ∃ c v, u = c :: v ∧ Kind.identChar c = false := by
  rcases h with ⟨_, _, rfl, ⟨_, _, rfl, hopen, -⟩ | rfl, rfl⟩
  · obtain rfl := matches_word.1 hopen
    exact ⟨',', _, rfl, by decide⟩
  · exact ⟨']', [], rfl, by decide⟩

theorem greedy_memoryEnd : Greedy memoryEnd.lengths := by
  have hcontents : Greedy (sequence [.star .any, .char '\x7d']).lengths :=
    (Greedy.star _).seq_oneChar _
  have hgroup : Greedy (sequence [Pattern.word ", \x7b", .star .any, .char '\x7d']).lengths :=
    (Greedy.word _).seq_of_length hcontents fun _ _ hn => length_of_mem_word hn
  refine (Greedy.optional hgroup ?_).seq_oneChar _
  rintro ⟨v, w, hnil, hv, -⟩
  obtain rfl := matches_word.1 hv
  simp at hnil

/-- The contents of an object take all that they can, and so does the object. -/
theorem greedy_memory : Greedy Kind.memory.pattern.lengths := by
  refine (Greedy.word _).seq_of_length ?_ fun _ _ hn => length_of_mem_word hn
  refine (Greedy.star _).seq greedy_memoryEnd fun s n hn m hm hlt b hb b' hb' => ?_
  -- only behind the whole name can the object go on
  obtain ⟨u, v, rfl, rfl, hu⟩ :=
    split_of_mem_lengths (p := .star (.oneIn false
      [.range '0' '9', .range 'A' 'Z', .range 'a' 'z', .char '_'])) hn
  obtain ⟨w, x, hs, rfl, hw⟩ := split_of_mem_lengths hb'
  obtain ⟨c, t, rfl, hc⟩ := head_of_memoryEnd hw
  rw [List.drop_append_of_le_length (Nat.le_of_lt hlt), List.drop_eq_getElem_cons hlt] at hs
  obtain ⟨rfl, -⟩ := List.cons.inj hs
  have hident := matches_star_oneIn.1 hu _ (List.getElem_mem hlt)
  simp only [Bool.false_bne] at hident
  exact absurd hident (by simpa [Kind.identChar] using hc)

end Pattern

/-! ## Where objects end -/

/-- A text that an object with contents reaches into: a closing brace and bracket come later on the
line, with a blank behind them. -/
def Swallows (rest : List Char) : Prop :=
  ∃ a c b, rest = a ++ '\x7d' :: ']' :: c :: b ∧ '\n' ∉ a ∧ Text.isBlank c = true

/-- An object with contents, and the parts that it is put together from. -/
theorem Extended.exists_parts {u : List Char} (hu : Extended u)
    (hmatch : Kind.memory.pattern.Matches u) :
    ∃ id contents, (∀ c ∈ id, Kind.identChar c = true) ∧ '\n' ∉ contents ∧
      u = "Object[".toList ++ id ++ ", \x7b".toList ++ contents ++ ['\x7d', ']'] := by
  obtain ⟨id, hid, rfl | ⟨contents, hcontents, rfl⟩⟩ := Kind.matches_memory.1 hmatch
  · have hcomma := hu.mem
    simp only [List.mem_append, List.mem_singleton] at hcomma
    rcases hcomma with (hcomma | hcomma) | hcomma
    · exact absurd hcomma (by decide)
    · exact absurd (hid _ hcomma) (by decide)
    · cases hcomma
  · exact ⟨id, contents, hid, hcontents, rfl⟩

/-- A blank in front of a text changes nothing. -/
theorem swallows_space {rest : List Char} : Swallows (' ' :: rest) ↔ Swallows rest := by
  constructor
  · rintro ⟨a, c, b, hs, ha, hc⟩
    cases a with
    | nil => cases (List.cons.inj hs).1
    | cons d a =>
      obtain ⟨-, rfl⟩ := List.cons.inj hs
      exact ⟨a, c, b, rfl, fun hmem => ha (List.mem_cons_of_mem d hmem), hc⟩
  · rintro ⟨a, c, b, rfl, ha, hc⟩
    exact ⟨' ' :: a, c, b, rfl, by simpa using ha, hc⟩

/-- An object ends behind its own end exactly if it reaches into what follows. -/
theorem Extended.reaches_iff {u s : List Char} (hu : Extended u)
    (hmatch : Kind.memory.pattern.Matches u) (hs : ∀ c ∈ s.head?, Text.isBlank c = true) :
    (∃ v d more, u ++ s = v ++ d :: more ∧ u.length < v.length ∧
      Kind.memory.pattern.Matches v ∧ Text.isBlank d = true) ↔ Swallows s := by
  constructor
  · rintro ⟨v, d, more, heq, hlt, hv, hd⟩
    obtain ⟨x, rfl, rfl⟩ : ∃ x, v = u ++ x ∧ s = x ++ d :: more := by
      rcases List.append_eq_append_iff.1 heq with ⟨x, rfl, hx⟩ | ⟨x, rfl, -⟩
      · exact ⟨x, rfl, hx⟩
      · simp only [List.length_append] at hlt
        omega
    have hext : Extended (u ++ x) := by
      obtain ⟨id, contents, rfl, hid⟩ := hu
      exact ⟨id, contents ++ x, by simp, hid⟩
    obtain ⟨id, contents, hid, hcontents, hparts⟩ := hext.exists_parts hv
    have hline : '\n' ∉ u ++ x := by
      rw [hparts]
      simp only [List.mem_append]
      rintro ((((hmem | hmem) | hmem) | hmem) | hmem)
      · exact absurd hmem (by decide)
      · exact absurd (hid _ hmem) (by decide)
      · exact absurd hmem (by decide)
      · exact hcontents hmem
      · exact absurd hmem (by decide)
    -- the part behind `u` begins with a blank, so it is longer than the closing brace and bracket
    rcases List.append_eq_append_iff.1 hparts with ⟨w, -, rfl⟩ | ⟨w, -, hw⟩
    · exact ⟨w, d, more, by simp, fun hmem => hline (by simp [hmem]), hd⟩
    · cases x with
      | nil => simp at hlt
      | cons c z =>
        have hmem : c ∈ ['\x7d', ']'] := by simp [hw]
        have hc := hs c rfl
        simp only [List.mem_cons, List.not_mem_nil, or_false] at hmem
        rcases hmem with rfl | rfl <;> exact absurd hc (by decide)
  · rintro ⟨a, c, b, rfl, ha, hc⟩
    obtain ⟨id, contents, hid, hcontents, rfl⟩ := hu.exists_parts hmatch
    refine ⟨"Object[".toList ++ id ++ ", \x7b".toList ++ (contents ++ ['\x7d', ']'] ++ a)
      ++ ['\x7d', ']'], c, b, by simp, by simp, ?_, hc⟩
    refine Kind.matches_memory.2 ⟨id, hid, .inr ⟨_, ?_, rfl⟩⟩
    simp only [List.mem_append]
    rintro ((hmem | hmem) | hmem)
    · exact hcontents hmem
    · exact absurd hmem (by decide)
    · exact ha hmem

theorem Token.not_extended {u : List Char} (h : Token u) : ¬ Extended u := by
  intro hext
  have hscan := h.scan_eq (c := ' ') (by decide) []
  rw [hext.scan_eq] at hscan
  exact h.ne_nil hscan.symm

/-- Tokens of which no object reaches into those behind it. -/
def Contained : List (List Char) → Prop
  | [] => True
  | u :: us => (Extended u → ¬ Swallows (Grammar.spaced us)) ∧ Contained us

namespace Grammar

/-- In front of a blank, only objects are written with contents. -/
theorem eq_memory_of_matches {k : Kind} (hk : k ∈ Kind.all) {u v rest more : List Char} {d : Char}
    (hu : Extended u) (hv : k.pattern.Matches v) (hd : Text.isBlank d = true)
    (h : u ++ rest = v ++ d :: more) : k = .memory ∧ Extended v := by
  rcases Kind.token_of_matches hk hv with htoken | hmemory
  · have hscan := htoken.scan_eq hd more
    rw [← h, hu.scan_eq] at hscan
    exact absurd hscan.symm htoken.ne_nil
  · exact hmemory

/-- **An object with contents in front of other tokens.** It is found, with at least its own length,
and it has this length exactly if it does not reach into what follows. -/
theorem tokenAt?_extended {u : List Char} (hu : Extended u)
    (hmatch : Kind.memory.pattern.Matches u) (rest : List Char) {c : Char}
    (hblank : Text.isBlank c = true) :
    ∃ n, core.tokenAt? (u ++ c :: rest) = ((core.entryOf? u).map fun e => (e, n)) ∧
      u.length ≤ n ∧ (n = u.length ↔ ¬ Swallows (c :: rest)) := by
  have hmem := (Pattern.length_mem_lengths (v := c :: rest)).2 hmatch
  have hsome : ((Kind.memory.pattern.lengths (u ++ c :: rest)).find?
      fun n => ((u ++ c :: rest).drop n).head?.any Text.isBlank).isSome := by
    rw [List.find?_isSome]
    exact ⟨_, hmem, by simp [hblank]⟩
  obtain ⟨n, hn⟩ := Option.isSome_iff_exists.1 hsome
  have hlongest := find?_of_pairwise (Pattern.greedy_memory _) hn
  have hown := hlongest _ hmem (by simp [hblank])
  refine ⟨n, findSome?_guarded fun e he => ?_, hown, ?_⟩
  · obtain ⟨k, hk, rfl⟩ := exists_kind_of_mem he
    change Option.map _ (List.find? _ (k.pattern.lengths _))
      = if k.pattern.matchesAll u then _ else _
    split
    case isTrue hall =>
      obtain ⟨rfl, -⟩ := eq_memory_of_matches hk hu (Pattern.matchesAll_iff.1 hall) hblank
        (Eq.refl (u ++ c :: rest))
      rw [hn]
      rfl
    case isFalse hall =>
      rw [Option.map_eq_none_iff, List.find?_eq_none]
      intro m hm hbehind
      obtain ⟨v, w, hs, rfl, hv⟩ := Pattern.split_of_mem_lengths hm
      rw [hs, List.drop_left] at hbehind
      cases w with
      | nil => simp at hbehind
      | cons d more =>
        obtain ⟨rfl, -⟩ := eq_memory_of_matches hk hu hv (by simpa using hbehind) hs
        exact hall (Pattern.matchesAll_iff.2 hmatch)
  · rw [← hu.reaches_iff hmatch (by simpa using hblank)]
    constructor
    · rintro rfl ⟨v, d, more, hs, hlt, hv, hd⟩
      have hmem := (Pattern.length_mem_lengths (v := d :: more)).2 hv
      rw [← hs] at hmem
      have hle := hlongest _ hmem (by simp [hs, hd])
      omega
    · intro hnone
      by_contra hne
      have hmem := List.mem_of_find?_eq_some hn
      have hbehind := List.find?_some hn
      obtain ⟨v, w, hs, rfl, hv⟩ := Pattern.split_of_mem_lengths hmem
      rw [hs, List.drop_left] at hbehind
      cases w with
      | nil => simp at hbehind
      | cons d more =>
        exact hnone ⟨v, d, more, hs, Nat.lt_of_le_of_ne hown (Ne.symm hne), hv,
          by simpa using hbehind⟩

/-- The first token of a list is found with at least its own length, and with this length exactly if
it is no object that reaches into the others. -/
theorem tokenAt?_spaced {u : List Char} (hu : ∃ k ∈ Kind.all, k.pattern.Matches u)
    (rest : List Char) :
    ∃ n, core.tokenAt? (u ++ ' ' :: rest) = ((core.entryOf? u).map fun e => (e, n)) ∧
      u.length ≤ n ∧ (n = u.length ↔ (Extended u → ¬ Swallows rest)) := by
  obtain ⟨k, hk, hmatch⟩ := hu
  rcases Kind.token_of_matches hk hmatch with htoken | ⟨rfl, hext⟩
  · refine ⟨u.length, tokenAt?_append rest htoken (by decide), Nat.le_refl _, ?_⟩
    simp [htoken.not_extended]
  · obtain ⟨n, hn, hle, hiff⟩ := tokenAt?_extended hext hmatch rest (c := ' ') (by decide)
    exact ⟨n, hn, hle, by simpa [hext, swallows_space] using hiff⟩

theorem apart_of_contained {us : List (List Char)}
    (h : ∀ u ∈ us, ∃ k ∈ Kind.all, k.pattern.Matches u) (hus : Contained us) :
    Apart (us.map (·, [' '])) := by
  induction us with
  | nil => trivial
  | cons u us ih =>
    obtain ⟨n, hn, -, hiff⟩ := tokenAt?_spaced (h u List.mem_cons_self) (spaced us)
    obtain rfl := hiff.2 hus.1
    refine ⟨?_, ih (fun v hv => h v (List.mem_cons_of_mem u hv)) hus.2⟩
    rw [gapped_cons, ← spaced_eq_gapped]
    exact hn

/-- The texts of the tokens that are found in a text. -/
def tokenTexts (g : Grammar) (s : List Char) : List (List Char) :=
  (g.tokens ((padded s).length + 1) (padded s)).map Prod.snd

/-- **The tokens of a list are found again exactly if none reaches into those behind it.** -/
theorem texts_spaced {us : List (List Char)} (h : ∀ u ∈ us, ∃ k ∈ Kind.all, k.pattern.Matches u)
    {fuel : Nat} (hfuel : us.length < fuel) :
    (core.tokens fuel (spaced us)).map Prod.snd = us ↔ Contained us := by
  constructor
  · intro hfound
    induction us generalizing fuel with
    | nil => trivial
    | cons u us ih =>
      obtain ⟨fuel, rfl⟩ := Nat.exists_eq_add_one.2 (Nat.zero_lt_of_lt hfuel)
      have hus : ∀ u ∈ us, ∃ k ∈ Kind.all, k.pattern.Matches u :=
        fun v hv => h v (List.mem_cons_of_mem u hv)
      obtain ⟨k, hk, hmatch, he⟩ := exists_entryOf? (h u List.mem_cons_self)
      obtain ⟨n, hn, hle, hiff⟩ := tokenAt?_spaced (h u List.mem_cons_self) (spaced us)
      rw [he] at hn
      rw [spaced_cons, tokens_of_tokenAt? (by simp) hn, List.map_cons] at hfound
      obtain ⟨hfirst, hmore⟩ := List.cons.inj hfound
      obtain rfl : n = u.length := by
        have hlen := congrArg List.length hfirst
        simp only [List.length_take, List.length_append, List.length_cons] at hlen
        omega
      rw [List.drop_left, dropBlanks_space_spaced hus] at hmore
      exact ⟨hiff.1 rfl, ih hus (by simpa using hfuel) hmore⟩
  · intro hus
    have htokens := congrArg (List.map Prod.snd)
      (tokens_spaced h (apart_of_contained h hus) hfuel)
    rw [List.map_map, List.map_map] at htokens
    exact htokens.trans (List.map_id us)

/-! ## Joined tokens -/

theorem exists_kind_of_isSome {u : List Char} (h : (core.entryOf? u).isSome = true) :
    ∃ k ∈ Kind.all, k.pattern.Matches u := by
  obtain ⟨e, he, hall⟩ := List.find?_isSome.1 h
  obtain ⟨k, hk, rfl⟩ := exists_kind_of_mem he
  exact ⟨k, hk, Pattern.matchesAll_iff.1 hall⟩

/-- What is read of joined tokens: the tokens with a blank behind each, or a single blank. -/
theorem padded_joined {us : List (List Char)} (h : ∀ u ∈ us, ∃ k ∈ Kind.all, k.pattern.Matches u) :
    padded ([' '].intercalate us) = if us = [] then [' '] else spaced us := by
  split
  case isTrue hnil =>
    subst hnil
    decide
  case isFalse hne =>
    have hpadded := padded_intercalate h hne (List.forall_mem_nil _) (List.forall_mem_nil _)
    rwa [List.nil_append, List.append_nil] at hpadded

theorem tokenTexts_joined {us : List (List Char)}
    (h : ∀ u ∈ us, ∃ k ∈ Kind.all, k.pattern.Matches u) :
    core.tokenTexts ([' '].intercalate us) = us ↔ Contained us := by
  rw [tokenTexts, padded_joined h]
  split
  case isTrue hnil =>
    subst hnil
    simp [tokens_blank, Contained]
  case isFalse _ => exact texts_spaced h (Nat.lt_succ_of_le (length_le_spaced us))

theorem literals_joined {us : List (List Char)}
    (h : ∀ u ∈ us, ∃ k ∈ Kind.all, k.pattern.Matches u) (hus : Contained us) :
    core.literals ([' '].intercalate us) = us.map fun u => core.literal (String.ofList u) := by
  have hpadded := padded_joined h
  split at hpadded
  case isTrue hnil =>
    subst hnil
    rw [literals, hpadded, tokens_blank]
    rfl
  case isFalse _ =>
    rw [spaced_eq_gapped] at hpadded
    have hread := literals_of_padded (isTokenPart_spaced h) (apart_of_contained h hus) hpadded
    rwa [List.map_map] at hread

/-- **Joined tokens are a block list.** -/
theorem isBlockList_joined {us : List (List Char)}
    (h : ∀ u ∈ us, ∃ k ∈ Kind.all, k.pattern.Matches u) :
    core.isBlockList ([' '].intercalate us) = true := by
  rw [isBlockList, padded_joined h, Pattern.matchesAll_iff]
  split
  case isTrue _ => exact ⟨[' '], [], rfl, matches_blanks.2 isBlank_space, .nil⟩
  case isFalse _ => exact ⟨[], spaced us, rfl, .nil, tokenList_spaced h⟩

end Grammar

/-! ## Reading joined tokens -/

/-- Two blocks, each with the store that it was made in, that say the same: they are made of one
literal. Random blocks agree in kind and range. -/
def SaysSame (l : Localizer) (x y : Block × Store) : Prop :=
  ∃ lit, Made l x.2.heap lit x.1 ∧ Made l y.2.heap lit y.1

theorem saysSame_of_made {l : Localizer} {lit : Literal} {b : Block} {st : Store}
    (hb : Made l st.heap lit b) (st₀ : Store) : SaysSame l (b, st) (lit.make l st₀) :=
  ⟨lit, hb, Literal.make_made lit st₀ fun _ _ _ => rfl⟩

namespace Workspace

open Grammar (core)

/-- **Block lists against single tokens.** Texts that are tokens by themselves, joined with blanks,
are accepted as a block list. Each of them is found as one token exactly if no object with contents
reaches into what is behind it, and then the list is read as its tokens are read one by one. -/
theorem parseBlocks_joined (l : Localizer) (ws : Workspace) (st : Store) {ts : List String}
    (h : ∀ t ∈ ts, (core.entryOf? t.toList).isSome = true) :
    (∃ r, parseBlocks core l ws (" ".intercalate ts) st = .ok r) ∧
      (core.tokenTexts (" ".intercalate ts).toList = ts.map String.toList
        ↔ Contained (ts.map String.toList)) ∧
      (Contained (ts.map String.toList) → ∃ blocks st',
        parseBlocks core l ws (" ".intercalate ts) st
            = .ok (blocks.map (ws.resolve st'.heap), st') ∧
          List.Forall₂ (fun t b => ∀ st₀, SaysSame l (b, st') ((Environment.mk l core).block t st₀))
            ts blocks) := by
  have hknown : ∀ u ∈ ts.map String.toList, ∃ k ∈ Kind.all, k.pattern.Matches u := by
    intro u hu
    obtain ⟨t, ht, rfl⟩ := List.mem_map.1 hu
    exact Grammar.exists_kind_of_isSome (h t ht)
  have htext : (" ".intercalate ts).toList = [' '].intercalate (ts.map String.toList) :=
    String.toList_intercalate
  have hread : parseBlocks core l ws (" ".intercalate ts) st
      = .ok ((Literal.makeAll l (core.literals (" ".intercalate ts).toList) st).1.map (ws.resolve
          (Literal.makeAll l (core.literals (" ".intercalate ts).toList) st).2.heap),
        (Literal.makeAll l (core.literals (" ".intercalate ts).toList) st).2) := by
    have hlist := Grammar.isBlockList_joined hknown
    rw [← htext] at hlist
    rw [parseBlocks, Grammar.blockList?, if_pos hlist]
  refine ⟨⟨_, hread⟩, htext ▸ Grammar.tokenTexts_joined hknown, fun hcontained => ?_⟩
  refine ⟨_, _, hread, ?_⟩
  have hliterals : core.literals (" ".intercalate ts).toList = ts.map core.literal := by
    rw [htext, Grammar.literals_joined hknown hcontained, List.map_map]
    refine List.map_congr_left fun t _ => ?_
    rw [Function.comp_apply, String.ofList_toList]
  rw [hliterals]
  have hmade := Literal.makeAll_made (l := l)
    (h := (Literal.makeAll l (ts.map core.literal) st).2.heap) (ts.map core.literal) st
    fun _ _ _ => rfl
  rw [List.forall₂_map_left_iff] at hmade
  exact hmade.imp fun t b hb st₀ => saysSame_of_made hb st₀

/-- Behind an object with contents, a text in quotes is read as it is and a second object is lost. -/
theorem parseBlocks_joined_objects :
    (∃ blocks st', parseBlocks core Localizer.plain empty
          (" ".intercalate ["Object[a, \x7b\x7d]", "\"x y\""]) (Store.ofSeed 0)
        = .ok (blocks.map (empty.resolve st'.heap), st') ∧
      List.Forall₂ (fun t b => ∀ st₀, SaysSame Localizer.plain (b, st')
          ((Environment.mk Localizer.plain core).block t st₀))
        ["Object[a, \x7b\x7d]", "\"x y\""] blocks) ∧
      core.tokenTexts (" ".intercalate ["Object[a, \x7b\x7d]", "Object[b, \x7b\x7d]"]).toList
        ≠ ["Object[a, \x7b\x7d]", "Object[b, \x7b\x7d]"].map String.toList := by
  have hknown : ∀ t ∈ ["Object[a, \x7b\x7d]", "\"x y\""],
      (core.entryOf? t.toList).isSome = true := by
    decide +kernel
  have hobjects : ∀ t ∈ ["Object[a, \x7b\x7d]", "Object[b, \x7b\x7d]"],
      (core.entryOf? t.toList).isSome = true := by
    decide +kernel
  have hread := parseBlocks_joined Localizer.plain empty (Store.ofSeed 0) hknown
  have hlost := parseBlocks_joined Localizer.plain empty (Store.ofSeed 0) hobjects
  have hext : Extended "Object[a, \x7b\x7d]".toList :=
    ⟨['a'], " \x7b\x7d]".toList, by decide, by decide⟩
  refine ⟨hread.2.2 ⟨?_, fun hquoted => ?_, trivial⟩, fun hfound => ?_⟩
  · rintro - ⟨a, c, b, hrest, -⟩
    have hmem : '\x7d' ∈ Grammar.spaced (["\"x y\""].map String.toList) := by
      rw [hrest]
      simp
    exact absurd hmem (by decide)
  · obtain ⟨id, contents, hword, -⟩ := hquoted
    exact absurd (List.cons.inj hword).1 (by decide)
  · refine (hlost.2.1.1 hfound).1 hext ⟨"Object[b, \x7b".toList, ' ', [], ?_, ?_, ?_⟩ <;> decide

end Workspace

end BlockMachine
