import BlockMachine.Grammar
import BlockMachine.Proofs.Grammar.TokenShape

/-!
# Lists of tokens

Tokens that are read alone are also read in a list: written one behind the other with a blank behind
each, they are found again one by one, each of the kind that it has alone.

* `Readable` — a token of some built-in kind;
* `Grammar.tokenAt?_append` — the first token of a text, and its kind;
* `gapped` — words with blanks behind each, `spaced` — with one blank behind each;
* `Grammar.literals_gapped` — reading tokens with blanks between them;
* `Grammar.tokenList_unique` — the tokens in front of a closing brace are found in one way only.
-/

namespace BlockMachine

/-- A token that is read as a block of some built-in kind. -/
structure Readable (u : List Char) : Prop where
  token : Token u
  known : ∃ k ∈ Kind.all, k.pattern.Matches u

namespace Grammar

/-! ## The first token -/

theorem exists_kind_of_mem {e : Entry} (h : e ∈ core.entries) :
    ∃ k ∈ Kind.all, coreEntry k = e :=
  List.mem_map.1 h

/-- Of the lengths with a blank behind them, a kind has that of the first token or none. -/
theorem find?_lengths {k : Kind} (hk : k ∈ Kind.all) {u : List Char} (rest : List Char) {c : Char}
    (hu : Token u) (hc : Text.isBlank c = true) :
    ((k.pattern.lengths (u ++ c :: rest)).find?
        fun n => ((u ++ c :: rest).drop n).head?.any Text.isBlank)
      = if k.pattern.matchesAll u then some u.length else none := by
  have honly : ∀ n ∈ k.pattern.lengths (u ++ c :: rest),
      ((u ++ c :: rest).drop n).head?.any Text.isBlank = true →
        n = u.length ∧ k.pattern.Matches u := by
    intro n hn hblank
    obtain ⟨v, w, hs, rfl, hv⟩ := Pattern.split_of_mem_lengths hn
    rw [hs, List.drop_left] at hblank
    cases w with
    | nil => simp at hblank
    | cons d more =>
      obtain rfl := hu.eq_of_matches hk hc hv (by simpa using hblank) hs
      exact ⟨rfl, hv⟩
  split
  case isTrue hall =>
    have hmem := (Pattern.length_mem_lengths (v := c :: rest)).2 (Pattern.matchesAll_iff.1 hall)
    cases hfind : List.find? _ _ with
    | none =>
      have := List.find?_eq_none.1 hfind _ hmem
      simp [hc] at this
    | some n =>
      have hblank := List.find?_some hfind
      rw [(honly n (List.mem_of_find?_eq_some hfind) hblank).1]
  case isFalse hall =>
    rw [List.find?_eq_none]
    intro n hn hblank
    exact hall (Pattern.matchesAll_iff.2 (honly n hn hblank).2)

theorem findSome?_guarded {α β : Type} {f : α → Option β} {test : α → Bool} {g : α → β}
    {xs : List α} (h : ∀ x ∈ xs, f x = if test x then some (g x) else none) :
    xs.findSome? f = (xs.find? test).map g := by
  induction xs with
  | nil => rfl
  | cons x xs ih =>
    have hxs := ih fun y hy => h y (List.mem_cons_of_mem x hy)
    rw [List.findSome?_cons, h x List.mem_cons_self, List.find?_cons]
    cases htest : test x with
    | true => rfl
    | false => simpa using hxs

/-- **The first token.** A token with a blank behind it is found as a whole, and it is of the kind
that it has alone. -/
theorem tokenAt?_append {u : List Char} (rest : List Char) {c : Char} (hu : Token u)
    (hc : Text.isBlank c = true) :
    core.tokenAt? (u ++ c :: rest) = (core.entryOf? u).map fun e => (e, u.length) := by
  refine findSome?_guarded fun e he => ?_
  obtain ⟨k, hk, rfl⟩ := exists_kind_of_mem he
  have hfind := find?_lengths hk rest hu hc
  change Option.map _ (List.find? _ (k.pattern.lengths _)) = if k.pattern.matchesAll u then _ else _
  rw [hfind]
  split <;> rfl

/-- A token is read as what the first of its kinds makes of it. -/
theorem exists_entryOf? {u : List Char} (hu : ∃ k ∈ Kind.all, k.pattern.Matches u) :
    ∃ k ∈ Kind.all, k.pattern.Matches u ∧ core.entryOf? u = some (coreEntry k) := by
  obtain ⟨k, hk, hmatch⟩ := hu
  have hsome : (core.entryOf? u).isSome := by
    rw [entryOf?, List.find?_isSome]
    exact ⟨coreEntry k, List.mem_map_of_mem hk, Pattern.matchesAll_iff.2 hmatch⟩
  obtain ⟨e, he⟩ := Option.isSome_iff_exists.1 hsome
  obtain ⟨k', hk', rfl⟩ := exists_kind_of_mem (List.mem_of_find?_eq_some he)
  have hall := List.find?_some he
  exact ⟨k', hk', Pattern.matchesAll_iff.1 hall, he⟩

theorem tokenAt?_blank {c : Char} {rest : List Char} (hc : Text.isBlank c = true) :
    core.tokenAt? (c :: rest) = none := by
  rw [tokenAt?, List.findSome?_eq_none_iff]
  intro e he
  obtain ⟨k, hk, rfl⟩ := exists_kind_of_mem he
  rw [Option.map_eq_none_iff, List.find?_eq_none]
  intro n hn
  obtain ⟨u, v, hs, -, hu⟩ := Pattern.split_of_mem_lengths hn
  obtain ⟨d, w, rfl, hd, -⟩ := Kind.head_of_matches hk hu
  obtain ⟨rfl, -⟩ := List.cons.inj hs
  rw [hc] at hd
  cases hd

/-! ## What a token says -/

/-- Only packages look at what is inside. -/
theorem ofToken_congr {k : Kind} (hk : k ∈ Kind.all) {inner inner' : List Char → Literal}
    {s : List Char} (h : inner (Literal.between 1 1 s) = inner' (Literal.between 1 1 s)) :
    Literal.ofToken inner k s = Literal.ofToken inner' k s := by
  cases k with
  | extension id => cases Kind.not_nullable _ hk
  | package => simp only [Literal.ofToken, h]
  | _ => rfl

theorem length_between {c : Char} {s : List Char} :
    (Literal.between 1 1 (c :: s)).length ≤ s.length := by
  simp only [Literal.between, List.length_drop, List.length_take, List.length_cons]
  omega

theorem between_append (front inside back : List Char) :
    Literal.between front.length back.length (front ++ inside ++ back) = inside := by
  have hlen : (front ++ inside ++ back).length - back.length = (front ++ inside).length := by
    rw [List.length_append, Nat.add_sub_cancel]
  rw [Literal.between, hlen, List.take_left, List.drop_left]

/-- The depth of packages does not matter, once it exceeds the length of the text. -/
theorem literalAt_eq {d d' : Nat} {s : List Char} (hd : s.length < d) (hd' : s.length < d') :
    core.literalAt d s = core.literalAt d' s := by
  induction d generalizing d' s with
  | zero => omega
  | succ d ih =>
    obtain ⟨d', rfl⟩ := Nat.exists_eq_add_one.2 (Nat.zero_lt_of_lt hd')
    simp only [literalAt]
    cases he : core.entryOf? s with
    | none => rfl
    | some e =>
      obtain ⟨k, hk, rfl⟩ := exists_kind_of_mem (List.mem_of_find?_eq_some he)
      have hall := List.find?_some he
      obtain ⟨c, v, rfl, -⟩ := Kind.head_of_matches hk (Pattern.matchesAll_iff.1 hall)
      simp only [List.length_cons] at hd hd'
      have hlen := length_between (c := c) (s := v)
      exact ofToken_congr hk (ih (by omega) (by omega))

/-- What a token in a list says is what it says alone. -/
theorem content_eq_literal {u : List Char} {k : Kind} (hk : k ∈ Kind.all)
    (hmatch : k.pattern.Matches u) (he : core.entryOf? u = some (coreEntry k)) :
    core.content (coreEntry k) u = core.literal (String.ofList u) := by
  obtain ⟨c, v, rfl, -⟩ := Kind.head_of_matches hk hmatch
  have hlen := length_between (c := c) (s := v)
  simp only [literal, String.toList_ofList, String.length_ofList, literalAt, he]
  refine ofToken_congr hk (literalAt_eq ?_ ?_)
  · simp only [List.length_cons]
    omega
  · simp only [List.length_cons]
    omega

/-! ## Tokens one behind the other -/

/-- Some blanks. -/
def IsGap (b : List Char) : Prop :=
  b ≠ [] ∧ ∀ c ∈ b, Text.isBlank c = true

-- A gap is checked character by character, and not by going through all characters there are.
instance (b : List Char) : Decidable (IsGap b) :=
  decidable_of_iff ((!b.isEmpty && b.all Text.isBlank) = true) (by simp [IsGap])

/-- Words, each followed by its gap. -/
def gapped (ws : List (List Char × List Char)) : List Char :=
  ws.flatMap fun w => w.1 ++ w.2

@[simp] theorem gapped_nil : gapped [] = [] := rfl

@[simp] theorem gapped_cons (w : List Char × List Char) (ws : List (List Char × List Char)) :
    gapped (w :: ws) = w.1 ++ (w.2 ++ gapped ws) := by
  simp [gapped]

/-- Tokens with a blank behind each. -/
def spaced (us : List (List Char)) : List Char :=
  us.flatMap (· ++ [' '])

theorem isBlank_space : ∀ c ∈ [' '], Text.isBlank c = true :=
  List.all_eq_true.1 rfl

theorem isGap_space : IsGap [' '] :=
  ⟨List.cons_ne_nil _ _, isBlank_space⟩

@[simp] theorem spaced_nil : spaced [] = [] := rfl

@[simp] theorem spaced_cons (u : List Char) (us : List (List Char)) :
    spaced (u :: us) = u ++ ' ' :: spaced us := by
  simp [spaced]

theorem spaced_eq_gapped (us : List (List Char)) : spaced us = gapped (us.map (·, [' '])) := by
  simp [spaced, gapped, List.flatMap_map]

/-- A token of a built-in kind, with blanks behind it. -/
def IsTokenPart (w : List Char × List Char) : Prop :=
  (∃ k ∈ Kind.all, k.pattern.Matches w.1) ∧ IsGap w.2

theorem isTokenPart_spaced {us : List (List Char)}
    (h : ∀ u ∈ us, ∃ k ∈ Kind.all, k.pattern.Matches u) : ∀ w ∈ us.map (·, [' ']), IsTokenPart w := by
  intro w hw
  obtain ⟨u, hu, rfl⟩ := List.mem_map.1 hw
  exact ⟨h u hu, isGap_space⟩

/-- Tokens begin with no blank. -/
theorem isBlank_head_gapped {ws : List (List Char × List Char)} (h : ∀ w ∈ ws, IsTokenPart w) :
    ∀ c ∈ (gapped ws).head?, Text.isBlank c = false := by
  cases ws with
  | nil => simp
  | cons w ws =>
    obtain ⟨k, hk, hmatch⟩ := (h w List.mem_cons_self).1
    obtain ⟨c, v, hu, hc, -⟩ := Kind.head_of_matches hk hmatch
    simpa [hu] using hc

theorem dropBlanks_gapped {b : List Char} {ws : List (List Char × List Char)}
    (hb : ∀ c ∈ b, Text.isBlank c = true) (h : ∀ w ∈ ws, IsTokenPart w) :
    Text.dropBlanks (b ++ gapped ws) = gapped ws := by
  rw [Text.dropBlanks, List.dropWhile_append_of_pos hb]
  have hhead := isBlank_head_gapped h
  cases hs : gapped ws with
  | nil => rfl
  | cons c s =>
    rw [hs] at hhead
    exact List.dropWhile_cons_of_neg (by simp [hhead c rfl])

theorem dropBlanks_space_spaced {us : List (List Char)}
    (h : ∀ u ∈ us, ∃ k ∈ Kind.all, k.pattern.Matches u) :
    Text.dropBlanks (' ' :: spaced us) = spaced us := by
  rw [spaced_eq_gapped]
  exact dropBlanks_gapped isBlank_space (isTokenPart_spaced h)

theorem length_le_gapped {ws : List (List Char × List Char)} (h : ∀ w ∈ ws, w.2 ≠ []) :
    ws.length ≤ (gapped ws).length := by
  induction ws with
  | nil => exact Nat.zero_le _
  | cons w ws ih =>
    have hfirst := List.length_pos_iff.2 (h w List.mem_cons_self)
    have hrest := ih fun v hv => h v (List.mem_cons_of_mem w hv)
    simp only [gapped_cons, List.length_cons, List.length_append]
    omega

theorem length_le_spaced (us : List (List Char)) : us.length ≤ (spaced us).length := by
  have hgaps : ∀ w ∈ us.map (·, [' ']), w.2 ≠ [] := by simp
  have hlen := length_le_gapped hgaps
  rwa [List.length_map, ← spaced_eq_gapped] at hlen

theorem tokens_of_tokenAt? {g : Grammar} {s : List Char} {e : Entry} {n fuel : Nat} (hs : s ≠ [])
    (h : g.tokenAt? s = some (e, n)) :
    g.tokens (fuel + 1) s = (e, s.take n) :: g.tokens fuel (Text.dropBlanks (s.drop n)) := by
  obtain ⟨c, rest, rfl⟩ := List.exists_cons_of_ne_nil hs
  rw [tokens, h]

/-- Tokens of which each is found as a whole in front of those behind it. -/
def Apart : List (List Char × List Char) → Prop
  | [] => True
  | w :: ws =>
    (core.tokenAt? (gapped (w :: ws)) = (core.entryOf? w.1).map fun e => (e, w.1.length)) ∧
      Apart ws

theorem apart_of_readable {ws : List (List Char × List Char)}
    (h : ∀ w ∈ ws, Readable w.1 ∧ IsGap w.2) : Apart ws := by
  induction ws with
  | nil => trivial
  | cons w ws ih =>
    obtain ⟨u, gap⟩ := w
    obtain ⟨hu, hne, hblank⟩ := h _ List.mem_cons_self
    obtain ⟨c, gap, rfl⟩ := List.exists_cons_of_ne_nil hne
    refine ⟨?_, ih fun v hv => h v (List.mem_cons_of_mem _ hv)⟩
    rw [gapped_cons]
    exact tokenAt?_append (gap ++ gapped ws) hu.token (hblank c List.mem_cons_self)

/-- The tokens of such a text say what they say alone. -/
theorem tokens_gapped {ws : List (List Char × List Char)} (h : ∀ w ∈ ws, IsTokenPart w)
    (hapart : Apart ws) {fuel : Nat} (hfuel : ws.length < fuel) :
    ((core.tokens fuel (gapped ws)).map fun (e, t) => (core.content e t, t))
      = ws.map fun w => (core.literal (String.ofList w.1), w.1) := by
  induction ws generalizing fuel with
  | nil =>
    obtain ⟨fuel, rfl⟩ := Nat.exists_eq_add_one.2 hfuel
    rfl
  | cons w ws ih =>
    obtain ⟨fuel, rfl⟩ := Nat.exists_eq_add_one.2 (Nat.zero_lt_of_lt hfuel)
    obtain ⟨hfirst, hapart⟩ := hapart
    have hws : ∀ w ∈ ws, IsTokenPart w := fun v hv => h v (List.mem_cons_of_mem w hv)
    obtain ⟨hknown, hne, hblank⟩ := h w List.mem_cons_self
    obtain ⟨k, hk, hmatch, he⟩ := exists_entryOf? hknown
    rw [he] at hfirst
    rw [tokens_of_tokenAt? (by simp [hne]) hfirst, gapped_cons, List.take_left, List.drop_left,
      dropBlanks_gapped hblank hws, List.map_cons, List.map_cons,
      ih hws hapart (by simpa using hfuel)]
    exact congrArg (fun x => (x, w.1) :: _) (content_eq_literal hk hmatch he)

theorem tokens_spaced {us : List (List Char)} (h : ∀ u ∈ us, ∃ k ∈ Kind.all, k.pattern.Matches u)
    (hapart : Apart (us.map (·, [' ']))) {fuel : Nat} (hfuel : us.length < fuel) :
    ((core.tokens fuel (spaced us)).map fun (e, t) => (core.content e t, t))
      = us.map fun u => (core.literal (String.ofList u), u) := by
  have htokens := tokens_gapped (isTokenPart_spaced h) hapart (by simpa using hfuel)
  rwa [← spaced_eq_gapped, List.map_map] at htokens

/-- The blank behind the last token is all that tells this from joining the tokens with blanks. -/
theorem spaced_eq {us : List (List Char)} (hne : us ≠ []) :
    spaced us = [' '].intercalate us ++ [' '] := by
  induction us with
  | nil => cases hne rfl
  | cons u us ih =>
    cases us with
    | nil => simp
    | cons v us => simpa using ih (by simp)

theorem trim_eq {front s back : List Char} (hfront : ∀ c ∈ front, Text.isBlank c = true)
    (hback : ∀ c ∈ back, Text.isBlank c = true) (hhead : ∃ c t, s = c :: t ∧ Text.isBlank c = false)
    (hlast : ∃ t c, s = t ++ [c] ∧ Text.isBlank c = false) :
    Text.trim (front ++ (s ++ back)) = s := by
  have hback : ∀ c ∈ back.reverse, Text.isBlank c = true := fun c hc => hback c (by simpa using hc)
  have hdrop : Text.dropBlanks (front ++ (s ++ back)) = s ++ back := by
    obtain ⟨c, t, rfl, hc⟩ := hhead
    rw [Text.dropBlanks, List.dropWhile_append_of_pos hfront]
    simp [hc]
  obtain ⟨t, c, rfl, hc⟩ := hlast
  rw [Text.trim, hdrop, List.reverse_append, Text.dropBlanks, List.dropWhile_append_of_pos hback]
  simp [hc]

/-- Blanks around the tokens do not count. -/
theorem padded_intercalate {us : List (List Char)}
    (h : ∀ u ∈ us, ∃ k ∈ Kind.all, k.pattern.Matches u) (hne : us ≠ []) {front back : List Char}
    (hfront : ∀ c ∈ front, Text.isBlank c = true) (hback : ∀ c ∈ back, Text.isBlank c = true) :
    padded (front ++ ([' '].intercalate us ++ back)) = spaced us := by
  have hhead : ∃ c t, [' '].intercalate us = c :: t ∧ Text.isBlank c = false := by
    obtain ⟨u, vs, rfl⟩ := List.exists_cons_of_ne_nil hne
    obtain ⟨k, hk, hmatch⟩ := h u List.mem_cons_self
    obtain ⟨c, v, rfl, hc, -⟩ := Kind.head_of_matches hk hmatch
    cases vs with
    | nil => exact ⟨c, v, by simp, hc⟩
    | cons w vs => exact ⟨c, v ++ ' ' :: [' '].intercalate (w :: vs), by simp, hc⟩
  have hlast : ∃ t c, [' '].intercalate us = t ++ [c] ∧ Text.isBlank c = false := by
    obtain ⟨vs, u, rfl⟩ : ∃ vs u, us = vs ++ [u] :=
      ⟨us.dropLast, us.getLast hne, (List.dropLast_concat_getLast hne).symm⟩
    obtain ⟨k, hk, hmatch⟩ := h u (by simp)
    obtain ⟨w, c, rfl, hc⟩ := Kind.last_of_matches hk hmatch
    refine ⟨spaced vs ++ w, c, List.append_cancel_right ((spaced_eq hne).symm.trans ?_), hc⟩
    simp [spaced]
  rw [padded, trim_eq hfront hback hhead hlast, spaced_eq hne]

/-- Of the last gap one blank is left, and nothing of the blanks in front. -/
theorem padded_gapped {ws : List (List Char × List Char)} {u gap front : List Char}
    (h : ∀ w ∈ ws ++ [(u, gap)], IsTokenPart w) (hfront : ∀ c ∈ front, Text.isBlank c = true) :
    padded (front ++ gapped (ws ++ [(u, gap)])) = gapped (ws ++ [(u, [' '])]) := by
  obtain ⟨⟨k, hk, hmatch⟩, -, hblank⟩ := h (u, gap) (by simp)
  have hall : gapped (ws ++ [(u, gap)]) = (gapped ws ++ u) ++ gap := by simp [gapped]
  have hhead : ∃ c t, gapped ws ++ u = c :: t ∧ Text.isBlank c = false := by
    obtain ⟨c, v, hu, hc, -⟩ := Kind.head_of_matches hk hmatch
    have hws : ∀ w ∈ ws, IsTokenPart w := fun w hw => h w (List.mem_append_left _ hw)
    have hfirst := isBlank_head_gapped hws
    cases hs : gapped ws with
    | nil => exact ⟨c, v, hu, hc⟩
    | cons d s =>
      rw [hs] at hfirst
      exact ⟨d, s ++ u, rfl, hfirst d rfl⟩
  have hlast : ∃ t c, gapped ws ++ u = t ++ [c] ∧ Text.isBlank c = false := by
    obtain ⟨v, c, rfl, hc⟩ := Kind.last_of_matches hk hmatch
    exact ⟨gapped ws ++ v, c, by simp, hc⟩
  rw [padded, hall, trim_eq hfront hblank hhead hlast]
  simp [gapped]

/-- **A list of tokens is read token by token.** -/
theorem literals_of_padded {ws : List (List Char × List Char)} (h : ∀ w ∈ ws, IsTokenPart w)
    (hapart : Apart ws) {s : List Char} (hs : padded s = gapped ws) :
    core.literals s = ws.map fun w => core.literal (String.ofList w.1) := by
  have hlen := length_le_gapped fun w hw => (h w hw).2.1
  have htokens := congrArg (List.map Prod.fst)
    (tokens_gapped h hapart (Nat.lt_succ_of_le hlen))
  rw [List.map_map, List.map_map] at htokens
  rw [literals, hs]
  exact htokens

theorem tokens_blank (fuel : Nat) : core.tokens fuel [' '] = [] := by
  cases fuel with
  | zero => rfl
  | succ fuel =>
    rw [tokens, tokenAt?_blank (by decide)]
    cases fuel <;> rfl

theorem padded_blank {b : List Char} (h : ∀ c ∈ b, Text.isBlank c = true) : padded b = [' '] := by
  have hdrop : Text.dropBlanks b = [] := by
    rw [Text.dropBlanks, ← List.append_nil b, List.dropWhile_append_of_pos h]
    rfl
  rw [padded, Text.trim, hdrop]
  rfl

/-- **Tokens with blanks around them** are read one by one, whatever the blanks. -/
theorem literals_gapped {ws : List (List Char × List Char)}
    (h : ∀ w ∈ ws, Readable w.1 ∧ IsGap w.2) {front : List Char}
    (hfront : ∀ c ∈ front, Text.isBlank c = true) :
    core.literals (front ++ gapped ws) = ws.map fun w => core.literal (String.ofList w.1) := by
  rcases List.eq_nil_or_concat ws with rfl | ⟨ws, ⟨u, gap⟩, hconcat⟩
  · rw [gapped_nil, List.append_nil, literals, padded_blank hfront, tokens_blank]
    rfl
  · rw [List.concat_eq_append] at hconcat
    subst hconcat
    have hparts : ∀ w ∈ ws ++ [(u, gap)], IsTokenPart w := fun w hw => ⟨(h w hw).1.known, (h w hw).2⟩
    have hlast : ∀ w ∈ ws ++ [(u, [' '])], Readable w.1 ∧ IsGap w.2 := by
      intro w hw
      rcases List.mem_append.1 hw with hw | hw
      · exact h w (List.mem_append_left _ hw)
      · obtain rfl := List.mem_singleton.1 hw
        exact ⟨(h (u, gap) (by simp)).1, isGap_space⟩
    have hread := literals_of_padded (fun w hw => ⟨(hlast w hw).1.known, (hlast w hw).2⟩)
      (apart_of_readable hlast) (padded_gapped hparts hfront)
    simpa using hread

/-! ## Validation -/

theorem matches_oneOf {ps : List Pattern} (hne : ps ≠ []) {u : List Char} :
    (Pattern.oneOf ps).Matches u ↔ ∃ p ∈ ps, p.Matches u := by
  induction ps with
  | nil => cases hne rfl
  | cons p ps ih =>
    cases ps with
    | nil => simp [Pattern.oneOf]
    | cons q ps =>
      have hps := ih (by simp)
      change p.Matches u ∨ (Pattern.oneOf (q :: ps)).Matches u ↔ _
      rw [hps]
      simp

theorem matches_anyToken {u : List Char} :
    core.anyToken.Matches u ↔ ∃ k ∈ Kind.all, k.pattern.Matches u := by
  rw [anyToken, matches_oneOf (by simp [core, Kind.all])]
  constructor
  · rintro ⟨p, hp, hmatch⟩
    obtain ⟨e, he, rfl⟩ := List.mem_map.1 hp
    obtain ⟨k, hk, rfl⟩ := exists_kind_of_mem he
    exact ⟨k, hk, hmatch⟩
  · rintro ⟨k, hk, hmatch⟩
    exact ⟨_, List.mem_map_of_mem (List.mem_map_of_mem hk), hmatch⟩

theorem matches_blanks {u : List Char} :
    (Pattern.star .blank).Matches u ↔ ∀ c ∈ u, Text.isBlank c = true := by
  simp [Pattern.blank, Pattern.matches_star_oneIn, ClassItem.accepts]

theorem matches_someBlanks {u : List Char} : (Pattern.plus .blank).Matches u ↔ IsGap u := by
  simp [Pattern.blank, Pattern.matches_plus_oneIn, ClassItem.accepts, IsGap]

/-- A repetition of two parts, one behind the other, is a list of pairs. -/
theorem matches_gapped {p q : Pattern} {v : List Char} :
    (Pattern.star (.group (.seq p q))).Matches v ↔
      ∃ ws, v = gapped ws ∧ ∀ w ∈ ws, p.Matches w.1 ∧ q.Matches w.2 := by
  constructor
  · intro h
    replace h : Pattern.Repeated _ v := h
    induction h with
    | nil => exact ⟨[], rfl, by simp⟩
    | cons part _ _ ih =>
      obtain ⟨u, b, rfl, hu, hb⟩ := part
      obtain ⟨ws, rfl, hws⟩ := ih
      exact ⟨(u, b) :: ws, by simp, List.forall_mem_cons.2 ⟨⟨hu, hb⟩, hws⟩⟩
  · rintro ⟨ws, rfl, h⟩
    induction ws with
    | nil => exact .nil
    | cons w ws ih =>
      obtain ⟨⟨hu, hb⟩, hws⟩ := List.forall_mem_cons.1 h
      rw [gapped_cons, ← List.append_assoc]
      exact Pattern.Repeated.prepend ⟨w.1, w.2, rfl, hu, hb⟩ (ih hws)

/-- Words with a blank behind each are a list of words with blanks behind them. -/
theorem matches_spaced {p : Pattern} {us : List (List Char)} (h : ∀ u ∈ us, p.Matches u) :
    (Pattern.star (.group (.seq p (.plus .blank)))).Matches (spaced us) := by
  refine matches_gapped.2 ⟨_, spaced_eq_gapped us, ?_⟩
  intro w hw
  obtain ⟨u, hu, rfl⟩ := List.mem_map.1 hw
  exact ⟨h u hu, matches_someBlanks.2 isGap_space⟩

theorem matches_tokenList {v : List Char} :
    core.tokenList.Matches v ↔ ∃ ws, v = gapped ws ∧ ∀ w ∈ ws, IsTokenPart w := by
  simp only [tokenList, matches_gapped, Pattern.matches_group, matches_anyToken,
    matches_someBlanks, IsTokenPart]

/-- Such a list begins with no blank, unless it is empty and a blank comes behind it. -/
theorem isBlank_head_words {p : Pattern} {v : List Char} {x : Char} (rest : List Char)
    (hv : (Pattern.star (.group (.seq p (.plus .blank)))).Matches v)
    (hp : ∀ u, p.Matches u → ∃ c w, u = c :: w ∧ Text.isBlank c = false)
    (hx : Text.isBlank x = false) : ∀ c ∈ (v ++ x :: rest).head?, Text.isBlank c = false := by
  cases hv with
  | nil => simpa using hx
  | cons part _ _ =>
    obtain ⟨u, b, rfl, hu, -⟩ := part
    obtain ⟨c, w, rfl, hc⟩ := hp u hu
    simpa using hc

theorem tokenList_spaced {us : List (List Char)}
    (h : ∀ u ∈ us, ∃ k ∈ Kind.all, k.pattern.Matches u) : core.tokenList.Matches (spaced us) :=
  matches_spaced fun u hu => matches_anyToken.2 (h u hu)

theorem isBlank_head_tokenList {v rest : List Char} (hv : core.tokenList.Matches v) :
    ∀ c ∈ (v ++ '\x7d' :: rest).head?, Text.isBlank c = false := by
  refine isBlank_head_words rest hv (fun u hu => ?_) (by decide)
  obtain ⟨k, hk, hmatch⟩ := matches_anyToken.1 hu
  obtain ⟨c, w, rfl, hc, -⟩ := Kind.head_of_matches hk hmatch
  exact ⟨c, w, rfl, hc⟩

/-- **One way to read a body.** Between the opening of a body and its closing brace there is only
one list of tokens. -/
theorem tokenList_unique {ws : List (List Char × List Char)}
    (h : ∀ w ∈ ws, Readable w.1 ∧ IsGap w.2) {v rest more : List Char}
    (hv : core.tokenList.Matches v)
    (hs : v ++ '\x7d' :: more = gapped ws ++ '\x7d' :: rest) : v = gapped ws := by
  obtain ⟨xs, rfl, hxs⟩ := matches_tokenList.1 hv
  clear hv
  -- no token begins with the closing brace
  have hbrace : ∀ {x : List Char × List Char} {s t : List Char}, IsTokenPart x →
      x.1 ++ s ≠ '\x7d' :: t := by
    rintro x s t ⟨⟨k, hk, hmatch⟩, -⟩ heq
    obtain ⟨c, w, hu, -, hc⟩ := Kind.head_of_matches hk hmatch
    rw [hu] at heq
    exact hc (List.cons.inj heq).1
  have hknown : ∀ w ∈ ws, IsTokenPart w := fun w hw => ⟨(h w hw).1.known, (h w hw).2⟩
  have hhead : ∀ {ys : List (List Char × List Char)} (t : List Char), (∀ y ∈ ys, IsTokenPart y) →
      ∀ c ∈ (gapped ys ++ '\x7d' :: t).head?, Text.isBlank c = false := by
    intro ys t hys
    cases ys with
    | nil => simpa using (by decide : Text.isBlank '\x7d' = false)
    | cons y ys =>
      obtain ⟨k, hk, hmatch⟩ := (hys y List.mem_cons_self).1
      obtain ⟨c, w, hu, hc, -⟩ := Kind.head_of_matches hk hmatch
      simpa [hu] using hc
  induction ws generalizing xs with
  | nil =>
    cases xs with
    | nil => rfl
    | cons x xs =>
      rw [gapped_cons, List.append_assoc] at hs
      exact absurd hs (hbrace (hxs x List.mem_cons_self))
  | cons w ws ih =>
    cases xs with
    | nil =>
      rw [gapped_cons, List.append_assoc] at hs
      exact absurd hs.symm (hbrace (hknown w List.mem_cons_self))
    | cons x xs =>
      obtain ⟨hw, hws⟩ := List.forall_mem_cons.1 h
      obtain ⟨hx, hxs'⟩ := List.forall_mem_cons.1 hxs
      obtain ⟨-, hknown'⟩ := List.forall_mem_cons.1 hknown
      obtain ⟨u, gap⟩ := w
      obtain ⟨t, b⟩ := x
      obtain ⟨⟨k, hk, hmatch⟩, hne, hb⟩ := hx
      obtain ⟨hu, hne', hgap⟩ := hw
      obtain ⟨c, b', rfl⟩ := List.exists_cons_of_ne_nil hne
      obtain ⟨d, gap', rfl⟩ := List.exists_cons_of_ne_nil hne'
      simp only [gapped_cons, List.append_assoc, List.cons_append] at hs
      obtain rfl := hu.token.eq_of_matches hk (hgap d List.mem_cons_self) hmatch
        (hb c List.mem_cons_self) hs.symm
      -- behind the blanks comes a token or the closing brace
      have hblanks : (c :: b') ++ (gapped xs ++ '\x7d' :: more)
          = (d :: gap') ++ (gapped ws ++ '\x7d' :: rest) := by
        simpa using List.append_cancel_left hs
      obtain ⟨hsame, hrest⟩ := front_unique hb (hhead more hxs') hgap (hhead rest hknown') hblanks
      rw [gapped_cons, gapped_cons, hsame, ih hws xs hxs' hrest hknown']

end Grammar

end BlockMachine
