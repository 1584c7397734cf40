import BlockMachine.Proofs.Grammar.BlockLists
import BlockMachine.Proofs.Grammar.RecordText

/-!
# What is tried first

A matcher goes on with the next part as soon as a part is found, and takes nothing back unless it
gets stuck. So if the first choice at every place leads to the end, what it finds is known, whatever
else could be found and whatever comes behind it. This is how the body of a record is found: each
token in it has one end, but for objects with contents, which end as late as the line allows.

* `Pattern.Prefers` — a front part that a pattern tries first, `Pattern.Straight` — repetitions
  whose first choices lead to the end;
* `Held` — tokens of which none reaches into what is behind it;
* `Grammar.prefers_tokenList` — such tokens are tried first, in front of a closing brace;
* `Grammar.bodyAt?_held` — the body that they make is found.
-/

namespace BlockMachine

/-- Taking out repetitions does not change what is found first. -/
theorem find?_eraseDups (test : Nat → Bool) :
    ∀ xs : List Nat, xs.eraseDups.find? test = xs.find? test
  | [] => rfl
  | x :: xs => by
    rw [List.eraseDups_cons, List.find?_cons, List.find?_cons]
    cases hx : test x with
    | true => rfl
    | false =>
      have hskip : (fun y => decide ((!y == x) = true ∧ test y = true)) = test := by
        funext y
        by_cases hy : y = x
        · simp [hy, hx]
        · simp [hy]
      have hrest := find?_eraseDups test (xs.filter fun y => !y == x)
      rw [hrest, List.find?_filter, hskip]
  termination_by xs => xs.length
  decreasing_by exact Nat.lt_succ_of_le (List.length_filter_le _ _)

theorem head?_eraseDups (xs : List Nat) : xs.eraseDups.head? = xs.head? := by
  cases xs with
  | nil => rfl
  | cons x xs => rw [List.eraseDups_cons, List.head?_cons, List.head?_cons]

namespace Pattern

/-! ## First choices -/

/-- What a pattern tries first in front of `rest`. -/
def Prefers (p : Pattern) (u rest : List Char) : Prop :=
  (p.lengths (u ++ rest)).head? = some u.length

section Prefers

variable {p q : Pattern} {u v rest : List Char}

theorem prefers_char (c : Char) (rest : List Char) : (Pattern.char c).Prefers [c] rest := by
  simp [Prefers, lengths, oneChar]

/-- Of the lengths of the first part, the first one that the second part can follow is taken. -/
theorem prefers_seq_of_find?
    (hp : (p.lengths (u ++ (v ++ rest))).find?
      (fun n => !(q.lengths ((u ++ (v ++ rest)).drop n)).isEmpty) = some u.length)
    (hq : q.Prefers v rest) : (Pattern.seq p q).Prefers (u ++ v) rest := by
  have hfirst : ((p.lengths (u ++ (v ++ rest))).findSome? fun n =>
        ((q.lengths ((u ++ (v ++ rest)).drop n)).map (n + ·)).head?)
      = ((p.lengths (u ++ (v ++ rest))).find? fun n =>
          !(q.lengths ((u ++ (v ++ rest)).drop n)).isEmpty).map fun n =>
        n + ((q.lengths ((u ++ (v ++ rest)).drop n)).head?).getD 0 := by
    refine Grammar.findSome?_guarded fun n _ => ?_
    cases q.lengths ((u ++ (v ++ rest)).drop n) <;> rfl
  rw [Prefers, lengths, seqLengths, List.append_assoc, head?_eraseDups, List.head?_flatMap, hfirst,
    hp, Option.map_some, List.drop_left, Option.mem_def.1 hq]
  simp

theorem Prefers.seq (hp : p.Prefers u (v ++ rest)) (hq : q.Prefers v rest) :
    (Pattern.seq p q).Prefers (u ++ v) rest := by
  refine prefers_seq_of_find? ?_ hq
  obtain ⟨ns, hns⟩ : ∃ ns, p.lengths (u ++ (v ++ rest)) = u.length :: ns :=
    List.head?_eq_some_iff.1 hp
  have hne : q.lengths (v ++ rest) ≠ [] := by
    intro hnil
    rw [Prefers, hnil] at hq
    cases hq
  rw [hns, List.find?_cons_of_pos]
  simp [hne]

/-- Alternatives are tried in order. -/
theorem find?_oneOf {ps : List Pattern} (hne : ps ≠ []) (test : Nat → Bool) (s : List Char) :
    ((oneOf ps).lengths s).find? test = ps.findSome? fun p => (p.lengths s).find? test := by
  induction ps with
  | nil => cases hne rfl
  | cons p ps ih =>
    cases ps with
    | nil => simp [oneOf]
    | cons q ps =>
      change ((p.lengths s ++ (oneOf (q :: ps)).lengths s).eraseDups).find? test = _
      rw [find?_eraseDups, List.find?_append, ih (by simp)]
      cases hp : (p.lengths s).find? test <;> simp [List.findSome?_cons, hp]

end Prefers

/-- Parts of which each is tried first by `step`, with nothing to be found behind the last one. -/
inductive Straight (step : List Char → List Nat) : (u rest : List Char) → Prop where
  | nil {rest : List Char} (stuck : step rest = []) : Straight step [] rest
  | cons {u v rest : List Char} (filled : u ≠ [])
      (first : (step (u ++ (v ++ rest))).head? = some u.length) (more : Straight step v rest) :
      Straight step (u ++ v) rest

theorem suffix_foldl {enter : List Nat → Nat → List Nat}
    (henter : ∀ found n, found <:+ enter found n) (ns found : List Nat) :
    found <:+ ns.foldl enter found := by
  induction ns generalizing found with
  | nil => exact List.suffix_refl _
  | cons n ns ih => exact (henter found n).trans (ih _)

/-- A search through repetitions keeps what was found before. -/
theorem suffix_repeatMost (step : List Char → List Nat) (fuel offset : Nat) (s : List Char)
    (found : List Nat) : found <:+ repeatMost step fuel offset s found := by
  induction fuel generalizing offset s found with
  | zero => exact List.suffix_refl _
  | succ fuel ih =>
    rw [repeatMost]
    split
    case isTrue _ => exact List.suffix_refl _
    case isFalse _ =>
      exact (suffix_foldl (fun found n => ih _ _ found) _ found).trans (List.suffix_cons _ _)

/-- What a straight search reaches last is what it found first. -/
theorem Straight.getLast?_repeatMost {step : List Char → List Nat} {u rest : List Char}
    (h : Straight step u rest) {fuel : Nat} (offset : Nat) (hfuel : u.length < fuel) :
    (repeatMost step fuel offset (u ++ rest) []).getLast? = some (offset + u.length) := by
  induction h generalizing fuel offset with
  | nil stuck =>
    obtain ⟨fuel, rfl⟩ := Nat.exists_eq_add_one.2 hfuel
    simp [repeatMost, stuck]
  | @cons u v rest filled first _ ih =>
    obtain ⟨fuel, rfl⟩ := Nat.exists_eq_add_one.2 (Nat.zero_lt_of_lt hfuel)
    have hpos := List.length_pos_iff.2 filled
    obtain ⟨ns, hns⟩ := List.head?_eq_some_iff.1 first
    have hmore : v.length < fuel := by
      rw [List.length_append] at hfuel
      omega
    have hlast := ih (offset + u.length) hmore
    have hstep : repeatMost step (fuel + 1) offset (u ++ v ++ rest) []
        = offset :: (ns.filter (0 < ·)).foldl
          (fun found n => repeatMost step fuel (offset + n) ((u ++ v ++ rest).drop n) found)
          (repeatMost step fuel (offset + u.length) (v ++ rest) []) := by
      rw [repeatMost, List.append_assoc, hns]
      simp [hpos]
    -- the other choices only add to what the first one has found
    obtain ⟨more, hkept⟩ : repeatMost step fuel (offset + u.length) (v ++ rest) []
        <:+ repeatMost step (fuel + 1) offset (u ++ v ++ rest) [] := by
      rw [hstep]
      exact (suffix_foldl (fun found n => suffix_repeatMost _ _ _ _ found) _ _).trans
        (List.suffix_cons _ _)
    rw [← hkept, List.getLast?_append, hlast, List.length_append, Nat.add_assoc]
    rfl

theorem Straight.prefers_star {p : Pattern} {u rest : List Char} (h : Straight p.lengths u rest) :
    (Pattern.star p).Prefers u rest := by
  have hfuel : u.length < (u ++ rest).length + 1 := by
    rw [List.length_append]
    omega
  have hlast := h.getLast?_repeatMost 0 hfuel
  rw [Prefers, lengths, List.head?_reverse, hlast, Nat.zero_add]

end Pattern

/-- Tokens of which no object reaches into what is behind it. -/
def Held : List (List Char × List Char) → List Char → Prop
  | [], _ => True
  | w :: ws, rest => (Extended w.1 → ¬ Swallows (w.2 ++ (Grammar.gapped ws ++ rest))) ∧ Held ws rest

namespace Grammar

/-! ## Tokens in a body -/

theorem prefers_someBlanks {b rest : List Char} (hb : IsGap b)
    (hrest : ∀ c ∈ rest.head?, Text.isBlank c = false) :
    (Pattern.plus .blank).Prefers b rest := by
  obtain ⟨hne, hblank⟩ := hb
  obtain ⟨c, b, rfl⟩ := List.exists_cons_of_ne_nil hne
  obtain ⟨hc, hb⟩ := List.forall_mem_cons.1 hblank
  obtain ⟨more, hlengths⟩ : ∃ more, (Pattern.plus (.oneIn false [.blank])).lengths (c :: b ++ rest)
      = (c :: b).length :: more :=
    Pattern.plus_lengths false [.blank] (by simpa [ClassItem.accepts] using hc)
      (by simpa [ClassItem.accepts] using hb) (by simpa [ClassItem.accepts] using hrest)
  rw [Pattern.Prefers, Pattern.blank, hlengths]
  rfl

/-- Blanks are found where there is one. -/
theorem isEmpty_someBlanks (s : List Char) :
    ((Pattern.plus .blank).lengths s).isEmpty = !s.head?.any Text.isBlank := by
  rw [Bool.eq_iff_iff, List.isEmpty_iff]
  constructor
  · intro hnil
    cases s with
    | nil => rfl
    | cons c s =>
      by_contra hblank
      have hc : IsGap [c] := ⟨by simp, by simpa using hblank⟩
      have hmem := (Pattern.length_mem_lengths (u := [c]) (v := s)).2 (matches_someBlanks.2 hc)
      rw [List.singleton_append, hnil] at hmem
      cases hmem
  · intro hblank
    rw [List.eq_nil_iff_forall_not_mem]
    intro n hn
    obtain ⟨u, v, rfl, -, hu⟩ := Pattern.split_of_mem_lengths hn
    obtain ⟨hne, hu⟩ := matches_someBlanks.1 hu
    obtain ⟨c, u, rfl⟩ := List.exists_cons_of_ne_nil hne
    simp [hu c List.mem_cons_self] at hblank

/-- Of the lengths of all tokens, the first one with a blank behind it is that of the first token. -/
theorem find?_anyToken (s : List Char) :
    (core.anyToken.lengths s).find? (fun n => (s.drop n).head?.any Text.isBlank)
      = (core.tokenAt? s).map Prod.snd := by
  rw [anyToken, Pattern.find?_oneOf (by simp [core, Kind.all]), List.findSome?_map, tokenAt?,
    List.map_findSome?]
  congr 1
  funext e
  simp [Function.comp_def, Pattern.lengths]

/-- A token that reaches into nothing is found as it stands. -/
theorem tokenAt?_held {w : List Char × List Char} (hw : IsTokenPart w) {s : List Char}
    (hheld : Extended w.1 → ¬ Swallows (w.2 ++ s)) :
    core.tokenAt? (w.1 ++ (w.2 ++ s)) = (core.entryOf? w.1).map fun e => (e, w.1.length) := by
  obtain ⟨u, gap⟩ := w
  obtain ⟨⟨k, hk, hmatch⟩, hne, hgap⟩ := hw
  obtain ⟨c, gap, rfl⟩ := List.exists_cons_of_ne_nil hne
  have hc := hgap c List.mem_cons_self
  rcases Kind.token_of_matches hk hmatch with htoken | ⟨rfl, hext⟩
  · exact tokenAt?_append (gap ++ s) htoken hc
  · obtain ⟨n, hn, -, hiff⟩ := tokenAt?_extended hext hmatch (gap ++ s) hc
    obtain rfl := hiff.2 (hheld hext)
    exact hn

theorem prefers_token {w : List Char × List Char} (hw : IsTokenPart w) {s : List Char}
    (hheld : Extended w.1 → ¬ Swallows (w.2 ++ s))
    (hs : ∀ c ∈ s.head?, Text.isBlank c = false) :
    (Pattern.group (.seq (.group core.anyToken) (.plus .blank))).Prefers (w.1 ++ w.2) s := by
  refine Pattern.prefers_seq_of_find? ?_ (prefers_someBlanks hw.2 hs)
  obtain ⟨k, -, -, he⟩ := exists_entryOf? hw.1
  have hfind := find?_anyToken (w.1 ++ (w.2 ++ s))
  rw [tokenAt?_held hw hheld, he] at hfind
  simp only [isEmpty_someBlanks, Bool.not_not]
  exact hfind

/-- No token begins with a closing brace. -/
theorem lengths_token_brace (rest : List Char) :
    (Pattern.group (.seq (.group core.anyToken) (.plus .blank))).lengths ('\x7d' :: rest) = [] := by
  rw [List.eq_nil_iff_forall_not_mem]
  intro n hn
  obtain ⟨_, v, hs, -, u, b, rfl, hu, -⟩ := Pattern.split_of_mem_lengths hn
  obtain ⟨k, hk, hmatch⟩ := matches_anyToken.1 hu
  obtain ⟨c, t, rfl, -, hc⟩ := Kind.head_of_matches hk hmatch
  exact hc (List.cons.inj hs).1.symm

/-- **Tokens are tried first as they stand**, in front of a closing brace. -/
theorem prefers_tokenList {ws : List (List Char × List Char)} (h : ∀ w ∈ ws, IsTokenPart w)
    {rest : List Char} (hheld : Held ws ('\x7d' :: rest)) :
    core.tokenList.Prefers (gapped ws) ('\x7d' :: rest) := by
  refine Pattern.Straight.prefers_star ?_
  induction ws with
  | nil => exact .nil (lengths_token_brace rest)
  | cons w ws ih =>
    obtain ⟨hw, hws⟩ := List.forall_mem_cons.1 h
    obtain ⟨hfirst, hmore⟩ := hheld
    have hhead : ∀ c ∈ (gapped ws ++ '\x7d' :: rest).head?, Text.isBlank c = false :=
      isBlank_head_tokenList (matches_tokenList.2 ⟨ws, rfl, hws⟩)
    rw [gapped_cons, ← List.append_assoc]
    exact .cons (by simp [hw.2.1]) (prefers_token hw hfirst hhead) (ih hws hmore)

/-- What is tried first is found. -/
theorem splitting_of_prefers {α : Type} {p : Pattern} {u rest : List Char} {x : α}
    {next : List Char → List Char → Option α} (hp : p.Prefers u rest) (hx : next u rest = some x) :
    splitting p (u ++ rest) next = some x := by
  obtain ⟨ns, hns⟩ := List.head?_eq_some_iff.1 hp
  rw [splitting, hns, List.findSome?_cons, List.take_left, List.drop_left, hx]

/-- **The body of a record is found as it stands.** -/
theorem bodyAt?_held {front : List Char} {ws : List (List Char × List Char)} (hfront : IsGap front)
    (h : ∀ w ∈ ws, IsTokenPart w) {rest : List Char} (hheld : Held ws ('\x7d' :: rest)) :
    core.bodyAt? ('\x7b' :: front ++ gapped ws ++ ['\x7d'] ++ rest)
      = some ('\x7b' :: front ++ gapped ws ++ ['\x7d'], rest) := by
  refine splitting_of_prefers ?_ rfl
  have hhead : ∀ c ∈ (gapped ws ++ '\x7d' :: rest).head?, Text.isBlank c = false :=
    isBlank_head_tokenList (matches_tokenList.2 ⟨ws, rfl, h⟩)
  have htokens : (Pattern.seq core.tokenList (.char '\x7d')).Prefers (gapped ws ++ ['\x7d']) rest := by
    apply Pattern.Prefers.seq (v := ['\x7d']) ?_ (Pattern.prefers_char _ rest)
    rw [List.singleton_append]
    exact prefers_tokenList h hheld
  have hinside : (Pattern.seq (.plus .blank) (.seq core.tokenList (.char '\x7d'))).Prefers
      (front ++ (gapped ws ++ ['\x7d'])) rest :=
    (prefers_someBlanks hfront (by simpa using hhead)).seq htokens
  have hbody := (Pattern.prefers_char '\x7b' (front ++ (gapped ws ++ ['\x7d']) ++ rest)).seq hinside
  simpa [body, Pattern.sequence] using hbody

/-! ## Names and blanks -/

theorem findSome?_of_pairwise {α : Type} {xs : List Nat} {f : Nat → Option α} {n : Nat} {x : α}
    (hxs : xs.Pairwise (· > ·)) (hn : n ∈ xs) (hx : f n = some x)
    (hlarger : ∀ m ∈ xs, n < m → f m = none) : xs.findSome? f = some x := by
  induction xs with
  | nil => cases hn
  | cons m xs ih =>
    obtain ⟨hm, hmore⟩ := List.pairwise_cons.1 hxs
    rcases List.mem_cons.1 hn with rfl | hn
    · rw [List.findSome?_cons, hx]
    · rw [List.findSome?_cons, hlarger m List.mem_cons_self (hm n hn)]
      exact ih hmore hn fun k hk => hlarger k (List.mem_cons_of_mem m hk)

/-- If a longer front part does not do, the longest one that does is found. -/
theorem splitting_longest {α : Type} {p : Pattern} (hp : Pattern.Greedy p.lengths)
    {u rest : List Char} {next : List Char → List Char → Option α} {x : α} (hu : p.Matches u)
    (hx : next u rest = some x)
    (hlonger : ∀ v more, u ++ rest = v ++ more → p.Matches v → u.length < v.length →
      next v more = none) : splitting p (u ++ rest) next = some x := by
  refine findSome?_of_pairwise (hp _) (Pattern.length_mem_lengths.2 hu)
    (by rw [List.take_left, List.drop_left, hx]) fun m hm hlt => ?_
  obtain ⟨v, more, hs, rfl, hv⟩ := Pattern.split_of_mem_lengths hm
  rw [hs, List.take_left, List.drop_left]
  exact hlonger v more hs hv hlt

theorem greedy_recordName : Pattern.Greedy recordName.lengths := by
  refine Pattern.Greedy.seq_of_length (k := 1) (Pattern.Greedy.oneChar _) (Pattern.Greedy.star _)
    fun s n hn => ?_
  obtain ⟨_, _, -, rfl, _, -, rfl⟩ := (Pattern.Finds.oneChar _ _ _).1 hn
  rfl

theorem prefers_blanks {b rest : List Char} (hb : ∀ c ∈ b, Text.isBlank c = true)
    (hrest : ∀ c ∈ rest.head?, Text.isBlank c = false) : blanks.Prefers b rest := by
  refine Pattern.Straight.prefers_star ?_
  induction b with
  | nil =>
    refine .nil ?_
    cases rest with
    | nil => rfl
    | cons c rest => simp [Pattern.blank, Pattern.lengths, Pattern.oneChar, ClassItem.accepts,
        hrest c rfl]
  | cons c b ih =>
    obtain ⟨hc, hb⟩ := List.forall_mem_cons.1 hb
    exact .cons (u := [c]) (by simp)
      (by simp [Pattern.blank, Pattern.lengths, Pattern.oneChar, ClassItem.accepts, hc]) (ih hb)

end Grammar

end BlockMachine
