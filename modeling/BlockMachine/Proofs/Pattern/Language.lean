import BlockMachine.Pattern

/-!
# The language of a pattern

The matcher tries a pattern at one place and answers with lengths; what a pattern *means* is the set
of texts that it matches as a whole. This module gives that set and shows that the matcher answers
with exactly the lengths of the front parts that are in it.

* `Pattern.Matches` — the texts of a pattern;
* `Finds` — a matcher answers with the front parts that satisfy a property;
* `Explored` — what a search through repetitions leaves behind, whichever order it prefers;
* `Pattern.length_mem_lengths` — whether a front part matches depends on that part alone;
* `Pattern.plus_lengths` — the order in which a repeated class of characters is tried.
-/

namespace BlockMachine

namespace Pattern

/-! ## What a pattern means -/

/-- Texts put together from parts that satisfy `P` and are not empty. -/
inductive Repeated (P : List Char → Prop) : List Char → Prop where
  | nil : Repeated P []
  | cons {u v : List Char} (part : P u) (filled : u ≠ []) (more : Repeated P v) :
      Repeated P (u ++ v)

/-- The texts that a pattern matches as a whole. An empty repetition adds nothing, so repetitions
are put together from parts that are not empty. -/
def Matches : Pattern → List Char → Prop
  | .empty, u => u = []
  | .char c, u => u = [c]
  | .any, u => ∃ c, (c != '\n') = true ∧ u = [c]
  | .oneIn negated items, u => ∃ c, (negated != items.any (ClassItem.accepts c)) = true ∧ u = [c]
  | .seq p q, u => ∃ v w, u = v ++ w ∧ p.Matches v ∧ q.Matches w
  | .alt p q, u => p.Matches u ∨ q.Matches u
  | .group p, u => p.Matches u
  | .optional p, u => p.Matches u ∨ u = []
  | .star p, u => Repeated p.Matches u
  | .lazyStar p, u => Repeated p.Matches u
  | .plus p, u => ∃ v w, u = v ++ w ∧ p.Matches v ∧ Repeated p.Matches w

/-- One part in front of the others, empty or not. -/
theorem Repeated.prepend {P : List Char → Prop} {u v : List Char} (hu : P u)
    (hv : Repeated P v) : Repeated P (u ++ v) := by
  by_cases hne : u = []
  · subst hne
    exact hv
  · exact .cons hu hne hv

/-- Repeating single characters that a test accepts gives the texts of such characters. -/
theorem repeated_char_iff {test : Char → Prop} {u : List Char} :
    Repeated (fun v => ∃ c, test c ∧ v = [c]) u ↔ ∀ c ∈ u, test c := by
  constructor
  · intro h
    induction h with
    | nil => simp
    | cons part _ _ ih =>
      obtain ⟨c, hc, rfl⟩ := part
      intro d hd
      rcases List.mem_cons.1 hd with rfl | hd
      · exact hc
      · exact ih d hd
  · intro h
    induction u with
    | nil => exact .nil
    | cons c u ih =>
      have hu := ih fun d hd => h d (List.mem_cons_of_mem c hd)
      exact .cons (u := [c]) ⟨c, h c List.mem_cons_self, rfl⟩ (by simp) hu

/-! ## What a matcher answers -/

/-- A matcher answers with the lengths of the front parts that satisfy `P`. -/
def Finds (f : List Char → List Nat) (P : List Char → Prop) : Prop :=
  ∀ s n, n ∈ f s ↔ ∃ u v, s = u ++ v ∧ u.length = n ∧ P u

namespace Finds

variable {f g : List Char → List Nat} {P Q : List Char → Prop}

/-- The length of a front part is an answer exactly if the part satisfies the property. -/
theorem length_mem_iff (hf : Finds f P) {u v : List Char} : u.length ∈ f (u ++ v) ↔ P u := by
  rw [hf]
  constructor
  · rintro ⟨u', v', hs, hn, hP⟩
    obtain ⟨rfl, -⟩ := List.append_inj hs hn.symm
    exact hP
  · intro hP
    exact ⟨u, v, rfl, rfl, hP⟩

theorem le_length (hf : Finds f P) {s : List Char} {n : Nat} (hn : n ∈ f s) : n ≤ s.length := by
  obtain ⟨u, v, rfl, rfl, -⟩ := (hf s n).1 hn
  simp

theorem oneChar (test : Char → Bool) :
    Finds (oneChar test) fun u => ∃ c, test c = true ∧ u = [c] := by
  intro s n
  cases s with
  | nil => simp [Pattern.oneChar]
  | cons c s =>
    by_cases hc : test c = true
    · constructor
      · intro hn
        have hn : n = 1 := by simpa [Pattern.oneChar, hc] using hn
        exact ⟨[c], s, rfl, hn.symm, c, hc, rfl⟩
      · rintro ⟨u, v, hs, rfl, d, -, rfl⟩
        simp [Pattern.oneChar, hc]
    · constructor
      · intro hn
        simp [Pattern.oneChar, hc] at hn
      · rintro ⟨u, v, hs, rfl, d, hd, rfl⟩
        obtain ⟨rfl, -⟩ := List.cons.inj hs
        exact absurd hd hc

theorem seq (hf : Finds f P) (hg : Finds g Q) :
    Finds (seqLengths f g) fun u => ∃ v w, u = v ++ w ∧ P v ∧ Q w := by
  intro s n
  simp only [seqLengths, List.mem_eraseDups, List.mem_flatMap, List.mem_map]
  constructor
  · rintro ⟨a, ha, b, hb, rfl⟩
    obtain ⟨u, v, rfl, rfl, hP⟩ := (hf s a).1 ha
    rw [List.drop_left] at hb
    obtain ⟨w, x, rfl, rfl, hQ⟩ := (hg v b).1 hb
    exact ⟨u ++ w, x, by simp, by simp, u, w, rfl, hP, hQ⟩
  · rintro ⟨_, x, rfl, rfl, u, w, rfl, hP, hQ⟩
    refine ⟨u.length, ?_, w.length, ?_, by simp⟩
    · rw [List.append_assoc]
      exact hf.length_mem_iff.2 hP
    · rw [List.append_assoc, List.drop_left]
      exact hg.length_mem_iff.2 hQ

end Finds

/-! ## Repetitions -/

/-- Places that repetitions of `step` reach in the text `t`. Steps that do not advance are not
taken. -/
inductive Reached (step : List Char → List Nat) (t : List Char) : Nat → Nat → Prop where
  | here (o : Nat) : Reached step t o o
  | there {o n o' : Nat} (mem : n ∈ step (t.drop o)) (pos : 0 < n)
      (more : Reached step t (o + n) o') : Reached step t o o'

/-- What a search from the places `starts` leaves behind: it forgets nothing, it has been at every
start, everything that it added is reached from a start, and it has followed every step from there.
The order of the places plays no part. -/
structure Explored (step : List Char → List Nat) (t : List Char) (found starts r : List Nat) :
    Prop where
  kept : ∀ o ∈ found, o ∈ r
  started : ∀ o ∈ starts, o ∈ r
  followed : ∀ o ∈ r, o ∈ found ∨ ∀ n ∈ step (t.drop o), 0 < n → o + n ∈ r
  reached : ∀ o ∈ r, o ∈ found ∨ ∃ a ∈ starts, Reached step t a o

namespace Explored

variable {step : List Char → List Nat} {t : List Char}

theorem nothing (found : List Nat) : Explored step t found [] found :=
  ⟨fun _ ho => ho, by simp, fun _ ho => .inl ho, fun _ ho => .inl ho⟩

/-- One search after the other. -/
theorem append {found as bs r r' : List Nat} (h : Explored step t found as r)
    (h' : Explored step t r bs r') : Explored step t found (as ++ bs) r' := by
  refine ⟨fun o ho => h'.kept o (h.kept o ho), fun o ho => ?_, fun o ho => ?_, fun o ho => ?_⟩
  · rcases List.mem_append.1 ho with ho | ho
    · exact h'.kept o (h.started o ho)
    · exact h'.started o ho
  · rcases h'.followed o ho with hr | hr
    · -- added by the first search, which leaves its steps to the second
      rcases h.followed o hr with hf | hf
      · exact .inl hf
      · exact .inr fun n hn hpos => h'.kept _ (hf n hn hpos)
    · exact .inr hr
  · rcases h'.reached o ho with hr | ⟨b, hb, hr⟩
    · rcases h.reached o hr with hf | ⟨a, ha, hf⟩
      · exact .inl hf
      · exact .inr ⟨a, List.mem_append_left bs ha, hf⟩
    · exact .inr ⟨b, List.mem_append_right as hb, hr⟩

/-- Searching from several starts in a row. -/
theorem foldl {enter : List Nat → Nat → List Nat} {offset : Nat} {ns : List Nat}
    (henter : ∀ n ∈ ns, ∀ found, Explored step t found [offset + n] (enter found n))
    (found : List Nat) :
    Explored step t found (ns.map (offset + ·)) (ns.foldl enter found) := by
  induction ns generalizing found with
  | nil => exact nothing found
  | cons n ns ih =>
    have hn := henter n List.mem_cons_self found
    have hns := ih (fun m hm => henter m (List.mem_cons_of_mem n hm)) (enter found n)
    exact hn.append hns

/-- The places to go to from `offset`. -/
theorem mem_steps {offset n : Nat} :
    n ∈ (step (t.drop offset)).filter (0 < ·) ↔ n ∈ step (t.drop offset) ∧ 0 < n := by
  simp

/-- A search from all the places that one step from `offset` reaches, and `offset` itself: it does
not matter when `offset` is added. -/
theorem around {offset : Nat} {found found' r r' : List Nat}
    (h : Explored step t found'
      (((step (t.drop offset)).filter (0 < ·)).map (offset + ·)) r)
    (hfound : ∀ o, o ∈ found' → o ∈ found ∨ o = offset) (hkept : ∀ o ∈ found, o ∈ found')
    (hr' : ∀ o, o ∈ r' ↔ o = offset ∨ o ∈ r) : Explored step t found [offset] r' := by
  have hsteps : ∀ n ∈ step (t.drop offset), 0 < n → offset + n ∈ r' := by
    intro n hn hpos
    exact (hr' _).2 (.inr (h.started _ (List.mem_map_of_mem (mem_steps.2 ⟨hn, hpos⟩))))
  refine ⟨fun o ho => (hr' o).2 (.inr (h.kept o (hkept o ho))), ?_, fun o ho => ?_, fun o ho => ?_⟩
  · simpa using (hr' offset).2 (.inl rfl)
  · by_cases hoff : o = offset
    · subst hoff
      exact .inr hsteps
    · have hmem := ((hr' o).1 ho).resolve_left hoff
      rcases h.followed o hmem with hf | hf
      · exact .inl ((hfound o hf).resolve_right hoff)
      · exact .inr fun n hn hpos => (hr' _).2 (.inr (hf n hn hpos))
  · by_cases hoff : o = offset
    · subst hoff
      exact .inr ⟨o, List.mem_singleton.2 rfl, .here o⟩
    · have hmem := ((hr' o).1 ho).resolve_left hoff
      rcases h.reached o hmem with hf | ⟨a, ha, hf⟩
      · exact .inl ((hfound o hf).resolve_right hoff)
      · obtain ⟨n, hn, rfl⟩ := List.mem_map.1 ha
        obtain ⟨hn, hpos⟩ := mem_steps.1 hn
        exact .inr ⟨offset, List.mem_singleton.2 rfl, .there hn hpos hf⟩

/-- A place that was found before is not searched again. -/
theorem of_mem {offset : Nat} {found : List Nat} (h : offset ∈ found) :
    Explored step t found [offset] found :=
  ⟨fun _ ho => ho, by simpa using h, fun _ ho => .inl ho, fun _ ho => .inl ho⟩

/-- Searching from all the places that one step from `offset` reaches. -/
theorem onward (enter : Nat → List Char → List Nat → List Nat) {offset : Nat}
    (hstep : ∀ s, ∀ n ∈ step s, n ≤ s.length) (hle : offset ≤ t.length)
    (henter : ∀ o, offset < o → o ≤ t.length → ∀ found,
      Explored step t found [o] (enter o (t.drop o) found)) (found : List Nat) :
    Explored step t found (((step (t.drop offset)).filter (0 < ·)).map (offset + ·))
      (((step (t.drop offset)).filter (0 < ·)).foldl
        (fun found n => enter (offset + n) ((t.drop offset).drop n) found) found) := by
  refine foldl (fun n hn found => ?_) found
  obtain ⟨hn, hpos⟩ := mem_steps.1 hn
  have hlen := hstep _ n hn
  rw [List.length_drop] at hlen
  rw [List.drop_drop]
  exact henter (offset + n) (by omega) (by omega) found

theorem repeatMost (hstep : ∀ s, ∀ n ∈ step s, n ≤ s.length) (fuel offset : Nat)
    (found : List Nat) (hle : offset ≤ t.length) (hfuel : t.length < offset + fuel) :
    Explored step t found [offset]
      (Pattern.repeatMost step fuel offset (t.drop offset) found) := by
  induction fuel generalizing offset found with
  | zero => omega
  | succ fuel ih =>
    rw [Pattern.repeatMost]
    split
    case isTrue hmem => exact of_mem (by simpa using hmem)
    case isFalse _ =>
      have hon := onward (Pattern.repeatMost step fuel) hstep hle
        (fun o ho hle found => ih o found hle (by omega)) found
      exact hon.around (fun o ho => .inl ho) (fun o ho => ho) fun o => List.mem_cons

theorem repeatLeast (hstep : ∀ s, ∀ n ∈ step s, n ≤ s.length) (fuel offset : Nat)
    (found : List Nat) (hle : offset ≤ t.length) (hfuel : t.length < offset + fuel) :
    Explored step t found [offset]
      (Pattern.repeatLeast step fuel offset (t.drop offset) found) := by
  induction fuel generalizing offset found with
  | zero => omega
  | succ fuel ih =>
    rw [Pattern.repeatLeast]
    split
    case isTrue hmem => exact of_mem (by simpa using hmem)
    case isFalse _ =>
      have hon := onward (Pattern.repeatLeast step fuel) hstep hle
        (fun o ho hle found => ih o found hle (by omega)) (offset :: found)
      refine hon.around (fun o ho => (List.mem_cons.1 ho).symm) (fun o ho => by simp [ho])
        fun o => ⟨.inr, fun ho => ho.elim (fun h => ?_) id⟩
      subst h
      exact hon.kept o List.mem_cons_self

/-- A search that starts with nothing finds what is reached, and only that. -/
theorem mem_iff {offset o : Nat} {r : List Nat} (h : Explored step t [] [offset] r) :
    o ∈ r ↔ Reached step t offset o := by
  constructor
  · intro ho
    simpa using h.reached o ho
  · intro ho
    have hfollow : ∀ o ∈ r, ∀ n ∈ step (t.drop o), 0 < n → o + n ∈ r := by
      intro o ho
      simpa using h.followed o ho
    have hstart : offset ∈ r := h.started offset (List.mem_singleton.2 rfl)
    clear h
    induction ho with
    | here => exact hstart
    | there mem pos _ ih => exact ih (hfollow _ hstart _ mem pos)

end Explored

/-- What repetitions reach, in terms of the text that they pass. -/
theorem reached_iff {step : List Char → List Nat} {P : List Char → Prop} (hstep : Finds step P)
    {t : List Char} {o o' : Nat} :
    Reached step t o o' ↔ ∃ u v, t.drop o = u ++ v ∧ o' = o + u.length ∧ Repeated P u := by
  constructor
  · intro h
    induction h with
    | here o => exact ⟨[], t.drop o, rfl, rfl, .nil⟩
    | there mem pos _ ih =>
      obtain ⟨u, v, hs, rfl, hP⟩ := (hstep _ _).1 mem
      obtain ⟨w, x, hs', rfl, hw⟩ := ih
      have hv : v = w ++ x := by
        rw [← hs', ← List.drop_drop, hs, List.drop_left]
      refine ⟨u ++ w, x, by rw [hs, hv, List.append_assoc], by simp; omega, ?_⟩
      exact hw.prepend hP
  · rintro ⟨u, v, hs, rfl, hu⟩
    induction hu generalizing o with
    | nil => exact .here o
    | @cons a b part filled _ ih =>
      rw [List.append_assoc] at hs
      have hmem : a.length ∈ step (t.drop o) := by
        rw [hs]
        exact hstep.length_mem_iff.2 part
      have hrest : t.drop (o + a.length) = b ++ v := by
        rw [← List.drop_drop, hs, List.drop_left]
      have hmore := ih hrest
      rw [List.length_append, ← Nat.add_assoc]
      exact .there hmem (List.length_pos_iff.2 filled) hmore

/-- A search from the front of every text, in either order, finds the repetitions. -/
theorem Finds.repeated {step : List Char → List Nat} {P : List Char → Prop}
    (hstep : Finds step P) {search : List Char → List Nat}
    (h : ∀ t, Explored step t [] [0] (search t)) :
    Finds (fun t => (search t).reverse) (Repeated P) := by
  intro t n
  rw [List.mem_reverse, (h t).mem_iff, reached_iff hstep]
  simp only [List.drop_zero, Nat.zero_add]
  constructor
  · rintro ⟨u, v, hs, rfl, hu⟩
    exact ⟨u, v, hs, rfl, hu⟩
  · rintro ⟨u, v, hs, rfl, hu⟩
    exact ⟨u, v, hs, rfl, hu⟩

theorem Finds.star {step : List Char → List Nat} {P : List Char → Prop} (hstep : Finds step P) :
    Finds (fun t => (repeatMost step (t.length + 1) 0 t []).reverse) (Repeated P) :=
  hstep.repeated fun t => by
    simpa using Explored.repeatMost (t := t) (fun _ _ hn => hstep.le_length hn) (t.length + 1) 0 []
      (Nat.zero_le _) (by omega)

theorem Finds.lazyStar {step : List Char → List Nat} {P : List Char → Prop}
    (hstep : Finds step P) :
    Finds (fun t => (repeatLeast step (t.length + 1) 0 t []).reverse) (Repeated P) :=
  hstep.repeated fun t => by
    simpa using Explored.repeatLeast (t := t) (fun _ _ hn => hstep.le_length hn) (t.length + 1) 0 []
      (Nat.zero_le _) (by omega)

/-! ## The matcher -/

/-- **The matcher is right.** A pattern answers with the lengths of the front parts that it matches
as a whole. -/
theorem lengths_finds (p : Pattern) : Finds p.lengths p.Matches := by
  induction p with
  | empty =>
    intro s n
    constructor
    · intro hn
      have hn : n = 0 := by simpa [lengths] using hn
      exact ⟨[], s, rfl, hn.symm, rfl⟩
    · rintro ⟨u, v, rfl, rfl, rfl⟩
      simp [lengths]
  | char c =>
    intro s n
    simpa [lengths, Matches] using Finds.oneChar (· == c) s n
  | any => exact Finds.oneChar (· != '\n')
  | oneIn negated items => exact Finds.oneChar _
  | seq p q ihp ihq => exact ihp.seq ihq
  | alt p q ihp ihq =>
    intro s n
    simp only [lengths, Matches, List.mem_eraseDups, List.mem_append, ihp s n, ihq s n]
    constructor
    · rintro (⟨u, v, hs, hn, h⟩ | ⟨u, v, hs, hn, h⟩)
      · exact ⟨u, v, hs, hn, .inl h⟩
      · exact ⟨u, v, hs, hn, .inr h⟩
    · rintro ⟨u, v, hs, hn, h | h⟩
      · exact .inl ⟨u, v, hs, hn, h⟩
      · exact .inr ⟨u, v, hs, hn, h⟩
  | group p ih => exact ih
  | optional p ih =>
    intro s n
    simp only [lengths, Matches, List.mem_eraseDups, List.mem_append, ih s n, List.mem_singleton]
    constructor
    · rintro (⟨u, v, hs, hn, h⟩ | rfl)
      · exact ⟨u, v, hs, hn, .inl h⟩
      · exact ⟨[], s, rfl, rfl, .inr rfl⟩
    · rintro ⟨u, v, hs, hn, h | rfl⟩
      · exact .inl ⟨u, v, hs, hn, h⟩
      · exact .inr hn.symm
  | star p ih => exact ih.star
  | lazyStar p ih => exact ih.lazyStar
  | plus p ih => exact ih.seq ih.star

/-- Whether a front part matches does not depend on what follows it. -/
theorem length_mem_lengths {p : Pattern} {u v : List Char} :
    u.length ∈ p.lengths (u ++ v) ↔ p.Matches u :=
  p.lengths_finds.length_mem_iff

/-- Every answer cuts the text behind a part that matches. -/
theorem split_of_mem_lengths {p : Pattern} {s : List Char} {n : Nat} (hn : n ∈ p.lengths s) :
    ∃ u v, s = u ++ v ∧ u.length = n ∧ p.Matches u :=
  (p.lengths_finds s n).1 hn

theorem matchesAll_iff {p : Pattern} {s : List Char} : p.matchesAll s = true ↔ p.Matches s := by
  have h := length_mem_lengths (p := p) (u := s) (v := [])
  rw [List.append_nil] at h
  rw [← h, matchesAll, List.contains_iff_mem]

/-! ## The order of repeated characters -/

/-- The search through a repeated class of characters goes along the run of such characters. -/
theorem repeatMost_oneChar {test : Char → Bool} {run rest : List Char} (offset fuel : Nat)
    (hrun : ∀ c ∈ run, test c = true) (hrest : ∀ c ∈ rest.head?, test c = false)
    (hfuel : run.length < fuel) :
    repeatMost (oneChar test) fuel offset (run ++ rest) []
      = List.range' offset (run.length + 1) := by
  induction run generalizing offset fuel with
  | nil =>
    obtain ⟨fuel, rfl⟩ := Nat.exists_eq_add_one.2 hfuel
    have hnone : oneChar test rest = [] := by
      cases rest with
      | nil => rfl
      | cons c rest => simpa [oneChar] using hrest c (by simp)
    simp [repeatMost, hnone]
  | cons c run ih =>
    obtain ⟨fuel, rfl⟩ := Nat.exists_eq_add_one.2 (Nat.zero_lt_of_lt hfuel)
    have hc := hrun c List.mem_cons_self
    have hmore := ih (offset + 1) fuel
      (fun d hd => hrun d (List.mem_cons_of_mem c hd)) (by simpa using hfuel)
    simp [repeatMost, oneChar, hc, hmore, List.range'_succ]

/-- The longest run comes first, when characters of a class are repeated. -/
theorem plus_lengths (negated : Bool) (items : List ClassItem) {run rest : List Char} {c : Char}
    (hc : (negated != items.any (ClassItem.accepts c)) = true)
    (hrun : ∀ d ∈ run, (negated != items.any (ClassItem.accepts d)) = true)
    (hrest : ∀ d ∈ rest.head?, (negated != items.any (ClassItem.accepts d)) = false) :
    ∃ more, (Pattern.plus (.oneIn negated items)).lengths (c :: run ++ rest)
      = (c :: run).length :: more := by
  have hfuel : run.length < (run ++ rest).length + 1 := by
    rw [List.length_append]
    omega
  have hsearch := repeatMost_oneChar 0 ((run ++ rest).length + 1) hrun hrest hfuel
  simp only [List.cons_append, lengths, seqLengths]
  rw [show oneChar _ (c :: (run ++ rest)) = [1] from by simp [oneChar, hc]]
  simp only [List.flatMap_cons, List.flatMap_nil, List.drop_succ_cons, List.drop_zero,
    List.append_nil, hsearch, List.range'_1_concat, List.reverse_append, List.reverse_singleton,
    List.singleton_append, List.map_cons, List.eraseDups_cons]
  have hlen : 1 + (0 + run.length) = (c :: run).length := by
    simp only [List.length_cons]
    omega
  rw [hlen]
  exact ⟨_, rfl⟩

end Pattern

end BlockMachine
