import BlockMachine.Proofs.Decimal.WholeText
import BlockMachine.Proofs.Fraction.Rereading

/-!
# Groups of three digits

Whether a comma stands in front of a digit is decided from the number of digits that are left. So
the commas divide the digits into groups of three, counted from the right, with a shorter group in
front if they do not come out even. Commas do not count in a number token, so an integer below
`2^53` in magnitude is read back from its grouped text.

* `InThrees` — digits in groups, `groupThousands_inThrees` — what grouping does;
* `withCommas` — the digits behind the first one with their commas, one digit after the other;
* `grouped_read` — the grouped text of an integer, and what it is read as.
-/

namespace BlockMachine.Decimal

/-! ## Grouping -/

/-- **Groups of three**, counted from the right: a first group of one to three digits, and groups of
three digits with a comma in front of each. -/
def InThrees (digits text : List Char) : Prop :=
  ∃ (first : List Char) (groups : List (List Char)),
    digits = first ++ groups.flatten ∧ text = first ++ groups.flatMap (',' :: ·) ∧
      (1 ≤ first.length ∧ first.length ≤ 3) ∧ ∀ group ∈ groups, group.length = 3

/-- Digits with a comma in front of each that has two, five, eight and so on behind it. -/
def withCommas : List Char → List Char
  | [] => []
  | c :: rest => (if (rest.length + 1) % 3 = 0 then [',', c] else [c]) ++ withCommas rest

/-- The digits from the place `k` on. -/
theorem flatten_zipIdx {rest : List Char} {k n : Nat} (hk : 0 < k) (hn : n = k + rest.length) :
    ((rest.zipIdx k).map fun (c, i) =>
      if 0 < i ∧ (n - i) % 3 = 0 then [',', c] else [c]).flatten = withCommas rest := by
  induction rest generalizing k with
  | nil => rfl
  | cons c rest ih =>
    have hleft : n - k = rest.length + 1 := by
      rw [hn, List.length_cons, Nat.add_sub_cancel_left]
    rw [List.length_cons] at hn
    rw [List.zipIdx_cons, List.map_cons, List.flatten_cons, ih (Nat.succ_pos k) (by omega),
      withCommas]
    simp only [hk, hleft, true_and]

theorem groupThousands_cons (c : Char) (rest : List Char) :
    groupThousands (c :: rest) = c :: withCommas rest := by
  rw [groupThousands, List.zipIdx_cons, List.map_cons, List.flatten_cons,
    flatten_zipIdx Nat.zero_lt_one (by rw [List.length_cons, Nat.add_comm])]
  rfl

/-- Fewer than three digits in front of whole groups get no comma. -/
theorem withCommas_append {s t : List Char} (hs : s.length < 3) (ht : t.length % 3 = 0) :
    withCommas (s ++ t) = s ++ withCommas t := by
  induction s with
  | nil => rfl
  | cons c s ih =>
    rw [List.length_cons] at hs
    have hmod : ¬ ((s ++ t).length + 1) % 3 = 0 := by
      rw [List.length_append]
      omega
    rw [List.cons_append, withCommas, if_neg hmod, ih (by omega)]
    rfl

/-- Digits that come out even are whole groups. -/
theorem exists_groups : ∀ {t : List Char}, t.length % 3 = 0 → ∃ groups : List (List Char),
    t = groups.flatten ∧ withCommas t = groups.flatMap (',' :: ·) ∧
      ∀ group ∈ groups, group.length = 3
  | [], _ => ⟨[], rfl, rfl, List.forall_mem_nil _⟩
  | [_], ht => by simp at ht
  | [_, _], ht => by simp at ht
  | a :: b :: c :: rest, ht => by
    have hrest : rest.length % 3 = 0 := by
      simp only [List.length_cons] at ht
      omega
    obtain ⟨groups, hdigits, htext, hgroups⟩ := exists_groups hrest
    have hcomma : ((b :: c :: rest).length + 1) % 3 = 0 := ht
    have htwo : withCommas (b :: c :: rest) = b :: c :: withCommas rest :=
      withCommas_append (s := [b, c]) (Nat.lt_succ_self 2) hrest
    refine ⟨[a, b, c] :: groups, ?_, ?_, List.forall_mem_cons.2 ⟨rfl, hgroups⟩⟩
    · rw [List.flatten_cons, ← hdigits]
      rfl
    · rw [withCommas, if_pos hcomma, htwo, List.flatMap_cons, ← htext]
      rfl

/-- **Grouping divides digits into threes.** -/
theorem groupThousands_inThrees {s : List Char} (hs : s ≠ []) : InThrees s (groupThousands s) := by
  obtain ⟨c, rest, rfl⟩ := List.exists_cons_of_ne_nil hs
  have hlength := List.length_take_of_le (Nat.mod_le rest.length 3)
  have heven : (rest.drop (rest.length % 3)).length % 3 = 0 := by
    rw [List.length_drop]
    omega
  obtain ⟨groups, hdigits, htext, hgroups⟩ := exists_groups heven
  refine ⟨c :: rest.take (rest.length % 3), groups, ?_, ?_, ?_, hgroups⟩
  · rw [← hdigits, List.cons_append, List.take_append_drop]
  · have hcommas := withCommas_append (s := rest.take (rest.length % 3)) (by omega) heven
    rw [List.take_append_drop] at hcommas
    rw [groupThousands_cons, hcommas, htext]
    rfl
  · rw [List.length_cons, hlength]
    omega

/-! ## Reading grouped integers -/

/-- Commas do not count in a number token. -/
theorem readFraction_congr {s t : List Char}
    (h : s.filter (· != ',') = t.filter (· != ',')) :
    Literal.readFraction s = Literal.readFraction t := by
  simp only [Literal.readFraction, h]

section

variable {x : Float} {z : Int}

/-- Without its commas, the grouped text of an integer is the integer. -/
theorem filter_grouped (hx : Form z x.toModel.unpack) :
    (grouped x).toList.filter (· != ',') = (intText z).toList := by
  rw [hx.grouped, toList_withSign, String.toList_ofList, List.filter_append,
    filter_groupThousands (not_mem_toDigits (by decide) _), toList_intText]
  by_cases hz : z < 0 <;> simp [hz]

/-- **Grouped integers are read back.** An integer below `2^53` in magnitude is written with a minus
sign if it is negative, and with its digits in groups of three; the text is read as the integer. -/
theorem grouped_read (hx : IsInteger x z) (hz : z.natAbs < 2 ^ 53) :
    (∃ text, (grouped x).toList = (if z < 0 then ['-'] else []) ++ text ∧
      InThrees (Nat.toDigits 10 z.natAbs) text) ∧
      (Literal.readFraction (grouped x).toList).value = Float.ofInt z := by
  have hform := hx.form hz.le
  refine ⟨⟨groupThousands (Nat.toDigits 10 z.natAbs), ?_, ?_⟩, ?_⟩
  · rw [hform.grouped, toList_withSign, String.toList_ofList]
    simp
  · exact groupThousands_inThrees (Json.toDigits_ne_nil _)
  · rcases eq_or_ne z 0 with rfl | hne
    · have hread : Literal.readFraction (grouped x).toList = Literal.readFraction ['0'] :=
        readFraction_congr (filter_grouped hform)
      have hzero : Literal.readFraction ['0'] = Fraction.ofFloat 0 := by decide
      rw [hread, hzero, Fraction.value_ofFloat]
      rfl
    · have hfinite : x.isFinite = true := (Bool.and_eq_true_iff.1 hform.isWhole).1
      have hread : Literal.readFraction (grouped x).toList =
          Literal.readFraction (plain x).toList := by
        refine readFraction_congr ?_
        rw [filter_grouped hform, Fraction.filter_comma_plain hfinite, hform.plain hne hz]
      rw [hread, Fraction.readFraction_plain hfinite, Fraction.value_ofFloat]
      exact hx.resolve_right fun h => hne h.1

/-- The least of these integers, with one digit in front of the first comma. -/
theorem grouped_read_least :
    grouped (Float.ofInt (-9007199254740991)) = "-9,007,199,254,740,991" ∧
      InThrees (Nat.toDigits 10 9007199254740991) "9,007,199,254,740,991".toList ∧
      (Literal.readFraction "-9,007,199,254,740,991".toList).value =
        Float.ofInt (-9007199254740991) := by
  obtain ⟨⟨text, htext, hthrees⟩, hread⟩ :=
    grouped_read (z := -9007199254740991) (.inl rfl) (by decide)
  have hgrouped : grouped (Float.ofInt (-9007199254740991)) = "-9,007,199,254,740,991" := by
    decide +kernel
  rw [hgrouped] at htext hread
  obtain rfl : "9,007,199,254,740,991".toList = text := (List.cons.inj htext).2
  exact ⟨hgrouped, hthrees, hread⟩

end

end BlockMachine.Decimal
