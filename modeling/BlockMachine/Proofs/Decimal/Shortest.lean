import BlockMachine.Proofs.Decimal.Nearest

/-!
# The shortest digits

The digits that are written for a double are a number nearest to it.

* `Digits.value` — a decimal as a number, `cmpScaled_eq` — comparing them;
* `Binary.readsBack_iff` — the decimals that read back are the nearest ones;
* `Binary.shortest_nearest` — the shortest digits are nearest, whatever grid they are found on;
* `Binary.le_shortest_exp` — they do not have many places;
* `Binary.shortest_exp_nonneg` — the digits of a whole number have no places at all.
-/

namespace BlockMachine.Decimal

/-- The decimal as a number. -/
def Digits.value (d : Digits) : ℚ :=
  d.digits * 10 ^ d.exp

theorem zpow_mul_pow_toNat {b : ℚ} (hb : b ≠ 0) (i : Int) :
    b ^ i * b ^ (-i).toNat = b ^ i.toNat := by
  rw [← zpow_natCast, ← zpow_natCast, ← zpow_add₀ hb]
  congr 1
  omega

/-- **Comparing scaled numbers** is comparing numbers. -/
theorem cmpScaled_eq (a : Nat) (i : Int) (n : Nat) (j : Int) :
    cmpScaled a i n j = compare ((a : ℚ) * 10 ^ i) (n * 2 ^ j) := by
  have hten := zpow_mul_pow_toNat (b := 10) (by norm_num) i
  have htwo := zpow_mul_pow_toNat (b := 2) (by norm_num) j
  have hscale : (0 : ℚ) < 10 ^ (-i).toNat * 2 ^ (-j).toNat := by positivity
  have hleft : ((a * 10 ^ i.toNat * 2 ^ (-j).toNat : Nat) : ℚ) =
      a * 10 ^ i * (10 ^ (-i).toNat * 2 ^ (-j).toNat) := by
    push_cast
    rw [← hten]
    ring
  have hright : ((n * 2 ^ j.toNat * 10 ^ (-i).toNat : Nat) : ℚ) =
      n * 2 ^ j * (10 ^ (-i).toNat * 2 ^ (-j).toNat) := by
    push_cast
    rw [← htwo]
    ring
  change compare (a * 10 ^ i.toNat * 2 ^ (-j).toNat) (n * 2 ^ j.toNat * 10 ^ (-i).toNat) = _
  rcases lt_trichotomy ((a : ℚ) * 10 ^ i) (n * 2 ^ j) with hlt | heq | hgt
  · rw [compare_lt_iff_lt.2 hlt, compare_lt_iff_lt, ← Nat.cast_lt (α := ℚ), hleft, hright]
    exact mul_lt_mul_of_pos_right hlt hscale
  · rw [compare_eq_iff_eq.2 heq, compare_eq_iff_eq, ← Nat.cast_inj (R := ℚ), hleft, hright, heq]
  · rw [compare_gt_iff_gt.2 hgt, compare_gt_iff_gt, ← Nat.cast_lt (α := ℚ), hleft, hright]
    exact mul_lt_mul_of_pos_right hgt hscale

/-- Moving zeros between the digits and the exponent changes no value. -/
theorem Digits.value_strip (fuel : Nat) (d : Digits) : (d.strip fuel).value = d.value := by
  induction fuel generalizing d with
  | zero => rfl
  | succ fuel ih =>
    rw [Digits.strip]
    split
    case isTrue h =>
      obtain ⟨k, hk⟩ : ∃ k, d.digits = 10 * k := ⟨d.digits / 10, by omega⟩
      rw [ih, Digits.value, Digits.value, hk, Nat.mul_div_cancel_left k (by decide),
        zpow_add₀ (by norm_num)]
      push_cast
      ring
    case isFalse => rfl

theorem Digits.exp_le_strip (fuel : Nat) (d : Digits) : d.exp ≤ (d.strip fuel).exp := by
  induction fuel generalizing d with
  | zero => exact Int.le_refl _
  | succ fuel ih =>
    rw [Digits.strip]
    split
    · have := ih ⟨d.digits / 10, d.exp + 1⟩
      dsimp only at this
      omega
    · exact Int.le_refl _

/-- What is found first along a range, and that nothing is found before it. -/
theorem exists_of_findSome?_range {α : Type} {f : Nat → Option α} {a : α} {k : Nat}
    (h : (List.range k).findSome? f = some a) : ∃ n < k, f n = some a ∧ ∀ i < n, f i = none := by
  induction k with
  | zero => cases h
  | succ k ih =>
    rw [List.range_succ, List.findSome?_append] at h
    cases hfront : (List.range k).findSome? f with
    | some b =>
      rw [hfront] at h
      obtain ⟨n, hn, hrest⟩ := ih (hfront.trans h)
      exact ⟨n, Nat.lt_succ_of_lt hn, hrest⟩
    | none =>
      rw [hfront, Option.none_or, List.findSome?_singleton] at h
      rw [List.findSome?_eq_none_iff] at hfront
      exact ⟨k, Nat.lt_succ_self k, h, fun i hi => hfront i (List.mem_range.2 hi)⟩

namespace Binary

variable {x : Binary} {d : Digits}

/-- **What reads back is what is nearest.** -/
theorem readsBack_iff (hm : 0 < x.m) : x.readsBack d = true ↔ x.Nearest d.value := by
  have hunit : (0 : ℚ) < 2 ^ x.q := zpow_pos two_pos _
  have hquarter : (2 : ℚ) ^ x.q = 4 * 2 ^ (x.q - 2) := by
    rw [zpow_sub₀ two_ne_zero]
    norm_num
    ring
  have hlo : ((if x.narrowBelow then 4 * x.m - 1 else 4 * x.m - 2 : Nat) : ℚ) * 2 ^ (x.q - 2) =
      (x.m - (if x.narrowBelow then 1 / 4 else 1 / 2 : ℚ)) * 2 ^ x.q := by
    rw [hquarter]
    split
    · rw [Nat.cast_sub (by omega)]
      push_cast
      ring
    · rw [Nat.cast_sub (by omega)]
      push_cast
      ring
  have hhi : ((4 * x.m + 2 : Nat) : ℚ) * 2 ^ (x.q - 2) = (x.m + 1 / 2) * 2 ^ x.q := by
    rw [hquarter]
    push_cast
    ring
  have hlow : cmpScaled d.digits d.exp (if x.narrowBelow then 4 * x.m - 1 else 4 * x.m - 2)
      (x.q - 2) =
        compare d.value ((x.m - (if x.narrowBelow then 1 / 4 else 1 / 2 : ℚ)) * 2 ^ x.q) := by
    rw [cmpScaled_eq, hlo, Digits.value]
  have hhigh : cmpScaled d.digits d.exp (4 * x.m + 2) (x.q - 2) =
      compare d.value ((x.m + 1 / 2) * 2 ^ x.q) := by
    rw [cmpScaled_eq, hhi, Digits.value]
  rw [readsBack]
  simp only [hlow, hhigh, Bool.and_eq_true, Bool.or_eq_true, beq_iff_eq, compare_gt_iff_gt,
    compare_lt_iff_lt, compare_eq_iff_eq]
  constructor
  · rintro ⟨h₁, h₂⟩
    refine ⟨h₁.imp (lt_div_iff₀ hunit).2 (And.imp_right fun h => ?_),
      h₂.imp (div_lt_iff₀ hunit).2 (And.imp_right (div_eq_iff hunit.ne').2)⟩
    exact ((div_eq_iff hunit.ne').2 h).symm
  · rintro ⟨h₁, h₂⟩
    refine ⟨h₁.imp (lt_div_iff₀ hunit).1 (And.imp_right fun h => ?_),
      h₂.imp (div_lt_iff₀ hunit).1 (And.imp_right (div_eq_iff hunit.ne').1)⟩
    exact (div_eq_iff hunit.ne').1 h.symm

/-- What is found on a grid reads back and is on the grid. -/
theorem onGrid_eq_some {g : Int} (h : x.onGrid g = some d) : x.readsBack d = true ∧ d.exp = g := by
  rw [onGrid] at h
  simp only at h
  split at h
  case h_1 hlow hhigh =>
    cases h
    split
    · exact ⟨hlow, rfl⟩
    · exact ⟨hhigh, rfl⟩
  case h_2 hlow hhigh =>
    cases h
    exact ⟨hlow, rfl⟩
  case h_3 hlow hhigh =>
    cases h
    exact ⟨hhigh, rfl⟩
  case h_4 => cases h

theorem value_exact (x : Binary) : x.exact.value = x.value := by
  have hfive : ((5 : ℚ) ^ (-x.q).toNat) * 10 ^ min x.q 0 * 2 ^ x.q.toNat = 2 ^ x.q := by
    rcases le_total 0 x.q with h | h
    · rw [min_eq_right h, show (-x.q).toNat = 0 by omega, pow_zero, zpow_zero, one_mul, one_mul,
        ← zpow_natCast, Int.toNat_of_nonneg h]
    · obtain ⟨k, hk⟩ : ∃ k : Nat, x.q = -k := ⟨(-x.q).toNat, by omega⟩
      rw [min_eq_left h, hk, show (- -(k : Int)).toNat = k by omega,
        show (-(k : Int)).toNat = 0 by omega, pow_zero, mul_one, zpow_neg, zpow_neg, zpow_natCast,
        zpow_natCast, show (10 : ℚ) = 5 * 2 by norm_num, mul_pow, mul_inv,
        mul_inv_cancel_left₀ (by positivity)]
  rw [Digits.value, exact, value, ← hfive]
  change ((x.m * 2 ^ x.q.toNat * 5 ^ (-x.q).toNat : Nat) : ℚ) * 10 ^ min x.q 0 = _
  push_cast
  ring

/-- Where the shortest digits come from: the coarsest grid that has some, or none of the grids. -/
theorem shortest_cases (hm : 0 < x.m) :
    (∃ n : Nat, n < 17 ∧ (∀ i : Nat, i < n → x.onGrid (x.scale - 1 - i) = none) ∧
      ∃ d, x.onGrid (x.scale - 1 - n) = some d ∧ x.shortest = d.strip 400) ∨
    (∀ n : Nat, n < 17 → x.onGrid (x.scale - 1 - n) = none) ∧ x.shortest = x.exact.strip 400 := by
  have hshortest : x.shortest = (((List.range 17).findSome? fun n =>
      x.onGrid (x.scale - 1 - Int.ofNat n)).getD x.exact).strip 400 := by
    rw [shortest, if_neg (Nat.ne_of_gt hm)]
  rw [hshortest]
  cases hfound : (List.range 17).findSome? fun n => x.onGrid (x.scale - 1 - Int.ofNat n) with
  | none =>
    rw [List.findSome?_eq_none_iff] at hfound
    exact .inr ⟨fun n hn => hfound n (List.mem_range.2 hn), rfl⟩
  | some d =>
    obtain ⟨n, hn, hd, hbefore⟩ := exists_of_findSome?_range hfound
    exact .inl ⟨n, hn, hbefore, d, hd, rfl⟩

/-- **The shortest digits are nearest.** -/
theorem shortest_nearest (hm : 0 < x.m) : x.Nearest x.shortest.value := by
  rcases shortest_cases hm with ⟨n, -, -, d, hd, hshortest⟩ | ⟨-, hshortest⟩
  · rw [hshortest, Digits.value_strip]
    exact (readsBack_iff hm).1 (onGrid_eq_some hd).1
  · rw [hshortest, Digits.value_strip, value_exact]
    exact nearest_value x

/-! ## How many places there are -/

/-- The first guess at the scale of a magnitude. -/
theorem scale_cases (x : Binary) {guess : Int}
    (hguess : guess = ((x.m.log2 : Int) + x.q) * 30103 / 100000) :
    (guess - 1 ≤ x.scale ∧ x.scale ≤ guess + 1 ∧ x.value < 10 ^ x.scale) ∨ x.scale = guess + 2 := by
  rw [scale, ← hguess]
  cases hfound : [guess - 1, guess, guess + 1].find? fun k => cmpScaled 1 k x.m x.q == .gt with
  | none => exact .inr rfl
  | some k =>
    have hk := List.find?_some hfound
    rw [beq_iff_eq, cmpScaled_eq, compare_gt_iff_gt, Nat.cast_one, one_mul] at hk
    have hmem := List.mem_of_find?_eq_some hfound
    simp only [List.mem_cons, List.not_mem_nil, or_false] at hmem
    exact .inl ⟨by simp only [Option.getD_some]; omega, by simp only [Option.getD_some]; omega, hk⟩

theorem le_shortest_exp (hm : 0 < x.m) (hleast : -1074 ≤ x.q) : -1074 ≤ x.shortest.exp := by
  rcases shortest_cases hm with ⟨n, hn, -, d, hd, hshortest⟩ | ⟨-, hshortest⟩
  · have hexp := (onGrid_eq_some hd).2
    have hstrip := d.exp_le_strip 400
    have hscale : -325 ≤ x.scale := by
      rcases scale_cases x rfl with h | h <;> omega
    rw [hshortest]
    omega
  · have hstrip := x.exact.exp_le_strip 400
    have hexp : x.exact.exp = min x.q 0 := rfl
    rw [hshortest]
    omega

/-- The integer part of a whole number is the number. -/
theorem value_of_isWhole (h : x.isWhole = true) : x.value = x.wholePart := by
  rw [isWhole, Bool.or_eq_true, decide_eq_true_iff, beq_iff_eq] at h
  rw [value, wholePart, shift]
  by_cases hq : 0 ≤ x.q
  · obtain ⟨k, hk⟩ := Int.eq_ofNat_of_zero_le hq
    rw [if_pos hq, hk, Int.toNat_natCast, zpow_natCast]
    exact_mod_cast rfl
  · obtain ⟨k, hk⟩ : ∃ k : Nat, x.q = -k := ⟨(-x.q).toNat, by omega⟩
    have hdvd := Nat.dvd_of_mod_eq_zero (h.resolve_left hq)
    rw [hk, show (- -(k : Int)).toNat = k by omega] at hdvd
    rw [if_neg hq, hk, show (- -(k : Int)).toNat = k by omega, zpow_neg, zpow_natCast,
      ← div_eq_mul_inv]
    obtain ⟨n, hn⟩ := hdvd
    change x.m = 2 ^ k * n at hn
    change (x.m : ℚ) / 2 ^ k = (x.m / 2 ^ k : Nat)
    rw [hn, Nat.mul_div_cancel_left n (Nat.two_pow_pos k)]
    push_cast
    rw [mul_div_cancel_left₀ _ (by positivity)]

/-- On the grid of the units there is a whole number itself. -/
theorem onGrid_zero (hm : 0 < x.m) (h : x.isWhole = true) : x.onGrid 0 ≠ none := by
  have hlow : x.readsBack
      ⟨x.m * 2 ^ x.q.toNat * 10 ^ 0 / (2 ^ (-x.q).toNat * 10 ^ 0), 0⟩ = true := by
    rw [readsBack_iff hm, Digits.value, zpow_zero, mul_one, pow_zero, mul_one, mul_one]
    have hwhole : x.m * 2 ^ x.q.toNat / 2 ^ (-x.q).toNat = x.wholePart := by
      rw [wholePart, shift]
      split
      case isTrue hq =>
        rw [show (-x.q).toNat = 0 by omega, pow_zero, Nat.div_one]
        rfl
      case isFalse hq =>
        rw [show x.q.toNat = 0 by omega, pow_zero, Nat.mul_one]
        rfl
    rw [hwhole, ← value_of_isWhole h]
    exact nearest_value x
  rw [onGrid, overGrid]
  simp only
  intro hnone
  split at hnone
  · cases hnone
  · cases hnone
  · cases hnone
  case h_4 hfalse _ => exact absurd (hfalse.symm.trans hlow) (by decide)

/-- **Whole numbers have no places.** -/
theorem shortest_exp_nonneg (hhigh : x.m < 2 ^ 53) (h : x.isWhole = true) :
    0 ≤ x.shortest.exp := by
  rcases Nat.eq_zero_or_pos x.m with hm | hm
  · rw [shortest, if_pos hm]
  have hwhole := value_of_isWhole h
  have hone : 1 ≤ x.value := by
    have hpos : 0 < x.value := mul_pos (by exact_mod_cast hm) (zpow_pos two_pos _)
    rw [hwhole] at hpos ⊢
    exact_mod_cast hpos
  have hlog : 0 ≤ (x.m.log2 : Int) + x.q := by
    by_contra hneg
    have hbits : (x.m : ℚ) < 2 ^ (x.m.log2 + 1) := by exact_mod_cast Nat.lt_log2_self
    have hshrink : x.value < 2 ^ ((x.m.log2 : Int) + 1 + x.q) := by
      rw [zpow_add₀ two_ne_zero, value]
      exact mul_lt_mul_of_pos_right (by exact_mod_cast hbits) (zpow_pos two_pos _)
    have hle : (2 : ℚ) ^ ((x.m.log2 : Int) + 1 + x.q) ≤ 1 :=
      zpow_le_one_of_nonpos₀ one_le_two (by omega)
    linarith
  have hscale : 1 ≤ x.scale := by
    rcases scale_cases x rfl with ⟨-, -, hlt⟩ | heq
    · by_contra hneg
      have : (10 : ℚ) ^ x.scale ≤ 1 := zpow_le_one_of_nonpos₀ (by norm_num) (by omega)
      linarith
    · omega
  rcases shortest_cases hm with ⟨n, hn, hbefore, d, hd, hshortest⟩ | ⟨hnone, hshortest⟩
  · -- the grid of the units comes before those with places
    have hexp := (onGrid_eq_some hd).2
    have hstrip := d.exp_le_strip 400
    have hfew : (n : Int) ≤ x.scale - 1 := by
      by_contra hmany
      refine onGrid_zero hm h ?_
      have := hbefore (x.scale - 1).toNat (by omega)
      rwa [show x.scale - 1 - ((x.scale - 1).toNat : Int) = 0 by omega] at this
    rw [hshortest]
    omega
  · -- the grids end above the units, so the number has no places as it is
    have hexp : x.exact.exp = min x.q 0 := rfl
    have hstrip := x.exact.exp_le_strip 400
    have hmany : 18 ≤ x.scale := by
      by_contra hfew
      refine onGrid_zero hm h ?_
      have := hnone (x.scale - 1).toNat (by omega)
      rwa [show x.scale - 1 - ((x.scale - 1).toNat : Int) = 0 by omega] at this
    have hq : 0 ≤ x.q := by
      have hbits : x.m.log2 ≤ 52 := by
        have := (Nat.log2_lt (Nat.ne_of_gt hm)).2 hhigh
        omega
      rcases scale_cases x rfl with h | h <;> omega
    rw [hshortest]
    omega

end Binary

end BlockMachine.Decimal
