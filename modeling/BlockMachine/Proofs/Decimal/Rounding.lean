import BlockMachine.Proofs.Decimal.Divisions

/-!
# Quotients that are rounded

The quotient of two integers need not be a double, and then it is rounded. For integers below `2^26`
in magnitude rounding is too fine to reach the next integer, so that what is in front of the point
is that of the exact quotient.

* `exists_nearest` — every number within the normal range is nearest to some double;
* `Binary.Nearest.wholePart` — what is in front of the point of a rounded quotient;
* `form_trunc` — what is left when the places behind the point are cut off; `Form.trunc_div` — of a
  rounded quotient that is the integer quotient.
-/

namespace BlockMachine.Decimal

open Float.Model (Format UnpackedFloat)
open Float.Model.UnpackedFloat (Sign)

/-! ## The nearest double -/

section

variable {v : ℚ} {e : Int} {k : Nat}

/-- A number is nearest to the double below it if it is not more than half a place above that. -/
theorem exists_nearest_below (hlow : 2 ^ 52 ≤ k) (hhigh : k < 2 ^ 53) (hleast : -1074 ≤ e)
    (hmost : e < 971) (hle : (k : ℚ) ≤ v / 2 ^ e)
    (hdown : v / 2 ^ e < k + 1 / 2 ∨ k % 2 = 0 ∧ v / 2 ^ e = k + 1 / 2) :
    ∃ x : Binary, x.IsDouble ∧ x.Nearest v := by
  refine ⟨⟨k, e, decide (k = 2 ^ 52 ∧ -1074 < e)⟩, ⟨?_, hhigh, hleast, hmost.le, .inl hlow, ?_⟩,
    .inl ?_, hdown⟩
  · exact Nat.lt_of_lt_of_le (Nat.two_pow_pos 52) hlow
  · rw [decide_eq_true_iff]
  · dsimp only
    split <;> linarith

/-- And to the double above it if it is not less than half a place above the one below. If all bits
of that one are set, the double above it is a power of two. -/
theorem exists_nearest_above (hlow : 2 ^ 52 ≤ k) (hhigh : k < 2 ^ 53) (hleast : -1074 ≤ e)
    (hmost : e < 971) (hlt : v / 2 ^ e < k + 1)
    (hup : (k : ℚ) + 1 / 2 < v / 2 ^ e ∨ (k + 1) % 2 = 0 ∧ (k : ℚ) + 1 / 2 = v / 2 ^ e) :
    ∃ x : Binary, x.IsDouble ∧ x.Nearest v := by
  rcases Nat.lt_or_eq_of_le (Nat.succ_le_of_lt hhigh) with hroom | htop
  · refine ⟨⟨k + 1, e, false⟩, ⟨Nat.succ_pos k, hroom, hleast, hmost.le,
      .inl (hlow.trans (Nat.le_succ k)), ?_⟩, ?_, .inl ?_⟩
    · simp only [Bool.false_eq_true, false_iff, not_and]
      intro heq
      omega
    · have hsplit : ((k + 1 : Nat) : ℚ) - 1 / 2 = k + 1 / 2 := by
        push_cast
        ring
      simp only [Bool.false_eq_true, if_false, hsplit]
      exact hup
    · push_cast
      linarith
  · have hvalue : v / 2 ^ (e + 1) = v / 2 ^ e / 2 := by
      rw [zpow_add₀ two_ne_zero, zpow_one, ← div_div]
    have hk : (k : ℚ) + 1 = 2 ^ 53 := by exact_mod_cast htop
    have hbits : (2 : Nat) ^ 52 < 2 ^ 53 := by decide
    refine ⟨⟨2 ^ 52, e + 1, true⟩, ⟨Nat.two_pow_pos 52, hbits, by dsimp only; omega,
      by dsimp only; omega, .inl (Nat.le_refl _), ?_⟩, ?_, .inl ?_⟩
    · simp only [true_iff, true_and]
      omega
    · simp only [if_true, hvalue]
      push_cast
      rcases hup with h | ⟨-, h⟩
      · left
        linarith
      · right
        exact ⟨by decide, by linarith⟩
    · dsimp only
      rw [hvalue]
      push_cast
      linarith

/-- A number with 53 bits in front of the point of its mantissa. -/
theorem exists_nearest_of_place (hlow : 2 ^ 52 ≤ v / 2 ^ e) (hhigh : v / 2 ^ e < 2 ^ 53)
    (hleast : -1074 ≤ e) (hmost : e < 971) : ∃ x : Binary, x.IsDouble ∧ x.Nearest v := by
  obtain ⟨k, hk, hk'⟩ : ∃ k : Nat, (k : ℚ) ≤ v / 2 ^ e ∧ v / 2 ^ e < k + 1 :=
    ⟨_, Nat.floor_le (le_trans (by positivity) hlow), Nat.lt_floor_add_one _⟩
  have hklow : 2 ^ 52 ≤ k := by
    have : (2 : ℚ) ^ 52 < k + 1 := lt_of_le_of_lt hlow hk'
    exact Nat.lt_succ_iff.1 (by exact_mod_cast this)
  have hkhigh : k < 2 ^ 53 := by exact_mod_cast lt_of_le_of_lt hk hhigh
  rcases lt_trichotomy (v / 2 ^ e) (k + 1 / 2) with hless | htie | hmore
  · exact exists_nearest_below hklow hkhigh hleast hmost hk (.inl hless)
  · -- of the two, one is even
    rcases Nat.mod_two_eq_zero_or_one k with heven | hodd
    · exact exists_nearest_below hklow hkhigh hleast hmost hk (.inr ⟨heven, htie⟩)
    · exact exists_nearest_above hklow hkhigh hleast hmost hk' (.inr ⟨by omega, htie.symm⟩)
  · exact exists_nearest_above hklow hkhigh hleast hmost hk' (.inl hmore)

end

/-- **Rounding.** Every number within the range of the normal forms is nearest to some double. -/
theorem exists_nearest {v : ℚ} (hlow : 2 ^ (-1022 : Int) ≤ v) (hhigh : v < 2 ^ (1023 : Int)) :
    ∃ x : Binary, x.IsDouble ∧ x.Nearest v := by
  have hpos : 0 < v := lt_of_lt_of_le (zpow_pos two_pos _) hlow
  have hbase : ((2 : Nat) : ℚ) = 2 := Nat.cast_ofNat
  have hbelow := Int.zpow_log_le_self (b := 2) (by decide) hpos
  have habove := Int.lt_zpow_succ_log_self (b := 2) (by decide) v
  have hleast : -1022 ≤ Int.log 2 v :=
    (Int.zpow_le_iff_le_log (by decide) hpos).1 (by rwa [hbase])
  have hmost : Int.log 2 v < 1023 :=
    (Int.lt_zpow_iff_log_lt (by decide) hpos).1 (by rwa [hbase])
  rw [hbase] at hbelow habove
  generalize Int.log 2 v = l at hbelow habove hleast hmost
  have hunit : (0 : ℚ) < 2 ^ (l - 52) := zpow_pos two_pos _
  refine exists_nearest_of_place (e := l - 52) ?_ ?_ (by omega) (by omega)
  · rw [le_div_iff₀ hunit, ← zpow_natCast, ← zpow_add₀ two_ne_zero]
    rwa [show ((52 : Nat) : Int) + (l - 52) = l by omega]
  · rw [div_lt_iff₀ hunit, ← zpow_natCast, ← zpow_add₀ two_ne_zero]
    rwa [show ((53 : Nat) : Int) + (l - 52) = l + 1 by omega]

/-! ## In front of the point -/

/-- **Rounded quotients.** Below `2^26` a rounded quotient has the integer part of the quotient:
half a place is less than what is missing to the next integer. -/
theorem Binary.Nearest.wholePart {x : Binary} {p q : Nat} (hv : x.Nearest (p / q))
    (hx : x.IsDouble) (hp : p < 2 ^ 26) (hq : q < 2 ^ 26) (hpos : 0 < q) :
    x.wholePart = p / q := by
  have hq0 : (0 : ℚ) < q := by exact_mod_cast hpos
  have hlow : (x.m : ℚ) - 1 / 2 ≤ p / q / 2 ^ x.q := by
    rcases hv.half_low with h | ⟨-, h⟩
    · exact h.le
    · exact h.le
  have hhigh : (p : ℚ) / q / 2 ^ x.q ≤ x.m + 1 / 2 := by
    rcases hv.high with h | ⟨-, h⟩
    · exact h.le
    · exact h.le
  -- there are places behind the point
  obtain ⟨c, hc⟩ : ∃ c : Nat, x.q = -c := by
    refine ⟨(-x.q).toNat, ?_⟩
    by_contra hlarge
    have hfull : (2 : ℚ) ^ 52 ≤ x.m := by exact_mod_cast hx.normal.resolve_right (by omega)
    have hone : (1 : ℚ) ≤ 2 ^ x.q := one_le_zpow₀ one_le_two (by omega)
    have hle : (p : ℚ) / q / 2 ^ x.q ≤ p := by
      refine (div_le_self (by positivity) hone).trans (div_le_self (Nat.cast_nonneg p) ?_)
      exact_mod_cast hpos
    have hless : (p : ℚ) < 2 ^ 26 := by exact_mod_cast hp
    linarith
  have hscaled : (p : ℚ) / q / 2 ^ x.q = p * 2 ^ c / q := by
    rw [hc, zpow_neg, zpow_natCast, div_inv_eq_mul, div_mul_eq_mul_div]
  rw [hscaled, le_div_iff₀ hq0] at hlow
  rw [hscaled, div_le_iff₀ hq0] at hhigh
  replace hlow : 2 * (x.m * q) ≤ 2 * (p * 2 ^ c) + q := by
    have : (2 * (x.m * q) : ℚ) ≤ 2 * (p * 2 ^ c) + q := by linarith
    exact_mod_cast this
  replace hhigh : 2 * (p * 2 ^ c) ≤ 2 * (x.m * q) + q := by
    have : (2 * (p * 2 ^ c) : ℚ) ≤ 2 * (x.m * q) + q := by linarith
    exact_mod_cast this
  have hbits : 2 ^ 26 ≤ 2 ^ c := by
    rcases hx.normal with hfull | hleast
    · have hmq : 2 ^ 52 * q ≤ x.m * q := Nat.mul_le_mul_right q hfull
      have hpc : p * 2 ^ c ≤ (2 ^ 26 - 1) * 2 ^ c := Nat.mul_le_mul_right _ (by omega)
      omega
    · exact Nat.pow_le_pow_right (by decide) (by omega)
  have hdown : p / q * q ≤ p := Nat.div_mul_le_self p q
  have hup : p < (p / q + 1) * q := by
    rw [Nat.add_mul, Nat.one_mul]
    exact Nat.lt_div_mul_add hpos
  rw [Binary.wholePart, hc, shift_neg]
  generalize p / q = k at hdown hup
  refine Nat.div_eq_of_lt_le ?_ ?_
  · by_contra hless
    have hstep : (x.m + 1) * q ≤ k * 2 ^ c * q := Nat.mul_le_mul_right q (by omega)
    have hkp : k * 2 ^ c * q ≤ p * 2 ^ c := by
      calc k * 2 ^ c * q = k * q * 2 ^ c := by ring
        _ ≤ p * 2 ^ c := Nat.mul_le_mul_right _ hdown
    rw [Nat.add_mul, Nat.one_mul] at hstep
    omega
  · by_contra hmore
    have hstep : (k + 1) * 2 ^ c * q ≤ x.m * q := Nat.mul_le_mul_right q (by omega)
    have hkp : (p + 1) * 2 ^ c ≤ (k + 1) * 2 ^ c * q := by
      calc (p + 1) * 2 ^ c ≤ (k + 1) * q * 2 ^ c := Nat.mul_le_mul_right _ hup
        _ = (k + 1) * 2 ^ c * q := by ring
    rw [Nat.add_mul, Nat.one_mul] at hkp
    omega

theorem exists_nearest_div {n k : Nat} (hn : 0 < n) (hk : 0 < k) (hn' : n < 2 ^ 26)
    (hk' : k < 2 ^ 26) :
    ∃ x : Binary, x.IsDouble ∧ x.Nearest (n / k) ∧ x.wholePart = n / k := by
  have hk0 : (0 : ℚ) < k := by exact_mod_cast hk
  have hn1 : (1 : ℚ) ≤ n := by exact_mod_cast hn
  have hlow : (2 : ℚ) ^ (-1022 : Int) ≤ n / k := by
    have hsmall : (k : ℚ) ≤ 2 ^ (26 : Int) := by exact_mod_cast hk'.le
    calc (2 : ℚ) ^ (-1022 : Int) ≤ 2 ^ (-(26 : Int)) :=
          zpow_le_zpow_right₀ one_le_two (by decide)
      _ = 1 / 2 ^ (26 : Int) := by rw [zpow_neg, one_div]
      _ ≤ 1 / k := one_div_le_one_div_of_le hk0 hsmall
      _ ≤ n / k := (div_le_div_iff_of_pos_right hk0).2 hn1
  have hhigh : (n / k : ℚ) < 2 ^ (1023 : Int) := by
    have hsmall : (n : ℚ) < 2 ^ (26 : Int) := by exact_mod_cast hn'
    calc (n / k : ℚ) ≤ n := div_le_self (Nat.cast_nonneg n) (by exact_mod_cast hk)
      _ < 2 ^ (26 : Int) := hsmall
      _ ≤ 2 ^ (1023 : Int) := zpow_le_zpow_right₀ one_le_two (by decide)
  obtain ⟨x, hx, hnearest⟩ := exists_nearest hlow hhigh
  exact ⟨x, hx, hnearest, hnearest.wholePart hx hn' hk' hk⟩

/-! ## Cutting off -/

/-- Only whole doubles have an integer part that is not counted exactly. -/
theorem wholePart_lt {x : Float} (hx : x.isFinite = true) (h : isWhole x = false) :
    wholePart x < 2 ^ 53 := by
  rw [isWhole, hx, Bool.true_and, Binary.isWhole, Bool.or_eq_false_iff, decide_eq_false_iff_not] at h
  have hm : (Binary.ofFloat x).m < 2 ^ 53 := by
    rw [Binary.ofFloat, exponentWeight]
    split
    · dsimp only
      omega
    · dsimp only
      omega
  rw [wholePart, Binary.wholePart, shift, if_neg h.1]
  exact (Nat.div_le_self _ _).trans_lt hm

/-- **Cutting off** the places behind the point is exact. -/
theorem form_trunc {x : Float} (hx : x.isFinite = true) :
    Form (integer x) (trunc x).toModel.unpack := by
  rw [trunc, roundBy, hx]
  cases h : isWhole x with
  | true => exact form_integer h
  | false =>
    have hform := form_ofNat (wholePart_lt hx h).le
    simp only [Bool.not_true, Bool.or_false, Bool.false_eq_true, if_false, Nat.add_zero, signed,
      integer]
    split
    · exact hform.neg
    · exact hform

theorem integer_float {b : Binary} (hb : b.IsDouble) (s : Sign) :
    integer (hb.float s) = s.apply b.wholePart := by
  obtain ⟨-, hm, hq⟩ := isDouble_ofFloat (hb.unpack_float s)
  rw [integer, hb.isNegative_float, wholePart, Binary.wholePart, hm, hq]
  cases s <;> rfl

/-- The sign of a quotient. -/
theorem apply_tdiv (s t : Sign) (n k : Nat) :
    (s.apply n).tdiv (t.apply k) = (s / t).apply (n / k : Nat) := by
  cases s <;> cases t <;> simp [Sign.apply, Int.neg_tdiv, Int.tdiv_neg] <;> rfl

/-- **The integer part of a quotient.** -/
theorem Form.trunc_div {x y : Float} {z w : Int} (hx : Form z x.toModel.unpack)
    (hy : Form w y.toModel.unpack) (hz : z.natAbs < 2 ^ 26) (hw : w.natAbs < 2 ^ 26)
    (hne : w ≠ 0) : Form (z.tdiv w) (trunc (x / y)).toModel.unpack := by
  suffices hquotient : (x / y).isFinite = true ∧ Decimal.integer (x / y) = z.tdiv w by
    rw [← hquotient.2]
    exact form_trunc hquotient.1
  rcases eq_or_ne z 0 with rfl | hzero
  · have hform : Form 0 (x / y).toModel.unpack := Form.div (w := w) (by rwa [Int.zero_mul]) hy hne
    rw [Int.zero_tdiv]
    exact ⟨isFinite_of hform.isNaN_isInf.1 hform.isNaN_isInf.2, hform.integer⟩
  · rw [div_eq]
    generalize x.toModel.unpack = u at hx
    generalize y.toModel.unpack = v at hy
    cases hx with
    | zero s => exact absurd rfl hzero
    | @finite s n m e h pos =>
      cases hy with
      | zero t => exact absurd rfl hne
      | @finite t k m' e' h' pos' =>
        rw [natAbs_apply] at hz hw
        obtain ⟨b, hb, hnearest, hwhole⟩ := exists_nearest_div pos pos' hz hw
        rw [← h.cast_value, ← h'.cast_value] at hnearest
        rw [div_nearest hb hnearest h.pos h'.pos]
        change (hb.float (s / t)).isFinite = true ∧ Decimal.integer (hb.float (s / t)) = _
        rw [integer_float, hwhole, apply_tdiv]
        exact ⟨isFinite_of (hb.isNaN_float _) (hb.isInf_float _), rfl⟩

end BlockMachine.Decimal
