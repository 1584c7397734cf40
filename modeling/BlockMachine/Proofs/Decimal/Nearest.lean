import BlockMachine.Decimal.Shortest
import BlockMachine.Proofs.Decimal.Whole

/-!
# The double nearest to a number

A double is the result of rounding exactly the numbers that are nearest to it, where a number in the
middle between two doubles goes to the one with the even mantissa.

* `Binary.value` — a magnitude as a rational number;
* `Binary.IsDouble` — the magnitudes that doubles have, `isDouble_ofFloat`;
* `Binary.Nearest` — the numbers that are nearest to a magnitude;
* `Represents` — what the mantissa and the two bits behind it say of a number;
* `roundWithAccuracy_nearest` — rounding gives the nearest double, `mul_nearest`, `div_nearest` —
  so do products and quotients;
* `pack_unpack` — taking a double apart and putting it together again, and the other way round,
  `Binary.IsDouble.unpack_pack`.
-/

namespace BlockMachine.Decimal

open Float.Model (Format UnpackedFloat totalExponent)
open Float.Model.UnpackedFloat (Sign ExtendedMantissa Accuracy)

/-! ## Magnitudes -/

namespace Binary

/-- The magnitude as a number. -/
def value (x : Binary) : ℚ :=
  x.m * 2 ^ x.q

/-- The magnitudes that doubles other than zero have. -/
structure IsDouble (x : Binary) : Prop where
  pos : 0 < x.m
  high : x.m < 2 ^ 53
  least : -1074 ≤ x.q
  most : x.q ≤ 971
  normal : 2 ^ 52 ≤ x.m ∨ x.q = -1074
  narrow : x.narrowBelow = true ↔ x.m = 2 ^ 52 ∧ -1074 < x.q

/-- The numbers that are nearest to a magnitude, measured in its last place: they go half a place up
and half a place down, or a quarter where the places below are half as wide. The ends belong to even
mantissas. -/
structure Nearest (x : Binary) (v : ℚ) : Prop where
  low : (x.m : ℚ) - (if x.narrowBelow then 1 / 4 else 1 / 2) < v / 2 ^ x.q ∨
    x.m % 2 = 0 ∧ (x.m : ℚ) - (if x.narrowBelow then 1 / 4 else 1 / 2) = v / 2 ^ x.q
  high : v / 2 ^ x.q < x.m + 1 / 2 ∨ x.m % 2 = 0 ∧ v / 2 ^ x.q = x.m + 1 / 2

variable {x : Binary}

theorem value_div (x : Binary) : x.value / 2 ^ x.q = x.m := by
  rw [value, mul_div_assoc, div_self (zpow_ne_zero _ two_ne_zero), mul_one]

/-- A magnitude is nearest to itself. -/
theorem nearest_value (x : Binary) : x.Nearest x.value := by
  constructor
  · left
    rw [value_div]
    split <;> linarith
  · left
    rw [value_div]
    linarith

end Binary

/-! ## Bits behind the mantissa -/

/-- What a mantissa and the two bits behind it say of a number: its integer part, whether it is at
least half a unit more, and whether anything is left then. -/
def Represents (em : ExtendedMantissa) (u : ℚ) : Prop :=
  match em.roundBit, em.stickyBit with
  | false, false => u = em.mantissa
  | false, true => em.mantissa < u ∧ u < em.mantissa + 1 / 2
  | true, false => u = em.mantissa + 1 / 2
  | true, true => em.mantissa + 1 / 2 < u ∧ u < em.mantissa + 1

namespace Represents

variable {em : ExtendedMantissa} {u : ℚ}

theorem mantissa_ofMantissaAndAccuracy (m : Nat) (acc : Accuracy) :
    (ExtendedMantissa.ofMantissaAndAccuracy m acc).mantissa = m := by
  cases acc with
  | exact => rfl
  | inexact o => cases o <;> rfl

theorem exact (m : Nat) : Represents (.ofMantissaAndAccuracy m .exact) m :=
  rfl

theorem le (h : Represents em u) : em.mantissa ≤ u := by
  obtain ⟨m, r, s⟩ := em
  cases r <;> cases s <;> simp only [Represents] at h <;> grind

theorem lt (h : Represents em u) : u < em.mantissa + 1 := by
  obtain ⟨m, r, s⟩ := em
  cases r <;> cases s <;> simp only [Represents] at h <;> grind

theorem shiftRightOne (h : Represents em u) : Represents em.shiftRightOne (u / 2) := by
  obtain ⟨m, r, s⟩ := em
  obtain ⟨k, rfl | rfl⟩ := Nat.even_or_odd' m
  · have hdiv : 2 * k / 2 = k := by omega
    have hmod : 2 * k % 2 = 0 := by omega
    cases r <;> cases s <;>
      simp only [Represents, ExtendedMantissa.shiftRightOne, hdiv, hmod, Nat.cast_mul,
        Nat.cast_ofNat] at h ⊢ <;>
      grind
  · have hdiv : (2 * k + 1) / 2 = k := by omega
    have hmod : (2 * k + 1) % 2 = 1 := by omega
    cases r <;> cases s <;>
      simp only [Represents, ExtendedMantissa.shiftRightOne, hdiv, hmod, Nat.cast_add,
        Nat.cast_mul, Nat.cast_ofNat, Nat.cast_one] at h ⊢ <;>
      grind

theorem shiftRight (h : Represents em u) (k : Nat) : Represents (em >>> k) (u / 2 ^ k) := by
  induction k with
  | zero =>
    rw [pow_zero, div_one]
    exact h
  | succ k ih =>
    have hstep : em >>> (k + 1) = (em >>> k).shiftRightOne := rfl
    rw [hstep, pow_succ, ← div_div]
    exact ih.shiftRightOne

/-- The rounded mantissa is the nearest natural number, of two the even one. -/
theorem roundedMantissa_eq (h : Represents em u) {n : Nat}
    (hlow : (n : ℚ) - 1 / 2 < u ∨ n % 2 = 0 ∧ (n : ℚ) - 1 / 2 = u)
    (hhigh : u < n + 1 / 2 ∨ n % 2 = 0 ∧ u = n + 1 / 2) : em.roundedMantissa = n := by
  have hle := h.le
  have hlt := h.lt
  obtain ⟨m, r, s⟩ := em
  dsimp only at hle hlt
  have hupper : n ≤ m + 1 := by
    have : (n : ℚ) < m + 2 := by grind
    exact Nat.lt_succ_iff.1 (by exact_mod_cast this)
  have hlower : m ≤ n := by
    have : (m : ℚ) < n + 1 := by grind
    exact Nat.lt_succ_iff.1 (by exact_mod_cast this)
  obtain rfl | rfl : n = m ∨ n = m + 1 := by omega
  · cases r <;> cases s <;> simp only [Represents] at h <;>
      simp only [ExtendedMantissa.roundedMantissa, ExtendedMantissa.accuracy,
        Accuracy.roundToNearestEven]
    all_goals grind
  · push_cast at hlow hhigh
    cases r <;> cases s <;> simp only [Represents] at h <;>
      simp only [ExtendedMantissa.roundedMantissa, ExtendedMantissa.accuracy,
        Accuracy.roundToNearestEven]
    all_goals grind

end Represents

/-! ## Rounding -/

section

variable {x : Binary}

/-- The place of the last digit of a double is where rounding puts it. -/
theorem Binary.IsDouble.targetExponent (hx : x.IsDouble) :
    Format.binary64.targetExponent (totalExponent x.m x.q) = x.q := by
  have hpos := hx.pos
  have hhigh := hx.high
  have hleast := hx.least
  have hlog : x.m.log2 ≤ 52 := by
    have := (Nat.log2_lt (Nat.ne_of_gt hpos)).2 hhigh
    omega
  rw [targetExponent_binary64, totalExponent]
  rcases hx.normal with hlow | hleast'
  · have := (Nat.le_log2 (Nat.ne_of_gt hpos)).2 hlow
    omega
  · omega

namespace Binary.Nearest

variable {v : ℚ}

/-- The numbers nearest to a double are at most half a place away. -/
theorem half_low (hv : x.Nearest v) :
    (x.m : ℚ) - 1 / 2 < v / 2 ^ x.q ∨ x.m % 2 = 0 ∧ (x.m : ℚ) - 1 / 2 = v / 2 ^ x.q := by
  have hlow := hv.low
  split at hlow
  · left
    rcases hlow with h | ⟨-, h⟩ <;> linarith
  · exact hlow

theorem div_two_zpow (v : ℚ) (a b : Int) : v / 2 ^ a = v / 2 ^ b * 2 ^ (b - a) := by
  rw [zpow_sub₀ two_ne_zero, ← mul_div_assoc, div_mul_cancel₀ _ (zpow_ne_zero _ two_ne_zero)]

/-- The last place of a number is that of the nearest double, unless the number is just below a
power of two: then its last place is half as wide. -/
theorem place (hx : x.IsDouble) (hv : x.Nearest v) {t : Int} (ht : -1074 ≤ t)
    (hlow : t = -1074 ∨ 2 ^ 52 ≤ v / 2 ^ t) (hhigh : v / 2 ^ t < 2 ^ 53) :
    t = x.q ∨ t = x.q - 1 ∧ x.m = 2 ^ 52 ∧ 2 ^ 53 - 1 / 2 ≤ v / 2 ^ t := by
  have hleast := hx.least
  have hm : (x.m : ℚ) + 1 ≤ 2 ^ 53 := by
    have := hx.high
    exact_mod_cast this
  have hup : v / 2 ^ x.q < 2 ^ 53 := by
    rcases hv.high with h | ⟨-, h⟩ <;> linarith
  rcases lt_trichotomy t x.q with hlt | heq | hgt
  · right
    have hnormal := hx.normal.resolve_right (by omega)
    have hnormal' : (2 : ℚ) ^ 52 ≤ x.m := by exact_mod_cast hnormal
    have hshrink : ∀ n : Nat, t ≤ x.q - n → v / 2 ^ x.q < 2 ^ 53 / 2 ^ n := by
      intro n hn
      have hpow : (2 : ℚ) ^ (t - x.q) ≤ 2 ^ (-(n : Int)) :=
        zpow_le_zpow_right₀ one_le_two (by omega)
      rw [zpow_neg, zpow_natCast, ← one_div] at hpow
      calc v / 2 ^ x.q = v / 2 ^ t * 2 ^ (t - x.q) := div_two_zpow v _ _
        _ < 2 ^ 53 * 2 ^ (t - x.q) := mul_lt_mul_of_pos_right hhigh (zpow_pos two_pos _)
        _ ≤ 2 ^ 53 * (1 / 2 ^ n) := mul_le_mul_of_nonneg_left hpow (by positivity)
        _ = 2 ^ 53 / 2 ^ n := by rw [mul_one_div]
    have hbelow := hshrink 1 (by omega)
    have hmax : (x.m : ℚ) < 2 ^ 52 + 1 := by
      rcases hv.half_low with h | ⟨-, h⟩ <;> linarith
    have hm52 : x.m = 2 ^ 52 := Nat.le_antisymm (Nat.lt_succ_iff.1 (by exact_mod_cast hmax)) hnormal
    have hquarter : (2 : ℚ) ^ 52 - 1 / 4 ≤ v / 2 ^ x.q := by
      have hlow := hv.low
      rw [if_pos (hx.narrow.2 ⟨hm52, by omega⟩), hm52] at hlow
      push_cast at hlow
      rcases hlow with h | ⟨-, h⟩ <;> linarith
    have hplace : t = x.q - 1 := by
      by_contra hne
      have := hshrink 2 (by omega)
      linarith
    refine ⟨hplace, hm52, ?_⟩
    rw [div_two_zpow v t x.q, hplace, show x.q - (x.q - 1) = 1 by omega, zpow_one]
    linarith
  · exact .inl heq
  · exfalso
    have hbits := hlow.resolve_left (by omega)
    have hpow : (2 : ℚ) ^ (1 : Int) ≤ 2 ^ (t - x.q) := zpow_le_zpow_right₀ one_le_two (by omega)
    have : 2 ^ 52 * (2 : ℚ) ^ (1 : Int) ≤ v / 2 ^ t * 2 ^ (t - x.q) :=
      mul_le_mul hbits hpow (by positivity) (le_trans (by positivity) hbits)
    rw [← div_two_zpow] at this
    linarith

end Binary.Nearest

/-- **Rounding gives the nearest double.** The number `v`, of which the mantissa and the accuracy
say where it is, has bits enough for the place to which it is rounded. -/
theorem roundWithAccuracy_nearest (hx : x.IsDouble) {v : ℚ} (hv : x.Nearest v) {m : Nat} {e : Int}
    {acc : Accuracy} (hrep : Represents (.ofMantissaAndAccuracy m acc) (v / 2 ^ e))
    (he : e ≤ Format.binary64.targetExponent (totalExponent m e)) (s : Sign) :
    UnpackedFloat.roundWithAccuracy Format.binary64 s m e acc = .finite s x.m x.q hx.pos := by
  have hleast := hx.least
  have htarget := targetExponent_binary64 (totalExponent m e)
  rw [totalExponent] at htarget
  generalize ht : Format.binary64.targetExponent (totalExponent m e) = t at he
  rw [totalExponent] at ht
  rw [ht] at htarget
  obtain ⟨k, rfl⟩ : ∃ k : Nat, t = e + k := ⟨(t - e).toNat, by omega⟩
  generalize hem : ExtendedMantissa.ofMantissaAndAccuracy m acc >>> k = em
  have hscale : v / 2 ^ (e + k) = v / 2 ^ e / 2 ^ k := by
    rw [zpow_add₀ two_ne_zero, zpow_natCast, ← div_div]
  have hrep' : Represents em (v / 2 ^ (e + k)) := by
    rw [hscale, ← hem]
    exact hrep.shiftRight k
  have hmantissa := Represents.mantissa_ofMantissaAndAccuracy m acc
  have hlow : e + k = -1074 ∨ 2 ^ 52 ≤ v / 2 ^ (e + k) := by
    refine or_iff_not_imp_left.2 fun hne => ?_
    have hlog : k + 52 = m.log2 := by omega
    have hbits : 2 ^ (k + 52) ≤ m := by
      rw [hlog]
      refine Nat.log2_self_le fun h0 => ?_
      rw [h0, Nat.log2_zero] at hlog
      omega
    have hle := hrep.le
    rw [hmantissa] at hle
    rw [hscale, le_div_iff₀ (by positivity), ← pow_add, Nat.add_comm]
    exact le_trans (by exact_mod_cast hbits) hle
  have hhigh : v / 2 ^ (e + k) < 2 ^ 53 := by
    have hbits : m + 1 ≤ 2 ^ (53 + k) :=
      Nat.le_trans Nat.lt_log2_self (Nat.pow_le_pow_right (by decide) (by omega))
    have hlt := hrep.lt
    rw [hmantissa] at hlt
    rw [hscale, div_lt_iff₀ (by positivity), ← pow_add]
    exact lt_of_lt_of_le hlt (by exact_mod_cast hbits)
  have hshift : UnpackedFloat.shiftToTargetExponent Format.binary64 m e acc = (em, e + k) := by
    simp only [UnpackedFloat.shiftToTargetExponent, UnpackedFloat.shiftToExponent, totalExponent,
      ht]
    rw [show (e + k - e).toNat = k by omega, hem]
  simp only [UnpackedFloat.roundWithAccuracy, hshift]
  rcases hv.place hx (by omega) hlow hhigh with hq | ⟨hq, hm52, hclose⟩
  · have hrounded : em.roundedMantissa = x.m := by
      rw [hq] at hrep'
      exact hrep'.roundedMantissa_eq hv.half_low hv.high
    simp only [hrounded, hq, shiftToTargetExponent_self hx.targetExponent]
    rw [dif_neg (Nat.ne_of_gt hx.pos)]
  · -- rounding up fills one bit too many
    have hrounded : em.roundedMantissa = 2 ^ 53 := by
      refine hrep'.roundedMantissa_eq ?_ (.inl ?_)
      · push_cast
        rcases hclose.lt_or_eq with h | h
        · exact .inl h
        · exact .inr ⟨by decide, h⟩
      · push_cast
        linarith
    have hnormal : Normal (2 ^ 52) x.q := ⟨Nat.le_refl _, by decide, hleast, hx.most⟩
    have hcarry := shiftToTargetExponent_exact hnormal 1
    rw [show 2 ^ 52 * 2 ^ 1 = 2 ^ 53 by decide, Nat.cast_one] at hcarry
    simp only [hrounded, hq, hcarry, hm52]
    rw [dif_neg (by decide)]

theorem mul_nearest (hx : x.IsDouble) {m₁ m₂ : Nat} {e₁ e₂ : Int}
    (hv : x.Nearest (m₁ * 2 ^ e₁ * (m₂ * 2 ^ e₂))) (h₁ : 0 < m₁) (h₂ : 0 < m₂)
    (hbits : 2 ^ 52 ≤ m₁ * m₂) (s₁ s₂ : Sign) :
    UnpackedFloat.mul Format.binary64 (.finite s₁ m₁ e₁ h₁) (.finite s₂ m₂ e₂ h₂) =
      .finite (s₁ * s₂) x.m x.q hx.pos := by
  refine roundWithAccuracy_nearest hx hv ?_ ?_ _
  · have hvalue : (m₁ * 2 ^ e₁ * (m₂ * 2 ^ e₂) : ℚ) / 2 ^ (e₁ + e₂) = (m₁ * m₂ : Nat) := by
      rw [zpow_add₀ two_ne_zero, mul_mul_mul_comm, Nat.cast_mul]
      exact mul_div_cancel_right₀ _
        (mul_ne_zero (zpow_ne_zero _ two_ne_zero) (zpow_ne_zero _ two_ne_zero))
    rw [hvalue]
    exact .exact _
  · have hlog := (Nat.le_log2 (Nat.mul_ne_zero (Nat.ne_of_gt h₁) (Nat.ne_of_gt h₂))).2 hbits
    rw [targetExponent_binary64, totalExponent]
    omega

/-- A quotient with a remainder says where the number is. -/
theorem represents_div (n : Nat) {d : Nat} (hd : 0 < d) :
    Represents (.ofMantissaAndAccuracy (n / d) (UnpackedFloat.accuracyOfFraction (n % d) d))
      ((n : ℚ) / d) := by
  have hd' : (0 : ℚ) < d := by exact_mod_cast hd
  have hsplit : (n : ℚ) / d = (n / d : Nat) + ((n % d : Nat) : ℚ) / d := by
    rw [div_eq_iff hd'.ne', add_mul, div_mul_cancel₀ _ hd'.ne', mul_comm]
    exact_mod_cast (Nat.div_add_mod n d).symm
  have hmod : n % d < d := Nat.mod_lt n hd
  rw [hsplit, UnpackedFloat.accuracyOfFraction]
  generalize n % d = r at hmod
  have hone : (r : ℚ) / d < 1 := (div_lt_one hd').2 (by exact_mod_cast hmod)
  split
  case isTrue hzero =>
    rw [hzero, Nat.cast_zero, zero_div, add_zero]
    exact .exact _
  case isFalse hzero =>
    have hpos : 0 < (r : ℚ) / d := div_pos (by exact_mod_cast Nat.pos_of_ne_zero hzero) hd'
    have hhalf : (r : ℚ) / d = (2 * r : Nat) / d / 2 := by
      push_cast
      ring
    rcases Nat.lt_trichotomy (2 * r) d with hlt | heq | hgt
    · have : ((2 * r : Nat) : ℚ) / d < 1 := (div_lt_one hd').2 (by exact_mod_cast hlt)
      rw [Nat.compare_eq_lt.2 hlt]
      change ((n / d : Nat) : ℚ) < _ ∧ _ < ((n / d : Nat) : ℚ) + 1 / 2
      exact ⟨by linarith, by linarith⟩
    · have : ((2 * r : Nat) : ℚ) / d = 1 := by rw [heq, div_self hd'.ne']
      rw [Nat.compare_eq_eq.2 heq]
      change ((n / d : Nat) : ℚ) + r / d = (n / d : Nat) + 1 / 2
      linarith
    · have : 1 < ((2 * r : Nat) : ℚ) / d := (one_lt_div hd').2 (by exact_mod_cast hgt)
      rw [Nat.compare_eq_gt.2 hgt]
      change ((n / d : Nat) : ℚ) + 1 / 2 < _ ∧ _ < ((n / d : Nat) : ℚ) + 1
      exact ⟨by linarith, by linarith⟩

theorem div_nearest (hx : x.IsDouble) {m₁ m₂ : Nat} {e₁ e₂ : Int}
    (hv : x.Nearest (m₁ * 2 ^ e₁ / (m₂ * 2 ^ e₂))) (h₁ : 0 < m₁) (h₂ : 0 < m₂) (s₁ s₂ : Sign) :
    UnpackedFloat.div Format.binary64 (.finite s₁ m₁ e₁ h₁) (.finite s₂ m₂ e₂ h₂) =
      .finite (s₁ / s₂) x.m x.q hx.pos := by
  rw [UnpackedFloat.div, UnpackedFloat.divCore]
  generalize ht : min (e₁ - e₂) (Format.binary64.targetExponent
    (totalExponent m₁ e₁ - totalExponent m₂ e₂)) = t
  rw [targetExponent_binary64, totalExponent, totalExponent] at ht
  generalize hk : (e₁ - e₂ - t).toNat = k
  obtain rfl : t = e₁ - e₂ - k := by omega
  refine roundWithAccuracy_nearest hx hv ?_ ?_ _
  · have hvalue : (m₁ * 2 ^ e₁ / (m₂ * 2 ^ e₂) : ℚ) / 2 ^ (e₁ - e₂ - k) =
        (m₁ <<< k : Nat) / m₂ := by
      have h2 : (2 : ℚ) ≠ 0 := two_ne_zero
      have hm₂ : (m₂ : ℚ) ≠ 0 := by exact_mod_cast Nat.ne_of_gt h₂
      rw [Nat.shiftLeft_eq, zpow_sub₀ h2, zpow_sub₀ h2, zpow_natCast]
      push_cast
      field_simp
    rw [hvalue]
    exact represents_div _ h₂
  · -- the quotient has all the bits that are asked for, or its last place is the least
    rw [targetExponent_binary64, totalExponent]
    by_cases hleast : e₁ - e₂ - k ≤ -1074
    · exact le_max_of_le_right hleast
    · have hlogs : m₂.log2 + 1 + 52 ≤ m₁.log2 + k := by omega
      have hbits : 2 ^ 52 ≤ m₁ <<< k / m₂ := by
        rw [Nat.le_div_iff_mul_le h₂, Nat.shiftLeft_eq]
        calc 2 ^ 52 * m₂ ≤ 2 ^ 52 * 2 ^ (m₂.log2 + 1) :=
              Nat.mul_le_mul_left _ (Nat.le_of_lt Nat.lt_log2_self)
          _ = 2 ^ (m₂.log2 + 1 + 52) := by rw [← Nat.pow_add, Nat.add_comm]
          _ ≤ 2 ^ (m₁.log2 + k) := Nat.pow_le_pow_right (by decide) hlogs
          _ = 2 ^ m₁.log2 * 2 ^ k := Nat.pow_add _ _ _
          _ ≤ m₁ * 2 ^ k := Nat.mul_le_mul_right _ (Nat.log2_self_le (Nat.ne_of_gt h₁))
      have hlog := (Nat.le_log2 (by omega)).2 hbits
      omega

/-! ## Packing -/

/-- What is put together of the parts of a bit pattern is the pattern. -/
theorem packComponents_unpack (b : BitVec Format.binary64.numBits) :
    UnpackedFloat.packComponents Format.binary64 (Sign.ofBitVec (UnpackedFloat.unpackSign b))
      (UnpackedFloat.unpackExponent b) (UnpackedFloat.unpackMantissa b) = b := by
  have hsign : ∀ v : BitVec 1, (Sign.ofBitVec v).toBitVec = v := by decide
  refine BitVec.eq_of_toNat_eq ?_
  rw [UnpackedFloat.packComponents, hsign]
  have hs : (UnpackedFloat.unpackSign b).toNat = b.toNat / 2 ^ 63 % 2 := by
    simp [UnpackedFloat.unpackSign, BitVec.extractLsb_toNat, Nat.shiftRight_eq_div_pow]
  have he := toNat_unpackExponent b
  have hm := toNat_unpackMantissa b
  have hb : b.toNat < 2 ^ 64 := b.isLt
  rw [BitVec.toNat_append, BitVec.toNat_append, ← Nat.shiftLeft_add_eq_or_of_lt,
    ← Nat.shiftLeft_add_eq_or_of_lt, hs, he, hm]
  · rw [Nat.shiftLeft_eq, Nat.shiftLeft_eq]
    change (b.toNat / 2 ^ 63 % 2 * 2 ^ 11 + b.toNat / 2 ^ 52 % 2048) * 2 ^ 52 +
      b.toNat % 2 ^ 52 = b.toNat
    omega
  · exact (UnpackedFloat.unpackExponent b).isLt
  · exact (UnpackedFloat.unpackMantissa b).isLt

/-- **Doubles are put together again.** -/
theorem pack_unpack (x : Float.Model) : Float.Model.pack x.unpack = x := by
  suffices hbits : UnpackedFloat.pack Format.binary64 x.unpack = x.toBits.toBitVec by
    obtain ⟨bits, hvalid⟩ := x
    rw [Float.Model.pack, Float.Model.mk.injEq, hbits]
  have hparts := packComponents_unpack x.toBits.toBitVec
  have hnan := x.valid.eq_packedNaN
  rw [Float.Model.unpack, UnpackedFloat.unpack]
  simp only
  generalize x.toBits.toBitVec = b at hparts hnan ⊢
  split
  case isTrue htop =>
    split
    case isTrue hzero =>
      rw [htop, hzero] at hparts
      exact hparts
    case isFalse hzero => exact (hnan htop hzero).symm
  case isFalse htop =>
    have hm := (@UnpackedFloat.unpackMantissa Format.binary64 b).isLt
    have he := (@UnpackedFloat.unpackExponent Format.binary64 b).isLt
    split
    case isTrue hbottom =>
      split
      case isTrue hzero =>
        rw [hbottom, hzero] at hparts
        exact hparts
      case isFalse hzero =>
        have hne : (@UnpackedFloat.unpackMantissa Format.binary64 b).toNat ≠ 0 := fun h0 =>
          hzero (BitVec.eq_of_toNat_eq h0)
        have hlog : (@UnpackedFloat.unpackMantissa Format.binary64 b).toNat.log2 < 52 :=
          (Nat.log2_lt hne).2 hm
        simp only [UnpackedFloat.pack, hbottom]
        rw [if_neg (by decide), if_neg (by change ¬ _ + 1 = 53; omega), BitVec.ofNat_toNat,
          BitVec.setWidth_eq]
        rw [hbottom] at hparts
        exact hparts
    case isFalse hbottom =>
      have hne : (@UnpackedFloat.unpackExponent Format.binary64 b).toNat ≠ 2047 := fun heq =>
        htop (BitVec.eq_of_toNat_eq heq)
      have hfull : (1#1 ++ @UnpackedFloat.unpackMantissa Format.binary64 b).toNat =
          2 ^ 52 + (@UnpackedFloat.unpackMantissa Format.binary64 b).toNat := by
        rw [BitVec.toNat_append, ← Nat.shiftLeft_add_eq_or_of_lt hm]
        rfl
      have hlog : (1#1 ++ @UnpackedFloat.unpackMantissa Format.binary64 b).toNat.log2 = 52 := by
        rw [hfull, Nat.log2_eq_iff (by omega)]
        change _ < 2 ^ 52 at hm
        omega
      have hbiased : (((@UnpackedFloat.unpackExponent Format.binary64 b).toNat : Int) -
          (Format.binary64.exponentBias + Format.binary64.mantissaBitsWithoutImplicit) +
            Format.binary64.exponentBias + Format.binary64.mantissaBitsWithoutImplicit).toNat =
          (@UnpackedFloat.unpackExponent Format.binary64 b).toNat := by
        omega
      simp only [UnpackedFloat.pack]
      rw [hbiased, if_neg (by change ¬ 2048 ≤ _ + 1; change _ < 2048 at he; omega), hlog,
        if_pos (show 52 + 1 = Format.binary64.mantissaBits from rfl), hfull, BitVec.ofNat_toNat,
        BitVec.setWidth_eq]
      have hdrop : BitVec.ofNat 52
          (2 ^ 52 + (@UnpackedFloat.unpackMantissa Format.binary64 b).toNat) =
            @UnpackedFloat.unpackMantissa Format.binary64 b := by
        refine BitVec.eq_of_toNat_eq ?_
        rw [BitVec.toNat_ofNat, Nat.add_mod_left, Nat.mod_eq_of_lt hm]
      rw [hdrop]
      exact hparts

/-- What is packed of a double is unpacked again. -/
theorem Binary.IsDouble.unpack_pack {x : Binary} (hx : x.IsDouble) (s : Sign) :
    (Float.Model.pack (.finite s x.m x.q hx.pos)).unpack = .finite s x.m x.q hx.pos := by
  rcases Nat.lt_or_ge x.m (2 ^ 52) with hsmall | hlow
  · -- below the normal forms
    obtain ⟨m, q, narrow⟩ := x
    have hpos : 0 < m := hx.pos
    obtain rfl : q = -1074 := hx.normal.resolve_left (Nat.not_le.2 hsmall)
    dsimp only at hsmall ⊢
    have hlog : m.log2 < 52 := (Nat.log2_lt (Nat.ne_of_gt hpos)).2 hsmall
    have hpack : UnpackedFloat.pack Format.binary64 (.finite s m (-1074) hpos) =
        UnpackedFloat.packComponents Format.binary64 s 0 (BitVec.ofNat 52 m) := by
      simp only [UnpackedFloat.pack]
      rw [if_neg (by decide), if_neg (by change ¬ _ + 1 = 53; omega)]
      rfl
    have hmantissa : (BitVec.ofNat 52 m).toNat = m := by
      rw [BitVec.toNat_ofNat, Nat.mod_eq_of_lt hsmall]
    have hnotZero : BitVec.ofNat 52 m ≠ 0#52 := by
      intro heq
      have hzero := congrArg BitVec.toNat heq
      rw [hmantissa] at hzero
      exact Nat.ne_of_gt hpos hzero
    change UnpackedFloat.unpack Format.binary64 (UnpackedFloat.pack Format.binary64 _) = _
    rw [hpack, UnpackedFloat.unpack]
    simp only [UnpackedFloat.unpackExponent_packComponents,
      UnpackedFloat.unpackMantissa_packComponents, unpackSign_packComponents, ofBitVec_toBitVec]
    rw [if_neg (by decide), if_pos (show (0 : BitVec 11) = 0#11 from rfl), dif_neg hnotZero]
    congr 1
  · exact Decimal.unpack_pack ⟨hlow, hx.high, hx.least, hx.most⟩ s hx.pos

/-- **The magnitude of a double.** -/
theorem isDouble_ofFloat {x : Float} {s : Sign} {m : Nat} {q : Int} {hm : 0 < m}
    (h : x.toModel.unpack = .finite s m q hm) :
    (Binary.ofFloat x).IsDouble ∧ (Binary.ofFloat x).m = m ∧ (Binary.ofFloat x).q = q := by
  have hagrees := agrees_unpack x
  rw [h] at hagrees
  obtain ⟨hm', hq', hleast, hhigh, hnormal⟩ := hagrees
  have hbits : x.toBits.toNat / 2 ^ 52 % 2048 ≠ 2047 := by
    intro htop
    have hexponent := toNat_unpackExponent x.toModel.toBits.toBitVec
    have hall : @UnpackedFloat.unpackExponent Format.binary64 x.toModel.toBits.toBitVec = -1#11 :=
      BitVec.eq_of_toNat_eq (hexponent.trans htop)
    rw [Float.Model.unpack, UnpackedFloat.unpack] at h
    simp only [hall, if_pos] at h
    split at h <;> cases h
  refine ⟨⟨hm' ▸ hm, hm' ▸ hhigh, hq' ▸ hleast, ?_, by rwa [hm', hq'], ?_⟩, hm', hq'⟩
  · rw [Binary.ofFloat, exponentWeight]
    split
    · exact (by decide : (-1074 : Int) ≤ 971)
    · change ((x.toBits.toNat / 2 ^ 52 % 2048 : Nat) : Int) - 1075 ≤ 971
      omega
  · rw [Binary.ofFloat, exponentWeight]
    split
    · simp
    · simp only [Bool.and_eq_true, beq_iff_eq, decide_eq_true_iff]
      omega

end

end BlockMachine.Decimal
