import BlockMachine.Proofs.Decimal.Integers
import BlockMachine.Proofs.Decimal.Quotients

/-!
# Places that doubles point to

A double is rounded down to a place of a list. If that is between one and a number that doubles
count up to, it is a whole number, and only one.

* `eq_ofNat_of_isWhole` — a whole double from one on is its integer part;
* `floor_mem_iff` — between one and `n` stand the whole numbers from one to `n`;
* `ofNat_injective` — no double is two numbers up to `2^53`.
-/

namespace BlockMachine.Decimal

open Float.Model (Format UnpackedFloat)
open Float.Model.UnpackedFloat (Sign)

variable {x : Float}

/-- A double from one on has no sign, and only an infinity is greater than all whole numbers. -/
theorem finite_of_one_le (hone : 1 ≤ x) (hx : x.isFinite = true) :
    ∃ hx : (Binary.ofFloat x).IsDouble, x = hx.float .positive := by
  rw [le_iff, unpack_one] at hone
  rcases finite_cases hx with ⟨s, rfl⟩ | ⟨hx, s, hs⟩
  · rw [unpack_zero] at hone
    cases hone
  · refine ⟨hx, ?_⟩
    rw [hs, hx.unpack_float] at hone
    cases s with
    | positive => exact hs
    | negative => cases hone

/-- A whole magnitude has the form in which doubles count. -/
theorem Binary.IsDouble.counts {b : Binary} (hb : b.IsDouble) (hlow : 2 ^ 52 ≤ b.m ∨ b.q = -1074)
    (hwhole : b.isWhole = true) : 0 < b.wholePart ∧ Counts b.wholePart b.m b.q := by
  obtain ⟨hpos, hhigh, hleast, hmost⟩ := hb
  have hvalue := Binary.value_of_isWhole hwhole
  have hm : (0 : ℚ) < b.m := by exact_mod_cast hpos
  have hunit : (0 : ℚ) < 2 ^ b.q := zpow_pos two_pos _
  have hone : 0 < b.wholePart := by
    have hvaluePos : (0 : ℚ) < b.value := mul_pos hm hunit
    rw [hvalue] at hvaluePos
    exact_mod_cast hvaluePos
  -- a magnitude below one has no integer part
  have hq : -52 ≤ b.q := by
    by_contra hsmall
    have hle : (2 : ℚ) ^ b.q ≤ 2 ^ (-53 : Int) := zpow_le_zpow_right₀ one_le_two (by omega)
    have hlt : b.value < 1 := by
      calc b.value = b.m * 2 ^ b.q := rfl
        _ ≤ b.m * 2 ^ (-53 : Int) := mul_le_mul_of_nonneg_left hle hm.le
        _ < 2 ^ 53 * 2 ^ (-53 : Int) :=
          mul_lt_mul_of_pos_right (by exact_mod_cast hhigh) (zpow_pos two_pos _)
        _ = 1 := by norm_num
    rw [hvalue] at hlt
    have : b.wholePart < 1 := by exact_mod_cast hlt
    omega
  refine ⟨hone, ⟨⟨hlow.resolve_right (by omega), hhigh, hleast, hmost⟩, hq, ?_⟩⟩
  have hscaled : (b.m : ℚ) * 2 ^ (b.q + 52).toNat = b.wholePart * 2 ^ 52 := by
    rw [← hvalue, Binary.value, mul_assoc, ← zpow_natCast (2 : ℚ) (b.q + 52).toNat,
      ← zpow_natCast (2 : ℚ) 52, ← zpow_add₀ two_ne_zero, Int.toNat_of_nonneg (by omega)]
    rfl
  exact_mod_cast hscaled

/-- **Whole doubles** from one on are the whole numbers that doubles count. -/
theorem eq_ofNat_of_isWhole (hwhole : isWhole x = true) (hone : 1 ≤ x)
    (hle : wholePart x ≤ 2 ^ 53) : 1 ≤ wholePart x ∧ x = Float.ofNat (wholePart x) := by
  rw [isWhole, Bool.and_eq_true] at hwhole
  obtain ⟨hx, hs⟩ := finite_of_one_le hone hwhole.1
  have hunpack : x.toModel.unpack =
      .finite .positive (Binary.ofFloat x).m (Binary.ofFloat x).q hx.pos :=
    (congrArg (·.toModel.unpack) hs).trans (hx.unpack_float .positive)
  have hagrees := agrees_unpack x
  rw [hunpack] at hagrees
  obtain ⟨-, -, -, -, hlow⟩ := hagrees
  obtain ⟨hpos, hcounts⟩ := hx.counts hlow hwhole.2
  refine ⟨hpos, ?_⟩
  have hmodel : x.toModel = (Float.ofNat (wholePart x)).toModel :=
    calc x.toModel = .pack (.finite .positive _ _ hx.pos) := by rw [← hunpack, pack_unpack]
      _ = (Float.ofNat (wholePart x)).toModel := (toModel_ofNat hcounts hpos hle).symm
  exact congrArg Float.ofModel hmodel

/-- A double is rounded down to a whole one, unless it is not finite. -/
theorem isWhole_floor (x : Float) : isWhole (floor x) = true ∨ (floor x).isFinite = false := by
  rw [floor, roundBy]
  split
  case isTrue h =>
    rw [Bool.or_eq_true, Bool.not_eq_true'] at h
    exact h.symm
  case isFalse h =>
    have hsigned : isWhole (signed (isNegative x) (wholePart x + if isNegative x then 1 else 0)) =
        true ∨ (signed (isNegative x) (wholePart x + if isNegative x then 1 else 0)).isInf =
          true := by
      rw [signed]
      split
      · exact isWhole_or_isInf_neg (isWhole_or_isInf_ofNat _)
      · exact isWhole_or_isInf_ofNat _
    refine hsigned.imp_right fun hinf => ?_
    rw [← Bool.not_eq_true]
    exact fun hfinite => not_isInf_of_isFinite hfinite hinf

/-- What is not finite is not between one and a number that doubles count up to. -/
theorem isFinite_of_le {n : Nat} (hn : n ≤ 2 ^ 53) (hone : 1 ≤ x) (hle : x ≤ Float.ofNat n) :
    x.isFinite = true := by
  have hform := form_ofNat hn
  rw [le_iff, unpack_one] at hone
  rw [le_iff] at hle
  rcases float_cases x with rfl | ⟨s, rfl⟩ | ⟨s, rfl⟩ | ⟨hx, s, hs⟩
  · cases hone
  · rw [unpack_infinity] at hone hle
    generalize (Float.ofNat n).toModel.unpack = v at hform hle
    generalize (n : Int) = z at hform
    cases s with
    | negative => cases hone
    | positive =>
      cases hform with
      | zero s => cases hle
      | finite s h pos => cases hle
  · rw [unpack_zero] at hone
    cases hone
  · change x.toModel.unpack.isFinite = true
    rw [hs, hx.unpack_float]
    rfl

theorem wholePart_ofNat {n : Nat} (hn : n ≤ 2 ^ 53) : wholePart (Float.ofNat n) = n := by
  rw [(form_ofNat hn).wholePart, Int.natAbs_natCast]

/-- **Counting is faithful** up to `2^53`. -/
theorem ofNat_injective {i j : Nat} (hi : i ≤ 2 ^ 53) (hj : j ≤ 2 ^ 53)
    (h : Float.ofNat i = Float.ofNat j) : i = j := by
  rw [← wholePart_ofNat hi, h, wholePart_ofNat hj]

/-- **Places.** Rounded down, a double is between one and `n` just if it is one of the whole numbers
from one to `n`. -/
theorem floor_mem_iff {n : Nat} (hn : n ≤ 2 ^ 53) :
    (1 ≤ floor x ∧ floor x ≤ Float.ofNat n) ↔ ∃ i, 1 ≤ i ∧ i ≤ n ∧ floor x = Float.ofNat i := by
  constructor
  · rintro ⟨hone, hle⟩
    have hfinite := isFinite_of_le hn hone hle
    have hwhole : isWhole (floor x) = true :=
      (isWhole_floor x).resolve_right (by rw [hfinite]; exact Bool.noConfusion)
    have hplace := (wholePart_le_of_le hn hone hle).2
    obtain ⟨hpos, heq⟩ := eq_ofNat_of_isWhole hwhole hone (Nat.le_trans hplace hn)
    exact ⟨_, hpos, hplace, heq⟩
  · rintro ⟨i, hpos, hle, heq⟩
    have hi := form_ofNat (Nat.le_trans hle hn)
    have hone : Form (1 : Nat) (1 : Float).toModel.unpack := form_ofNat (n := 1) (by decide)
    rw [heq, hone.le_iff hi, hi.le_iff (form_ofNat hn)]
    omega

end BlockMachine.Decimal
