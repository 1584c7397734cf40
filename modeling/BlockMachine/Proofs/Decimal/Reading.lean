import BlockMachine.Decimal.Reading
import BlockMachine.Proofs.Decimal.Shortest

/-!
# Decimals are read as the nearest double

* `Binary.IsDouble.float` — the double of a magnitude and a sign, `float_cases` — all doubles;
* `Binary.Nearest.log2_lt`, `Binary.Nearest.log2_places` — a decimal that is nearest to a double has
  neither too many digits nor too many places;
* `ofScientific_nearest`, `ofScientific_places_nearest` — powers of ten are multiplied and divided
  by without loss;
* `ofDecimal_nearest` — a decimal is read as the double that it is nearest to;
* `float_div_one` — dividing by one;
* `isWhole_or_isInf_ofNat` — a whole number is read as a whole double.
-/

namespace BlockMachine.Decimal

open Float.Model (Format UnpackedFloat totalExponent)
open Float.Model.UnpackedFloat (Sign ExtendedMantissa Accuracy)

/-! ## Doubles -/

/-- The double of a magnitude and a sign. -/
def Binary.IsDouble.float {x : Binary} (hx : x.IsDouble) (s : Sign) : Float :=
  .ofModel (.pack (.finite s x.m x.q hx.pos))

theorem eq_of_unpack {x : Float} {u : UnpackedFloat} (h : x.toModel.unpack = u) :
    x = .ofModel (.pack u) := by
  rw [← h, pack_unpack]

/-- **All doubles.** -/
theorem float_cases (x : Float) :
    x = .ofModel (.pack .notANumber) ∨ (∃ s, x = .ofModel (.pack (.infinity s))) ∨
      (∃ s, x = .ofModel (.pack (.zero s))) ∨
      ∃ (hx : (Binary.ofFloat x).IsDouble) (s : Sign), x = hx.float s := by
  cases hu : x.toModel.unpack with
  | notANumber => exact .inl (eq_of_unpack hu)
  | infinity s => exact .inr (.inl ⟨s, eq_of_unpack hu⟩)
  | zero s => exact .inr (.inr (.inl ⟨s, eq_of_unpack hu⟩))
  | finite s m q hm =>
    obtain ⟨hx, rfl, rfl⟩ := isDouble_ofFloat hu
    exact .inr (.inr (.inr ⟨hx, s, eq_of_unpack hu⟩))

/-! ## Decimals of the size of a double -/

section

variable {x : Binary} {v : ℚ} {n k : Nat}

/-- What is nearest to a double is not out of range. -/
theorem Binary.Nearest.lt_top (hx : x.IsDouble) (hv : x.Nearest v) : v < 2 ^ 1024 := by
  have hunit : (0 : ℚ) < 2 ^ x.q := zpow_pos two_pos _
  have hm : (x.m : ℚ) + 1 ≤ 2 ^ 53 := by
    have := hx.high
    exact_mod_cast this
  have hup : v / 2 ^ x.q < 2 ^ 53 := by
    rcases hv.high with h | ⟨-, h⟩ <;> linarith
  have hmost : (2 : ℚ) ^ x.q ≤ 2 ^ (971 : Int) := zpow_le_zpow_right₀ one_le_two hx.most
  calc v < 2 ^ 53 * 2 ^ x.q := (div_lt_iff₀ hunit).1 hup
    _ ≤ 2 ^ 53 * 2 ^ (971 : Int) := mul_le_mul_of_nonneg_left hmost (by positivity)
    _ = 2 ^ 1024 := by
      rw [show (971 : Int) = (971 : Nat) from rfl, zpow_natCast, ← pow_add]

/-- What is nearest to a double is not next to nothing. -/
theorem Binary.Nearest.bottom_le (hx : x.IsDouble) (hv : x.Nearest v) : 1 ≤ v * 2 ^ 1075 := by
  have hunit : (0 : ℚ) < 2 ^ x.q := zpow_pos two_pos _
  have hm : (1 : ℚ) ≤ x.m := by
    have := hx.pos
    exact_mod_cast this
  have hdown : 1 / 2 ≤ v / 2 ^ x.q := by
    rcases hv.half_low with h | ⟨-, h⟩ <;> linarith
  have hleast : (2 : ℚ) ^ (-1074 : Int) ≤ 2 ^ x.q := zpow_le_zpow_right₀ one_le_two hx.least
  have hv' : 1 / 2 * 2 ^ (-1074 : Int) ≤ v :=
    le_trans (mul_le_mul_of_nonneg_left hleast (by norm_num)) ((le_div_iff₀ hunit).1 hdown)
  calc (1 : ℚ) = 1 / 2 * 2 ^ (-1074 : Int) * 2 ^ 1075 := by
        rw [show (2 : ℚ) ^ 1075 = 2 ^ (1075 : Int) from (zpow_natCast _ _).symm, mul_assoc,
          ← zpow_add₀ two_ne_zero]
        norm_num
    _ ≤ v * 2 ^ 1075 := mul_le_mul_of_nonneg_right hv' (by positivity)

theorem Binary.Nearest.digits_pos (hx : x.IsDouble) {e : Int} (hv : x.Nearest (n * 10 ^ e)) :
    0 < n := by
  rw [Nat.pos_iff_ne_zero]
  rintro rfl
  have := hv.bottom_le hx
  rw [Nat.cast_zero, zero_mul, zero_mul] at this
  exact absurd this (by norm_num)

/-- A whole decimal of the size of a double does not have many digits. -/
theorem Binary.Nearest.log2_lt (hx : x.IsDouble) (hv : x.Nearest (n * 10 ^ k)) (hn : 0 < n) :
    n.log2 + 3 * k < 1024 := by
  have htop := hv.lt_top hx
  have hbits : 2 ^ (n.log2 + 3 * k) ≤ n * 10 ^ k := by
    rw [Nat.pow_add, Nat.pow_mul]
    exact Nat.mul_le_mul (Nat.log2_self_le (Nat.ne_of_gt hn)) (Nat.pow_le_pow_left (by decide) k)
  refine (Nat.pow_lt_pow_iff_right (a := 2) (by decide)).1 (Nat.lt_of_le_of_lt hbits ?_)
  exact_mod_cast htop

/-- A decimal of the size of a double has about as many digits as places. -/
theorem Binary.Nearest.log2_places (hx : x.IsDouble) (hv : x.Nearest (n / 10 ^ k)) (hn : 0 < n) :
    3 * n.log2 < 3072 + 10 * k ∧ 33 * k < 10 * n.log2 + 10760 := by
  have hten : (0 : ℚ) < 10 ^ k := by positivity
  have hlow : 2 ^ n.log2 ≤ n := Nat.log2_self_le (Nat.ne_of_gt hn)
  have hhigh : n < 2 ^ (n.log2 + 1) := Nat.lt_log2_self
  have hdown : ∀ b, n < 2 ^ b * 10 ^ k → 3 * n.log2 < 3 * b + 10 * k := by
    intro b htop
    refine (Nat.pow_lt_pow_iff_right (a := 2) (by decide)).1 ?_
    calc 2 ^ (3 * n.log2) = (2 ^ n.log2) ^ 3 := by rw [Nat.mul_comm, Nat.pow_mul]
      _ < (2 ^ b * 10 ^ k) ^ 3 := Nat.pow_lt_pow_left (Nat.lt_of_le_of_lt hlow htop) (by decide)
      _ = 2 ^ (3 * b) * (10 ^ 3) ^ k := by
        rw [Nat.mul_pow, ← Nat.pow_mul, ← Nat.pow_mul, ← Nat.pow_mul, Nat.mul_comm k 3,
          Nat.mul_comm b 3]
      _ ≤ 2 ^ (3 * b) * (2 ^ 10) ^ k :=
        Nat.mul_le_mul_left _ (Nat.pow_le_pow_left (by decide) k)
      _ = 2 ^ (3 * b + 10 * k) := by rw [← Nat.pow_mul, Nat.pow_add]
  have hup : ∀ b, 10 ^ k ≤ n * 2 ^ b → 33 * k < 10 * n.log2 + 10 * (b + 1) := by
    intro b hbottom
    refine (Nat.pow_lt_pow_iff_right (a := 2) (by decide)).1 ?_
    calc 2 ^ (33 * k) = (2 ^ 33) ^ k := Nat.pow_mul _ _ _
      _ ≤ (10 ^ 10) ^ k := Nat.pow_le_pow_left (by decide) k
      _ = (10 ^ k) ^ 10 := by rw [← Nat.pow_mul, ← Nat.pow_mul, Nat.mul_comm]
      _ ≤ (n * 2 ^ b) ^ 10 := Nat.pow_le_pow_left hbottom 10
      _ < (2 ^ (n.log2 + 1) * 2 ^ b) ^ 10 :=
        Nat.pow_lt_pow_left (Nat.mul_lt_mul_of_pos_right hhigh (Nat.two_pow_pos b)) (by decide)
      _ = 2 ^ (10 * n.log2 + 10 * (b + 1)) := by
        rw [← Nat.pow_add, ← Nat.pow_mul]
        congr 1
        ring
  constructor
  · have htop := (div_lt_iff₀ hten).1 (hv.lt_top hx)
    exact hdown 1024 (by exact_mod_cast htop)
  · have hbottom := hv.bottom_le hx
    rw [div_mul_eq_mul_div, le_div_iff₀ hten, one_mul] at hbottom
    have hlow : 10 ^ k ≤ n * 2 ^ 1075 := by
      rw [← Nat.cast_le (α := ℚ), Nat.cast_mul, Nat.cast_pow, Nat.cast_pow]
      exact hbottom
    exact hup 1075 hlow

end

/-! ## Reading decimals -/

/-- Whether an unpacked double is a power of ten, with all its bits. -/
def isPowerOfTen (k : Nat) : UnpackedFloat → Bool
  | .finite .positive m q _ =>
    decide (2 ^ 52 ≤ m) && m * 2 ^ q.toNat == 10 ^ k * 2 ^ (-q).toNat
  | _ => false

/-- The powers of ten that are doubles. -/
theorem powersOfTen_unpack {k : Nat} (hk : k < Float.exactlyRepresentablePowersOfTen.size) :
    ∃ (m : Nat) (q : Int) (hm : 0 < m), 2 ^ 52 ≤ m ∧ (m * 2 ^ q : ℚ) = 10 ^ k ∧
      Float.exactlyRepresentablePowersOfTen[k].toModel.unpack = .finite .positive m q hm := by
  have hall : ∀ k : Fin 23,
      isPowerOfTen k Float.exactlyRepresentablePowersOfTen[k.1].toModel.unpack = true := by
    decide +kernel
  have hthis := hall ⟨k, hk⟩
  dsimp only at hthis
  generalize Float.exactlyRepresentablePowersOfTen[k].toModel.unpack = u at hthis ⊢
  cases u with
  | finite s m q hm =>
    cases s with
    | negative => cases hthis
    | positive =>
      rw [isPowerOfTen, Bool.and_eq_true, decide_eq_true_iff, beq_iff_eq] at hthis
      refine ⟨m, q, hm, hthis.1, ?_, rfl⟩
      have hcast : (m : ℚ) * 2 ^ q.toNat = 10 ^ k * 2 ^ (-q).toNat := by exact_mod_cast hthis.2
      have hscale : (2 : ℚ) ^ (-q).toNat ≠ 0 := by positivity
      rw [← zpow_mul_pow_toNat two_ne_zero q, ← mul_assoc] at hcast
      exact mul_right_cancel₀ hscale hcast
  | notANumber | infinity s | zero s => cases hthis

section

variable {x : Binary} {n k : Nat}

/-- The number that a normal form is of. -/
theorem Counts.cast_value {n m : Nat} {e : Int} (h : Counts n m e) : (m * 2 ^ e : ℚ) = n := by
  have hwhole := h.whole
  have hvalue : (m : ℚ) * 2 ^ (e + 52).toNat = n * 2 ^ 52 := by exact_mod_cast h.value
  rw [← zpow_natCast, Int.toNat_of_nonneg (by omega), zpow_add₀ two_ne_zero, ← mul_assoc] at hvalue
  exact mul_right_cancel₀ (by positivity) hvalue

/-- **Multiplying by a power of ten** gives the nearest double. -/
theorem ofScientific_nearest (hx : x.IsDouble) (hv : x.Nearest (n * 10 ^ k)) :
    Float.ofScientific n false k = hx.float .positive := by
  have hn : 0 < n := Binary.Nearest.digits_pos hx (e := k) (by rwa [zpow_natCast])
  have hlog := hv.log2_lt hx hn
  rw [Float.ofScientific]
  split
  case isTrue h =>
    -- both factors are doubles
    obtain ⟨m₁, e₁, h₁⟩ := exists_counts hn (Nat.le_of_lt h.1)
    have hlow := h₁.low
    have hk : k < Float.exactlyRepresentablePowersOfTen.size := Nat.lt_succ_of_le h.2
    obtain ⟨m₂, e₂, hm₂, hfull, hvalue, hunpack⟩ := powersOfTen_unpack hk
    have hmul : n.toUInt64.toFloat * Float.exactlyRepresentablePowersOfTen[k] =
        .ofModel (.pack (UnpackedFloat.mul Format.binary64 n.toUInt64.toFloat.toModel.unpack
          Float.exactlyRepresentablePowersOfTen[k].toModel.unpack)) := rfl
    have hnearest : x.Nearest (m₁ * 2 ^ e₁ * (m₂ * 2 ^ e₂)) := by
      rwa [h₁.cast_value, hvalue]
    simp only [Bool.false_eq_true, if_false]
    rw [hmul, hunpack, toModel_toFloat h₁ hn h.1, Decimal.unpack_pack h₁.toNormal,
      mul_nearest hx hnearest h₁.pos hm₂ (Nat.le_trans hlow (Nat.le_mul_of_pos_right m₁ hm₂))]
    rfl
  case isFalse h =>
    have hten : (0 : Nat) < 10 ^ k := Nat.pow_pos (by decide)
    have hshifted : 0 < n <<< 53 := by
      rw [Nat.shiftLeft_eq]
      exact Nat.mul_pos hn (Nat.two_pow_pos 53)
    have hnearest : x.Nearest
        ((n <<< 53 : Nat) * 2 ^ (-53 : Int) * ((10 ^ k : Nat) * 2 ^ (0 : Int))) := by
      have hvalue : ((n <<< 53 : Nat) * 2 ^ (-53 : Int) * ((10 ^ k : Nat) * 2 ^ (0 : Int)) : ℚ) =
          n * 10 ^ k := by
        rw [Nat.shiftLeft_eq, Nat.cast_mul, Nat.cast_pow, Nat.cast_pow, Nat.cast_ofNat,
          Nat.cast_ofNat, zpow_neg, zpow_zero, mul_one,
          show (2 : ℚ) ^ (53 : Int) = 2 ^ 53 from zpow_natCast 2 53,
          mul_inv_cancel_right₀ (by positivity)]
      rwa [hvalue]
    have hbits : 2 ^ 52 ≤ n <<< 53 * 10 ^ k := by
      rw [Nat.shiftLeft_eq]
      calc 2 ^ 52 ≤ 1 * 2 ^ 53 * 1 := by decide
        _ ≤ n * 2 ^ 53 * 10 ^ k := Nat.mul_le_mul (Nat.mul_le_mul_right _ hn) hten
    simp only [Bool.false_eq_true, if_false, Float.Model.ofScientific, UnpackedFloat.ofScientific]
    rw [dif_neg (Nat.ne_of_gt hn), if_neg, if_neg, if_pos]
    · exact congrArg (fun u => Float.ofModel (.pack u))
        (mul_nearest hx hnearest hshifted hten hbits .positive .positive)
    · exact Int.natCast_nonneg k
    · have : (2 : Int) ^ Format.binary64.exponentBits = 2048 := rfl
      change ¬ (k : Int) < -(2 ^ Format.binary64.exponentBits + (n.log2 : Int))
      omega
    · have : (2 : Int) ^ Format.binary64.exponentBits = 2048 := rfl
      change ¬ (2 : Int) ^ Format.binary64.exponentBits < k
      omega

/-- **Dividing by a power of ten** gives the nearest double. -/
theorem ofScientific_places_nearest (hx : x.IsDouble) (hv : x.Nearest (n / 10 ^ k)) (hk : 0 < k) :
    Float.ofScientific n true k = hx.float .positive := by
  have hn : 0 < n := Binary.Nearest.digits_pos hx (e := -(k : Int)) (by
    rwa [zpow_neg, zpow_natCast, ← div_eq_mul_inv])
  obtain ⟨hdown, hup⟩ := hv.log2_places hx hn
  rw [Float.ofScientific]
  split
  case isTrue h =>
    obtain ⟨m₁, e₁, h₁⟩ := exists_counts hn (Nat.le_of_lt h.1)
    have htable : k < Float.exactlyRepresentablePowersOfTen.size := Nat.lt_succ_of_le h.2
    obtain ⟨m₂, e₂, hm₂, -, hvalue, hunpack⟩ := powersOfTen_unpack htable
    have hdiv : n.toUInt64.toFloat / Float.exactlyRepresentablePowersOfTen[k] =
        .ofModel (.pack (UnpackedFloat.div Format.binary64 n.toUInt64.toFloat.toModel.unpack
          Float.exactlyRepresentablePowersOfTen[k].toModel.unpack)) := rfl
    have hnearest : x.Nearest (m₁ * 2 ^ e₁ / (m₂ * 2 ^ e₂)) := by
      rwa [h₁.cast_value, hvalue]
    simp only [if_true]
    rw [hdiv, hunpack, toModel_toFloat h₁ hn h.1, Decimal.unpack_pack h₁.toNormal,
      div_nearest hx hnearest h₁.pos hm₂]
    rfl
  case isFalse h =>
    have hten : (0 : Nat) < 10 ^ k := Nat.pow_pos (by decide)
    have hnegative : Int.negOfNat k = -(k : Int) := rfl
    have hnearest : x.Nearest (n * 2 ^ (0 : Int) / ((10 ^ k : Nat) * 2 ^ (0 : Int))) := by
      rwa [zpow_zero, mul_one, mul_one, Nat.cast_pow, Nat.cast_ofNat]
    simp only [if_true, Float.Model.ofScientific, UnpackedFloat.ofScientific, hnegative]
    rw [dif_neg (Nat.ne_of_gt hn), if_neg, if_neg, if_neg]
    · simp only [Int.neg_neg, Int.toNat_natCast]
      exact congrArg (fun u => Float.ofModel (.pack u))
        (div_nearest hx hnearest hn hten .positive .positive)
    · omega
    · have : (2 : Int) ^ Format.binary64.exponentBits = 2048 := rfl
      omega
    · have : (2 : Int) ^ Format.binary64.exponentBits = 2048 := rfl
      omega

/-- **Reading decimals.** A decimal is read as the double that it is nearest to. -/
theorem ofDecimal_nearest (hx : x.IsDouble) {e : Int} (he : -1074 ≤ e)
    (hv : x.Nearest (n * 10 ^ e)) : ofDecimal n e = hx.float .positive := by
  have hn : 0 < n := hv.digits_pos hx
  rw [ofDecimal, if_neg (Nat.ne_of_gt hn)]
  rcases Int.le_total 0 e with h | h
  · obtain ⟨k, rfl⟩ := Int.eq_ofNat_of_zero_le h
    rw [zpow_natCast] at hv
    have hlog := hv.log2_lt hx hn
    rw [if_neg (by omega), if_neg (by omega), if_pos h, Int.toNat_natCast]
    exact ofScientific_nearest hx hv
  · obtain ⟨k, rfl⟩ : ∃ k : Nat, e = -k := ⟨(-e).toNat, by omega⟩
    have hplaces : x.Nearest (n / 10 ^ k) := by
      rwa [zpow_neg, zpow_natCast, ← div_eq_mul_inv] at hv
    obtain ⟨hdown, hup⟩ := hplaces.log2_places hx hn
    rw [if_neg (by omega), if_neg (by omega)]
    rcases Nat.eq_zero_or_pos k with rfl | hk
    · rw [if_pos (by decide)]
      refine ofScientific_nearest hx ?_
      rwa [show (-((0 : Nat) : Int)).toNat = 0 from rfl, pow_zero, mul_one, ← div_one (n : ℚ),
        ← pow_zero 10]
    · rw [if_neg (by omega), Int.neg_neg, Int.toNat_natCast]
      exact ofScientific_places_nearest hx hplaces hk

end

/-! ## Dividing by one -/

/-- **Division by one** changes no double. -/
theorem float_div_one (x : Float) : x / 1 = x := by
  have hone : (1 : Float).toModel.unpack = .finite .positive (2 ^ 52) (-52) (by decide) := rfl
  have hdiv : x / 1 = .ofModel (.pack (UnpackedFloat.div Format.binary64 x.toModel.unpack
      (1 : Float).toModel.unpack)) := rfl
  have hsign : ∀ s : Sign, s / Sign.positive = s := by
    intro s
    cases s <;> rfl
  rw [hdiv, hone]
  cases hu : x.toModel.unpack with
  | notANumber => exact (eq_of_unpack hu).symm
  | infinity s =>
    refine Eq.trans ?_ (eq_of_unpack hu).symm
    exact congrArg (fun t => Float.ofModel (.pack (.infinity t))) (hsign s)
  | zero s =>
    refine Eq.trans ?_ (eq_of_unpack hu).symm
    exact congrArg (fun t => Float.ofModel (.pack (.zero t))) (hsign s)
  | finite s m q hm =>
    obtain ⟨hx, rfl, rfl⟩ := isDouble_ofFloat hu
    have hnearest : (Binary.ofFloat x).Nearest
        ((Binary.ofFloat x).m * 2 ^ (Binary.ofFloat x).q / ((2 ^ 52 : Nat) * 2 ^ (-52 : Int))) := by
      have hvalue : ((2 ^ 52 : Nat) * 2 ^ (-52 : Int) : ℚ) = 1 := by norm_num
      rw [hvalue, div_one]
      exact Binary.nearest_value _
    rw [div_nearest hx hnearest hm (by decide), hsign]
    exact (eq_of_unpack hu).symm

/-! ## Whole numbers -/

theorem isWhole_of_unpack {x : Float} {s : Sign} {m : Nat} {q : Int} {hm : 0 < m}
    (hu : x.toModel.unpack = .finite s m q hm)
    (h : 0 ≤ q ∨ m % 2 ^ (-q).toNat = 0) : isWhole x = true := by
  have hfinite : x.isFinite = true := by
    change x.toModel.unpack.isFinite = true
    rw [hu]
    rfl
  obtain ⟨-, hm', hq'⟩ := isDouble_ofFloat hu
  rw [isWhole, hfinite, Bool.true_and, Binary.isWhole, Bool.or_eq_true, decide_eq_true_iff,
    beq_iff_eq, hm', hq']
  exact h

/-- A large mantissa in its place is a whole double, or too large for one. -/
theorem isWhole_or_isInf_pack {m : Nat} {q : Int} (hlow : 2 ^ 52 ≤ m) (hhigh : m < 2 ^ 53)
    (hq : 0 ≤ q) (s : Sign) (hm : 0 < m) :
    isWhole (.ofModel (.pack (.finite s m q hm))) = true ∨
      Float.isInf (.ofModel (.pack (.finite s m q hm))) = true := by
  by_cases hmost : q ≤ 971
  · left
    exact isWhole_of_unpack (unpack_pack ⟨hlow, hhigh, by omega, hmost⟩ s hm) (.inl hq)
  · right
    have hpack : Float.Model.pack (.finite s m q hm) = Float.Model.pack (.infinity s) := by
      have hbits : UnpackedFloat.pack Format.binary64 (.finite s m q hm) =
          UnpackedFloat.pack Format.binary64 (.infinity s) := by
        simp only [UnpackedFloat.pack]
        rw [if_pos]
        change 2048 ≤ (q + 1023 + 52).toNat + 1
        omega
      rw [Float.Model.pack, Float.Model.pack, Float.Model.mk.injEq, hbits]
    rw [hpack]
    cases s <;> decide +kernel

/-- **A whole number** is read as a whole double, unless it is too large for one. -/
theorem isWhole_or_isInf_ofNat (n : Nat) :
    isWhole (Float.ofNat n) = true ∨ (Float.ofNat n).isInf = true := by
  rcases Nat.eq_zero_or_pos n with rfl | hn
  · left
    decide +kernel
  rcases Nat.lt_or_ge n (2 ^ 53) with hlt | hge
  · left
    obtain ⟨m, e, h⟩ := exists_counts hn (Nat.le_of_lt hlt)
    have hwhole := h.whole
    have hunpack : (Float.ofNat n).toModel.unpack = .finite .positive m e h.pos := by
      rw [toModel_ofNat h hn (Nat.le_of_lt hlt), unpack_pack h.toNormal]
    refine isWhole_of_unpack hunpack (or_iff_not_imp_left.2 fun hneg => ?_)
    have hvalue := h.value
    have hsplit : 2 ^ 52 = 2 ^ (-e).toNat * 2 ^ (e + 52).toNat := by
      rw [← Nat.pow_add]
      congr 1
      omega
    rw [hsplit, ← Nat.mul_assoc] at hvalue
    rw [Nat.eq_of_mul_eq_mul_right (Nat.two_pow_pos _) hvalue]
    exact Nat.mul_mod_left _ _
  · obtain ⟨m, q, hm, hmodel, hlow, hhigh, hq⟩ := toModel_ofNat_large hge
    have hfloat : Float.ofNat n = .ofModel (.pack (.finite .positive m q hm)) := by
      rw [← hmodel]
    rw [hfloat]
    exact isWhole_or_isInf_pack hlow hhigh (by omega) .positive hm

theorem isWhole_or_isInf_ofDecimal (n : Nat) :
    isWhole (ofDecimal n 0) = true ∨ (ofDecimal n 0).isInf = true := by
  rw [ofDecimal]
  split
  · exact .inl (by decide +kernel)
  · split
    · exact .inr (by decide +kernel)
    · rw [if_neg (by omega), if_pos (Int.le_refl 0)]
      exact isWhole_or_isInf_ofNat n

end BlockMachine.Decimal
