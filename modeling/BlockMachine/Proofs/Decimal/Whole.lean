import BlockMachine.Decimal.Binary
import Mathlib

/-!
# Counting in doubles

A double counts exactly up to `2^53`: adding one to a whole double below that gives the next one. So a
loop that counts in doubles up to a bound below `2^53` comes to its end.

* `Normal` — a magnitude `m · 2^e` in the form in which a double keeps it;
* `round_exact` — rounding a magnitude that a double has changes nothing;
* `ofNat_add_one` — counting, up to `2^53`; `toModel_ofNat_large` — what comes behind it is rounded;
* `agrees_unpack` — the two ways to take a double apart agree;
* `not_ofNat_le_abs` — the whole double behind the integer part of a double below `2^53` is above it.
-/

namespace BlockMachine.Decimal

open Float.Model (Format UnpackedFloat totalExponent)
open Float.Model.UnpackedFloat (Sign ExtendedMantissa)

/-- A magnitude `m · 2^e` as a double keeps it unless it is very small: with a mantissa of 53 bits. -/
structure Normal (m : Nat) (e : Int) : Prop where
  low : 2 ^ 52 ≤ m
  high : m < 2 ^ 53
  least : -1074 ≤ e
  most : e ≤ 971

namespace Normal

variable {m : Nat} {e : Int}

theorem pos (h : Normal m e) : 0 < m :=
  Nat.lt_of_lt_of_le (Nat.two_pow_pos 52) h.low

theorem log2 (h : Normal m e) : m.log2 = 52 :=
  (Nat.log2_eq_iff (Nat.ne_of_gt h.pos)).2 ⟨h.low, h.high⟩

end Normal

/-! ## Packing -/

theorem unpackSign_packComponents (s : Sign) (exponent : BitVec Format.binary64.exponentBits)
    (mantissa : BitVec Format.binary64.mantissaBitsWithoutImplicit) :
    UnpackedFloat.unpackSign (UnpackedFloat.packComponents Format.binary64 s exponent mantissa) =
      s.toBitVec := by
  change (s.toBitVec ++ exponent ++ mantissa).extractLsb' 63 1 = s.toBitVec
  rw [BitVec.extractLsb'_append_eq_of_le (by decide), BitVec.extractLsb'_append_eq_of_le (by decide)]
  exact BitVec.extractLsb'_eq_self

theorem ofBitVec_toBitVec (s : Sign) : Sign.ofBitVec s.toBitVec = s := by
  cases s with
  | negative => rfl
  | positive => rfl

/-- The fields into which a normal form is packed. -/
theorem pack_normal {m : Nat} {e : Int} (h : Normal m e) (s : Sign) {b : Nat} (hb : e + 1075 = b) :
    UnpackedFloat.pack Format.binary64 (.finite s m e h.pos) =
      UnpackedFloat.packComponents Format.binary64 s (BitVec.ofNat 11 b) (BitVec.ofNat 52 m) := by
  have hmost := h.most
  have hbiased : (e + (Format.binary64.exponentBias : Nat) +
      (Format.binary64.mantissaBitsWithoutImplicit : Nat)).toNat = b := by
    change (e + 1023 + 52).toNat = b
    omega
  simp only [UnpackedFloat.pack]
  rw [hbiased, if_neg (by change ¬ 2048 ≤ b + 1; omega), h.log2,
    if_pos (show 52 + 1 = Format.binary64.mantissaBits from rfl)]

/-- What is packed in normal form is unpacked again. -/
theorem unpack_pack {m : Nat} {e : Int} (h : Normal m e) (s : Sign) (hm : 0 < m) :
    (Float.Model.pack (.finite s m e hm)).unpack = .finite s m e hm := by
  have hlow := h.low
  have hhigh := h.high
  have hleast := h.least
  have hmost := h.most
  obtain ⟨k, hk⟩ : ∃ k : Nat, e + 1075 = k := ⟨(e + 1075).toNat, by omega⟩
  have hexponent : (BitVec.ofNat 11 k).toNat = k := by
    rw [BitVec.toNat_ofNat, Nat.mod_eq_of_lt (by omega)]
  have hnotTop : BitVec.ofNat 11 k ≠ -1#11 := by
    intro heq
    have := congrArg BitVec.toNat heq
    rw [hexponent] at this
    change k = 2047 at this
    omega
  have hnotZero : BitVec.ofNat 11 k ≠ 0#11 := by
    intro heq
    have := congrArg BitVec.toNat heq
    rw [hexponent] at this
    change k = 0 at this
    omega
  have hmantissa : (1#1 ++ BitVec.ofNat 52 m).toNat = m := by
    rw [BitVec.toNat_append, BitVec.toNat_ofNat]
    change 1 <<< 52 ||| m % 2 ^ 52 = m
    rw [← Nat.shiftLeft_add_eq_or_of_lt (Nat.mod_lt _ (Nat.two_pow_pos 52)), Nat.one_shiftLeft]
    omega
  change UnpackedFloat.unpack Format.binary64 (UnpackedFloat.pack Format.binary64 _) = _
  rw [pack_normal h s hk, UnpackedFloat.unpack]
  simp only [UnpackedFloat.unpackExponent_packComponents,
    UnpackedFloat.unpackMantissa_packComponents, unpackSign_packComponents, ofBitVec_toBitVec]
  rw [if_neg hnotTop, if_neg hnotZero]
  congr 1
  rw [hexponent]
  change (k : Int) - (1023 + 52) = e
  omega

/-! ## Rounding -/

theorem log2_mul_two_pow {m : Nat} (hm : m ≠ 0) (k : Nat) : (m * 2 ^ k).log2 = m.log2 + k := by
  induction k with
  | zero => simp
  | succ k ih =>
    rw [Nat.pow_succ, ← Nat.mul_assoc, Nat.mul_comm _ 2,
      Nat.log2_two_mul (Nat.mul_ne_zero hm (Nat.ne_of_gt (Nat.two_pow_pos k))), ih]
    omega

theorem targetExponent_binary64 (t : Int) :
    Format.binary64.targetExponent t = max (t - 53) (-1074) := by
  simp only [Format.targetExponent]
  rfl

theorem shiftToTargetExponent_self {m : Nat} {e : Int}
    (h : Format.binary64.targetExponent (totalExponent m e) = e) :
    UnpackedFloat.shiftToTargetExponent Format.binary64 m e .exact = (⟨m, false, false⟩, e) := by
  simp only [UnpackedFloat.shiftToTargetExponent, UnpackedFloat.shiftToExponent, h]
  rw [Int.sub_self]
  exact Prod.ext rfl (Int.add_zero e)

/-- Zeros that are shifted out leave nothing to round. -/
theorem shiftRight_exact (k : Nat) :
    ∀ m : Nat, (⟨m * 2 ^ k, false, false⟩ : ExtendedMantissa) >>> k = ⟨m, false, false⟩ := by
  induction k with
  | zero =>
    intro m
    rw [Nat.pow_zero, Nat.mul_one]
    rfl
  | succ k ih =>
    intro m
    have hstep : (⟨m * 2 ^ (k + 1), false, false⟩ : ExtendedMantissa) >>> (k + 1) =
        ((⟨m * 2 * 2 ^ k, false, false⟩ : ExtendedMantissa) >>> k).shiftRightOne := by
      rw [show m * 2 ^ (k + 1) = m * 2 * 2 ^ k by ring]
      rfl
    rw [hstep, ih]
    simp [ExtendedMantissa.shiftRightOne]

section Rounding

variable {m : Nat} {e : Int}

theorem shiftToTargetExponent_exact (h : Normal m e) (k : Nat) :
    UnpackedFloat.shiftToTargetExponent Format.binary64 (m * 2 ^ k) (e - k) .exact =
      (⟨m, false, false⟩, e) := by
  have hleast := h.least
  have htarget : Format.binary64.targetExponent (totalExponent (m * 2 ^ k) (e - k)) = e := by
    rw [targetExponent_binary64, totalExponent, log2_mul_two_pow (Nat.ne_of_gt h.pos), h.log2]
    omega
  have hamount : (e - (e - k)).toNat = k := by omega
  simp only [UnpackedFloat.shiftToTargetExponent, UnpackedFloat.shiftToExponent]
  rw [htarget, hamount]
  refine Prod.ext ?_ ?_
  · exact shiftRight_exact k m
  · change e - k + k = e
    omega

theorem roundWithAccuracy_exact (h : Normal m e) (s : Sign) (k : Nat) :
    UnpackedFloat.roundWithAccuracy Format.binary64 s (m * 2 ^ k) (e - k) .exact =
      .finite s m e h.pos := by
  have hsecond := shiftToTargetExponent_exact h 0
  rw [Nat.pow_zero, Nat.mul_one, Nat.cast_zero, Int.sub_zero] at hsecond
  have hrounded : (⟨m, false, false⟩ : ExtendedMantissa).roundedMantissa = m := rfl
  simp only [UnpackedFloat.roundWithAccuracy, shiftToTargetExponent_exact h k, hrounded, hsecond]
  rw [dif_neg (Nat.ne_of_gt h.pos)]

/-- **Rounding is exact** on a magnitude that a double has: `m' · 2^e' = m · 2^e`, with both sides
scaled up to whole numbers. -/
theorem round_exact (h : Normal m e) {m' a b : Nat} {e' : Int} (hvalue : m' * 2 ^ a = m * 2 ^ b)
    (hscale : e' - a = e - b) (s : Sign) :
    UnpackedFloat.round Format.binary64 s m' e' = .finite s m e h.pos := by
  have hm' : m' ≠ 0 := by
    rintro rfl
    rw [Nat.zero_mul] at hvalue
    have := Nat.mul_pos h.pos (Nat.two_pow_pos b)
    omega
  have hlog : m'.log2 + a = 52 + b := by
    rw [← log2_mul_two_pow hm', hvalue, log2_mul_two_pow (Nat.ne_of_gt h.pos), h.log2]
  have hleast := h.least
  have htarget : Format.binary64.targetExponent (totalExponent m' e') = e := by
    rw [targetExponent_binary64, totalExponent]
    omega
  simp only [UnpackedFloat.round, UnpackedFloat.decreaseExponent]
  rw [htarget]
  by_cases hle : b ≤ a
  · -- the mantissa is shifted up
    have hshift : m' <<< (e' - e).toNat = m := by
      rw [Nat.shiftLeft_eq, show (e' - e).toNat = a - b by omega]
      refine Nat.eq_of_mul_eq_mul_right (Nat.two_pow_pos b) ?_
      rw [Nat.mul_assoc, ← Nat.pow_add, Nat.sub_add_cancel hle, hvalue]
    have hround := roundWithAccuracy_exact h s 0
    rw [Nat.pow_zero, Nat.mul_one, Nat.cast_zero, Int.sub_zero] at hround
    rw [hshift, show e' - ((e' - e).toNat : Int) = e by omega]
    exact hround
  · -- the mantissa is shifted down
    have hshift : m' <<< (e' - e).toNat = m * 2 ^ (b - a) := by
      rw [show (e' - e).toNat = 0 by omega, Nat.shiftLeft_zero]
      refine Nat.eq_of_mul_eq_mul_right (Nat.two_pow_pos a) ?_
      rw [hvalue, Nat.mul_assoc, ← Nat.pow_add, Nat.sub_add_cancel (by omega)]
    rw [hshift, show e' - ((e' - e).toNat : Int) = e - ((b - a : Nat) : Int) by omega]
    exact roundWithAccuracy_exact h s (b - a)

end Rounding

/-! ## Counting -/

/-- The normal form of a whole number up to `2^53`. -/
structure Counts (n m : Nat) (e : Int) : Prop extends Normal m e where
  whole : -52 ≤ e
  value : m * 2 ^ (e + 52).toNat = n * 2 ^ 52

/-- A positive whole number of a normal form is not rounded. -/
theorem normalize_exact {n m k : Nat} {e : Int} (h : Counts n m e) (hn : 0 < n) :
    UnpackedFloat.normalize Format.binary64 (n * 2 ^ k : Nat) (-k) .positive =
      .finite .positive m e h.pos := by
  have hwhole := h.whole
  have hpos : (0 : Int) < (n * 2 ^ k : Nat) := by
    have := Nat.mul_pos hn (Nat.two_pow_pos k)
    omega
  have hcompare : compare ((n * 2 ^ k : Nat) : Int) 0 = .gt := Int.compare_eq_gt.2 hpos
  simp only [UnpackedFloat.normalize, hcompare, Int.toNat_natCast]
  refine round_exact h.toNormal (a := 52) (b := (e + 52).toNat + k) ?_ ?_ _
  · rw [Nat.pow_add, ← Nat.mul_assoc, h.value]
    ring
  · omega

theorem exists_counts {n : Nat} (hn : 0 < n) (hle : n ≤ 2 ^ 53) : ∃ m e, Counts n m e := by
  rcases Nat.lt_or_eq_of_le hle with hlt | rfl
  · have hlog : n.log2 ≤ 52 := by
      have := (Nat.log2_lt (Nat.ne_of_gt hn)).2 hlt
      omega
    have hlow : 2 ^ n.log2 ≤ n := Nat.log2_self_le (Nat.ne_of_gt hn)
    have hhigh : n < 2 ^ (n.log2 + 1) := Nat.lt_log2_self
    have hsplit : 2 ^ (52 - n.log2) * 2 ^ n.log2 = 2 ^ 52 := by
      rw [← Nat.pow_add, Nat.sub_add_cancel hlog]
    refine ⟨n * 2 ^ (52 - n.log2), (n.log2 : Int) - 52, ⟨?_, ?_, by omega, by omega⟩, by omega, ?_⟩
    · calc 2 ^ 52 = 2 ^ n.log2 * 2 ^ (52 - n.log2) := by rw [Nat.mul_comm, hsplit]
        _ ≤ n * 2 ^ (52 - n.log2) := Nat.mul_le_mul_right _ hlow
    · calc n * 2 ^ (52 - n.log2) < 2 ^ (n.log2 + 1) * 2 ^ (52 - n.log2) :=
            Nat.mul_lt_mul_of_pos_right hhigh (Nat.two_pow_pos _)
        _ = 2 ^ 53 := by rw [← Nat.pow_add]; congr 1; omega
    · rw [show ((n.log2 : Int) - 52 + 52).toNat = n.log2 by omega, Nat.mul_assoc, hsplit]
  · exact ⟨2 ^ 52, 1, ⟨by omega, by omega, by omega, by omega⟩, by omega, by decide⟩

/-- A normal form is that of one number, and the only one that it has. -/
theorem Counts.unique {n m m' : Nat} {e e' : Int} (h : Counts n m e) (h' : Counts n m' e') :
    m = m' ∧ e = e' := by
  have hwhole := h.whole
  have hwhole' := h'.whole
  have hvalue : m * 2 ^ (e + 52).toNat = m' * 2 ^ (e' + 52).toNat := h.value.trans h'.value.symm
  have hlog := congrArg Nat.log2 hvalue
  rw [log2_mul_two_pow (Nat.ne_of_gt h.pos), log2_mul_two_pow (Nat.ne_of_gt h'.pos), h.log2,
    h'.log2] at hlog
  obtain rfl : e = e' := by omega
  exact ⟨Nat.eq_of_mul_eq_mul_right (Nat.two_pow_pos _) hvalue, rfl⟩

/-- A word below `2^53` as a double. -/
theorem toModel_toFloat {n m : Nat} {e : Int} (h : Counts n m e) (hn : 0 < n) (hlt : n < 2 ^ 53) :
    n.toUInt64.toFloat.toModel = Float.Model.pack (.finite .positive m e h.pos) := by
  have hnat : n.toUInt64.toNat = n := by
    rw [Nat.toUInt64_eq, UInt64.toNat_ofNat']
    omega
  have hnorm := normalize_exact (k := 0) h hn
  rw [Nat.pow_zero, Nat.mul_one] at hnorm
  change Float.Model.pack (UnpackedFloat.normalize Format.binary64 (n.toUInt64.toNat : Nat) 0
    .positive) = _
  rw [hnat]
  exact congrArg Float.Model.pack hnorm

/-- **Whole doubles.** A whole number up to `2^53` is a double. -/
theorem toModel_ofNat {n m : Nat} {e : Int} (h : Counts n m e) (hn : 0 < n) (hle : n ≤ 2 ^ 53) :
    (Float.ofNat n).toModel = Float.Model.pack (.finite .positive m e h.pos) := by
  rcases Nat.lt_or_eq_of_le hle with hlt | rfl
  · -- the literal is scaled by one
    have hscaled : Float.ofNat n =
        n.toUInt64.toFloat * Float.exactlyRepresentablePowersOfTen[0] := by
      change Float.ofScientific n false 0 = _
      rw [Float.ofScientific, dif_pos ⟨hlt, by decide⟩]
      rfl
    have hone : Float.exactlyRepresentablePowersOfTen[0].toModel.unpack =
        .finite .positive (2 ^ 52) (-52) (by decide) := rfl
    have hword := toModel_toFloat h hn hlt
    have hmul : (Float.ofNat n).toModel = Float.Model.pack (UnpackedFloat.mul Format.binary64
        n.toUInt64.toFloat.toModel.unpack
        Float.exactlyRepresentablePowersOfTen[0].toModel.unpack) := by
      rw [hscaled]
      rfl
    rw [hmul, hword, unpack_pack h.toNormal, hone]
    exact congrArg Float.Model.pack (roundWithAccuracy_exact h.toNormal .positive 52)
  · have htop : Counts (2 ^ 53) (2 ^ 52) 1 :=
      ⟨⟨by omega, by omega, by omega, by omega⟩, by omega, by decide⟩
    obtain ⟨rfl, rfl⟩ := h.unique htop
    rfl

/-- **Counting is exact** up to `2^53`. -/
theorem ofNat_add_one {n : Nat} (hlt : n < 2 ^ 53) : Float.ofNat n + 1 = Float.ofNat (n + 1) := by
  rcases Nat.eq_zero_or_pos n with rfl | hn
  · decide +kernel
  · obtain ⟨m, e, h⟩ := exists_counts hn (Nat.le_of_lt hlt)
    obtain ⟨m', e', h'⟩ := exists_counts (n := n + 1) (Nat.succ_pos n) hlt
    have hone : (1 : Float).toModel.unpack = .finite .positive (2 ^ 52) (-52) (by decide) := rfl
    have hsum : (Float.ofNat n + 1).toModel = Float.Model.pack (UnpackedFloat.add Format.binary64
        (Float.ofNat n).toModel.unpack (1 : Float).toModel.unpack) := rfl
    have hadd : UnpackedFloat.add Format.binary64 (.finite .positive m e h.pos)
        (.finite .positive (2 ^ 52) (-52) (by decide)) = .finite .positive m' e' h'.pos := by
      have hwhole := h.whole
      have hmin : min e (-52) = -52 := by omega
      have hleft : m <<< (e - -52).toNat = n * 2 ^ 52 := by
        rw [Nat.shiftLeft_eq, show e - -52 = e + 52 by omega, h.value]
      have hnorm := normalize_exact (k := 52) h' (Nat.succ_pos n)
      rw [Nat.succ_mul] at hnorm
      simp only [UnpackedFloat.add, UnpackedFloat.decreaseExponent, Sign.apply, hmin, hleft]
      exact hnorm
    have heq : (Float.ofNat n + 1).toModel = (Float.ofNat (n + 1)).toModel := by
      rw [hsum, toModel_ofNat h hn (Nat.le_of_lt hlt), unpack_pack h.toNormal, hone, hadd,
        toModel_ofNat h' (Nat.succ_pos n) hlt]
    exact congrArg Float.ofModel heq

/-! ## Beyond exact counting -/

theorem mantissa_shiftRight (k : Nat) :
    ∀ em : ExtendedMantissa, (em >>> k).mantissa = em.mantissa / 2 ^ k := by
  induction k with
  | zero =>
    intro em
    rw [Nat.pow_zero, Nat.div_one]
    rfl
  | succ k ih =>
    intro em
    change (em >>> k).mantissa / 2 = _
    rw [ih, Nat.div_div_eq_div_mul, Nat.pow_succ]

theorem le_roundedMantissa (em : ExtendedMantissa) :
    em.mantissa ≤ em.roundedMantissa ∧ em.roundedMantissa ≤ em.mantissa + 1 := by
  obtain ⟨m, _ | _, _ | _⟩ := em
  all_goals
    simp only [ExtendedMantissa.roundedMantissa, ExtendedMantissa.accuracy,
      UnpackedFloat.Accuracy.roundToNearestEven]
    omega

/-- The first shift of a large number leaves 53 digits. -/
theorem shift_large {n : Nat} (hn : 2 ^ 53 ≤ n) : ∃ em : ExtendedMantissa,
    UnpackedFloat.shiftToTargetExponent Format.binary64 (n * 2 ^ 53) (-53) .exact =
      (em, (n.log2 : Int) - 52) ∧ 2 ^ 52 ≤ em.mantissa ∧ em.mantissa < 2 ^ 53 := by
  have hne : n ≠ 0 := by omega
  have hlog : 53 ≤ n.log2 := (Nat.le_log2 hne).2 hn
  have hlow : 2 ^ n.log2 ≤ n := Nat.log2_self_le hne
  have hhigh : n < 2 ^ (n.log2 + 1) := Nat.lt_log2_self
  have htarget : Format.binary64.targetExponent (totalExponent (n * 2 ^ 53) (-53)) =
      (n.log2 : Int) - 52 := by
    rw [targetExponent_binary64, totalExponent, log2_mul_two_pow hne]
    omega
  refine ⟨(⟨n * 2 ^ 53, false, false⟩ : ExtendedMantissa) >>> (n.log2 + 1), ?_, ?_, ?_⟩
  · simp only [UnpackedFloat.shiftToTargetExponent, UnpackedFloat.shiftToExponent]
    rw [htarget, show ((n.log2 : Int) - 52 - -53).toNat = n.log2 + 1 by omega]
    refine Prod.ext rfl ?_
    change (-53 : Int) + ((n.log2 + 1 : Nat) : Int) = _
    omega
  · rw [mantissa_shiftRight, Nat.le_div_iff_mul_le (Nat.two_pow_pos _)]
    calc 2 ^ 52 * 2 ^ (n.log2 + 1) = 2 ^ n.log2 * 2 ^ 53 := by ring
      _ ≤ n * 2 ^ 53 := Nat.mul_le_mul_right _ hlow
  · rw [mantissa_shiftRight, Nat.div_lt_iff_lt_mul (Nat.two_pow_pos _), Nat.mul_comm (2 ^ 53)]
    exact Nat.mul_lt_mul_of_pos_right hhigh (Nat.two_pow_pos _)

/-- Rounding up may take one more digit, which the second shift drops. -/
theorem shift_rounded {r : Nat} {d : Int} (hlow : 2 ^ 52 ≤ r) (hhigh : r ≤ 2 ^ 53) (hd : 1 ≤ d) :
    ∃ m e, UnpackedFloat.shiftToTargetExponent Format.binary64 r d .exact =
      (⟨m, false, false⟩, e) ∧ 2 ^ 52 ≤ m ∧ m < 2 ^ 53 ∧ 1 ≤ e := by
  by_cases htop : r = 2 ^ 53
  · refine ⟨2 ^ 52, d + 1, ?_, by omega, by omega, by omega⟩
    have htarget : Format.binary64.targetExponent (totalExponent (2 ^ 52 * 2 ^ 1) d) = d + 1 := by
      rw [targetExponent_binary64, totalExponent, log2_mul_two_pow (by decide), Nat.log2_two_pow]
      omega
    rw [htop, show 2 ^ 53 = 2 ^ 52 * 2 ^ 1 by decide]
    simp only [UnpackedFloat.shiftToTargetExponent, UnpackedFloat.shiftToExponent]
    rw [htarget, show (d + 1 - d).toNat = 1 by omega]
    exact Prod.ext (shiftRight_exact 1 _) rfl
  · have hlog : r.log2 = 52 := (Nat.log2_eq_iff (by omega)).2 ⟨by omega, by omega⟩
    have htarget : Format.binary64.targetExponent (totalExponent r d) = d := by
      rw [targetExponent_binary64, totalExponent, hlog]
      omega
    exact ⟨r, d, shiftToTargetExponent_self htarget, by omega, by omega, hd⟩

/-- A whole number from `2^53` on is rounded to a multiple of two of at least that size. -/
theorem round_large {n : Nat} (hn : 2 ^ 53 ≤ n) :
    ∃ m e hm, UnpackedFloat.roundWithAccuracy Format.binary64 .positive (n * 2 ^ 53) (-53) .exact =
      .finite .positive m e hm ∧ 2 ^ 52 ≤ m ∧ m < 2 ^ 53 ∧ 1 ≤ e := by
  have hlog : 53 ≤ n.log2 := (Nat.le_log2 (by omega)).2 hn
  obtain ⟨em, hem, hmlow, hmhigh⟩ := shift_large hn
  obtain ⟨hrlow, hrhigh⟩ := le_roundedMantissa em
  obtain ⟨m, e, hshift, hm, hm', he⟩ := shift_rounded (r := em.roundedMantissa)
    (d := (n.log2 : Int) - 52) (by omega) (by omega) (by omega)
  refine ⟨m, e, by omega, ?_, hm, hm', he⟩
  simp only [UnpackedFloat.roundWithAccuracy, hem, hshift]
  rw [dif_neg (by omega)]

/-- So the double has a full mantissa and is even. -/
theorem toModel_ofNat_large {n : Nat} (hn : 2 ^ 53 ≤ n) :
    ∃ m e hm, (Float.ofNat n).toModel = Float.Model.pack (.finite .positive m e hm) ∧
      2 ^ 52 ≤ m ∧ m < 2 ^ 53 ∧ 1 ≤ e := by
  obtain ⟨m, e, hm, hround, hbounds⟩ := round_large hn
  refine ⟨m, e, hm, ?_, hbounds⟩
  have hslow : Float.ofNat n = Float.ofModel (Float.Model.ofScientific n 0) := by
    change Float.ofScientific n false 0 = _
    rw [Float.ofScientific, dif_neg (by omega)]
    rfl
  rw [hslow]
  change Float.Model.pack (UnpackedFloat.ofScientific Format.binary64 n 0) = _
  congr 1
  rw [← hround, UnpackedFloat.ofScientific, dif_neg (by omega), if_neg (by decide),
    if_neg (by change ¬ (0 : Int) < -(2 ^ 11 + n.log2); omega), if_pos (by decide)]
  simp only [UnpackedFloat.mul]
  rw [Nat.shiftLeft_eq, show Int.toNat 0 = 0 from rfl, Nat.pow_zero, Nat.mul_one, Int.add_zero]
  rfl

/-! ## Comparing -/

theorem lt_iff (x y : Float) :
    x < y ↔ x.toModel.unpack.compare y.toModel.unpack = some .lt := by
  change (decide (x.toModel < y.toModel)) = true ↔ _
  rw [decide_eq_true_iff]
  change (x.toModel.unpack.compare y.toModel.unpack == some .lt) = true ↔ _
  exact beq_iff_eq

theorem le_iff (x y : Float) :
    x ≤ y ↔ (x.toModel.unpack.compare y.toModel.unpack).any (·.isLE) = true := by
  change (decide (x.toModel ≤ y.toModel)) = true ↔ _
  rw [decide_eq_true_iff]
  rfl

/-- The exponent bits of a double. -/
theorem toNat_unpackExponent (b : BitVec Format.binary64.numBits) :
    (UnpackedFloat.unpackExponent b).toNat = b.toNat / 2 ^ 52 % 2048 := by
  simp [UnpackedFloat.unpackExponent, BitVec.extractLsb_toNat, Nat.shiftRight_eq_div_pow]

/-- The mantissa bits of a double. -/
theorem toNat_unpackMantissa (b : BitVec Format.binary64.numBits) :
    (UnpackedFloat.unpackMantissa b).toNat = b.toNat % 2 ^ 52 := by
  simp [UnpackedFloat.unpackMantissa, BitVec.extractLsb_toNat]

/-- The digits and the exponent of a double are those that it is unpacked into. -/
def Agrees (x : Float) : UnpackedFloat → Prop
  | .zero _ => (Binary.ofFloat x).m = 0
  | .finite _ m e _ => (Binary.ofFloat x).m = m ∧ (Binary.ofFloat x).q = e ∧ -1074 ≤ e ∧
    m < 2 ^ 53 ∧ (2 ^ 52 ≤ m ∨ e = -1074)
  | _ => True

/-- **Two ways to take a double apart.** -/
theorem agrees_unpack (x : Float) : Agrees x x.toModel.unpack := by
  have hexponent := toNat_unpackExponent x.toModel.toBits.toBitVec
  have hmantissa := toNat_unpackMantissa x.toModel.toBits.toBitVec
  have hbits : x.toModel.toBits.toBitVec.toNat = x.toBits.toNat := rfl
  rw [hbits] at hexponent hmantissa
  rw [Float.Model.unpack, UnpackedFloat.unpack]
  simp only
  split
  · split
    · trivial
    · trivial
  · split
    · rename_i hzero
      rw [hzero] at hexponent
      have he : x.toBits.toNat / exponentWeight % 2048 = 0 := hexponent.symm
      split
      · rename_i hnone
        rw [hnone] at hmantissa
        rw [Agrees, Binary.ofFloat, if_pos he]
        exact hmantissa.symm
      · -- below the normal forms
        rw [Agrees, Binary.ofFloat, if_pos he, hmantissa, hzero]
        exact ⟨rfl, rfl, by decide, by omega, .inr rfl⟩
    · rename_i hzero
      have he : ¬ x.toBits.toNat / exponentWeight % 2048 = 0 := by
        intro he
        refine hzero (BitVec.eq_of_toNat_eq ?_)
        exact hexponent.trans he
      have hfull : (1#1 ++ UnpackedFloat.unpackMantissa
          (show BitVec Format.binary64.numBits from x.toModel.toBits.toBitVec)).toNat =
            2 ^ 52 + x.toBits.toNat % 2 ^ 52 := by
        rw [BitVec.toNat_append, hmantissa]
        change 1 <<< 52 ||| x.toBits.toNat % 2 ^ 52 = _
        rw [← Nat.shiftLeft_add_eq_or_of_lt (Nat.mod_lt _ (Nat.two_pow_pos 52)),
          Nat.one_shiftLeft]
      rw [Agrees, Binary.ofFloat, if_neg he, hfull, hexponent]
      refine ⟨rfl, rfl, ?_, by omega, .inl (by omega)⟩
      have he' : ¬ x.toBits.toNat / 2 ^ 52 % 2048 = 0 := he
      change -1074 ≤ ((x.toBits.toNat / 2 ^ 52 % 2048 : Nat) : Int) - (1023 + 52)
      omega

/-- The sign of what is unpacked is the sign bit. -/
def signOf? : UnpackedFloat → Option Sign
  | .notANumber => none
  | .infinity s | .zero s | .finite s _ _ _ => some s

theorem signOf?_unpack_pack {u : UnpackedFloat} (h : signOf? u ≠ some .negative) :
    signOf? (Float.Model.pack u).unpack ≠ some .negative := by
  have hsign : UnpackedFloat.unpackSign (UnpackedFloat.pack Format.binary64 u) = 0#1 := by
    cases u with
    | notANumber => exact unpackSign_packComponents .positive _ _
    | infinity s =>
      cases s with
      | negative => exact absurd rfl h
      | positive => exact unpackSign_packComponents .positive _ _
    | zero s =>
      cases s with
      | negative => exact absurd rfl h
      | positive => exact unpackSign_packComponents .positive _ _
    | finite s m e hm =>
      cases s with
      | negative => exact absurd rfl h
      | positive =>
        simp only [UnpackedFloat.pack]
        split
        · exact unpackSign_packComponents .positive _ _
        · split
          · exact unpackSign_packComponents .positive _ _
          · exact unpackSign_packComponents .positive _ _
  change signOf? (UnpackedFloat.unpack Format.binary64 (UnpackedFloat.pack Format.binary64 u)) ≠ _
  rw [UnpackedFloat.unpack]
  simp only [hsign]
  split
  · split
    · simp [signOf?, Sign.ofBitVec]
    · simp [signOf?]
  · split
    · split
      · simp [signOf?, Sign.ofBitVec]
      · simp [signOf?, Sign.ofBitVec]
    · simp [signOf?, Sign.ofBitVec]

/-- A magnitude is not negative. -/
theorem signOf?_abs (x : Float) : signOf? x.abs.toModel.unpack ≠ some .negative := by
  change signOf? (Float.Model.pack x.toModel.unpack.abs).unpack ≠ some .negative
  apply signOf?_unpack_pack
  cases x.toModel.unpack with
  | notANumber => simp [signOf?, UnpackedFloat.abs]
  | infinity s => simp [signOf?, UnpackedFloat.abs]
  | zero s => simp [signOf?, UnpackedFloat.abs]
  | finite s m e hm => simp [signOf?, UnpackedFloat.abs]

/-- The order of normal forms is that of the magnitudes: `n` is more than `m₂ · 2^(-c)`. -/
theorem Counts.above {n m₁ m₂ c : Nat} {e₁ : Int} (h : Counts n m₁ e₁) (hless : m₂ < n * 2 ^ c)
    (hnormal : 2 ^ 52 ≤ m₂ ∨ c = 1074) :
    (compare e₁ (-c)).then (compare m₁ m₂) = .gt := by
  have hwhole := h.whole
  have hhigh := h.high
  obtain ⟨b, hb⟩ : ∃ b : Nat, e₁ + 52 = b := ⟨(e₁ + 52).toNat, by omega⟩
  have hvalue : m₁ * 2 ^ b = n * 2 ^ 52 := by
    have := h.value
    rwa [hb] at this
  have hscaled : m₂ * 2 ^ 52 < m₁ * 2 ^ (b + c) := by
    calc m₂ * 2 ^ 52 < n * 2 ^ c * 2 ^ 52 := Nat.mul_lt_mul_of_pos_right hless (Nat.two_pow_pos 52)
      _ = n * 2 ^ 52 * 2 ^ c := by ring
      _ = m₁ * 2 ^ (b + c) := by rw [← hvalue, Nat.pow_add, Nat.mul_assoc]
  rcases Int.lt_trichotomy e₁ (-c) with hlt | heq | hgt
  · -- then the first magnitude were below the second
    exfalso
    have hlow : 2 ^ 52 ≤ m₂ := hnormal.resolve_right (by omega)
    have hpow : 2 ^ (b + c) ≤ 2 ^ 51 := Nat.pow_le_pow_right (by decide) (by omega)
    have hup : m₁ * 2 ^ (b + c) < 2 ^ 53 * 2 ^ 51 := by
      calc m₁ * 2 ^ (b + c) ≤ m₁ * 2 ^ 51 := Nat.mul_le_mul_left _ hpow
        _ < 2 ^ 53 * 2 ^ 51 := Nat.mul_lt_mul_of_pos_right hhigh (Nat.two_pow_pos 51)
    have hdown : 2 ^ 52 * 2 ^ 52 ≤ m₂ * 2 ^ 52 := Nat.mul_le_mul_right _ hlow
    omega
  · have hsum : b + c = 52 := by omega
    rw [hsum] at hscaled
    have hmore : m₂ < m₁ := Nat.lt_of_mul_lt_mul_right hscaled
    rw [heq, Int.compare_eq_eq.2 rfl, Nat.compare_eq_gt.2 hmore]
    rfl
  · rw [Int.compare_eq_gt.2 hgt]
    rfl

theorem shift_zero (e : Int) : shift 0 e = 0 := by
  rw [shift]
  split <;> simp

/-- A shift behind the point cuts off. -/
theorem shift_neg (m c : Nat) : shift m (-c) = m / 2 ^ c := by
  rw [shift]
  split
  · obtain rfl : c = 0 := by omega
    simp
  · rw [Int.neg_neg, Int.toNat_natCast]
    rfl

/-- The number behind a count up to `2^53`, taken apart. -/
theorem exists_counts_succ {n : Nat} (h : n + 1 ≤ 2 ^ 53) : ∃ m e, ∃ hc : Counts (n + 1) m e,
    (Float.ofNat (n + 1)).toModel.unpack = .finite .positive m e hc.pos := by
  obtain ⟨m, e, hc⟩ := exists_counts (Nat.succ_pos n) h
  refine ⟨m, e, hc, ?_⟩
  rw [toModel_ofNat hc (Nat.succ_pos n) h, unpack_pack hc.toNormal]

/-- The integer part of zero. -/
theorem wholePart_of_zero {x : Float} {s : Sign} (h : x.toModel.unpack = .zero s) :
    wholePart x = 0 := by
  have hagrees := agrees_unpack x
  rw [h] at hagrees
  rw [wholePart, Binary.wholePart, show (Binary.ofFloat x).m = 0 from hagrees, shift_zero]

/-- The integer part of a double `m · 2^(-c)`. -/
theorem wholePart_of_finite {x : Float} {s : Sign} {m c : Nat} {hm : 0 < m}
    (h : x.toModel.unpack = .finite s m (-c) hm) : wholePart x = m / 2 ^ c := by
  have hagrees := agrees_unpack x
  rw [h] at hagrees
  obtain ⟨hm, he, -⟩ := hagrees
  rw [wholePart, Binary.wholePart, hm, he, shift_neg]

/-- What is below `2^53` in the order of normal forms has no positive exponent. -/
theorem exists_eq_neg_of_lt {m : Nat} {e : Int} {hm : 0 < m} (hleast : 2 ^ 52 ≤ m ∨ e = -1074)
    (h : (UnpackedFloat.finite .positive m e hm).compare
      (.finite .positive (2 ^ 52) 1 (by decide)) = some .lt) : ∃ c : Nat, e = -c := by
  simp only [UnpackedFloat.compare, Option.some.injEq] at h
  refine ⟨(-e).toNat, ?_⟩
  rcases Int.lt_trichotomy e 1 with hlt | heq | hgt
  · omega
  · -- the mantissa is no less than that of `2^53`
    rw [heq, Int.compare_eq_eq.2 rfl] at h
    have hless := Nat.compare_eq_lt.1 h
    omega
  · rw [Int.compare_eq_gt.2 hgt] at h
    cases h

/-- **The end of a count.** The whole double behind the integer part of a magnitude below `2^53` is
above it. -/
theorem not_ofNat_le_abs (x : Float) (hx : x.abs < Float.ofNat (2 ^ 53)) :
    wholePart x.abs + 1 ≤ 2 ^ 53 ∧ ¬ Float.ofNat (wholePart x.abs + 1) ≤ x.abs := by
  have hsign := signOf?_abs x
  have htop : (Float.ofNat (2 ^ 53)).toModel.unpack = .finite .positive (2 ^ 52) 1 (by decide) := rfl
  rw [lt_iff, htop] at hx
  generalize x.abs = y at hsign hx ⊢
  cases hu : y.toModel.unpack with
  | notANumber =>
    rw [hu] at hx
    cases hx
  | infinity s =>
    rw [hu] at hx hsign
    cases s with
    | negative => exact absurd rfl hsign
    | positive => cases hx
  | zero s =>
    have hle : wholePart y + 1 ≤ 2 ^ 53 := by
      rw [wholePart_of_zero hu]
      decide
    obtain ⟨m, e, h, hn⟩ := exists_counts_succ hle
    refine ⟨hle, ?_⟩
    rw [le_iff, hn, hu]
    simp [UnpackedFloat.compare]
  | finite s m₂ e₂ hm =>
    rw [hu] at hx hsign
    cases s with
    | negative => exact absurd rfl hsign
    | positive =>
      have hagrees := agrees_unpack y
      rw [hu] at hagrees
      obtain ⟨-, -, -, hhigh, hnormal⟩ := hagrees
      obtain ⟨c, rfl⟩ := exists_eq_neg_of_lt hnormal hx
      have hwhole := wholePart_of_finite hu
      have hle : wholePart y + 1 ≤ 2 ^ 53 := by
        rw [hwhole]
        have := Nat.div_le_self m₂ (2 ^ c)
        omega
      obtain ⟨m, e, h, hn⟩ := exists_counts_succ hle
      refine ⟨hle, ?_⟩
      have hless : m₂ < (wholePart y + 1) * 2 ^ c := by
        rw [hwhole, Nat.mul_comm]
        exact Nat.lt_mul_div_succ m₂ (Nat.two_pow_pos c)
      have habove := h.above hless (hnormal.imp_right fun heq => by omega)
      rw [le_iff, hn, hu]
      simp only [UnpackedFloat.compare, habove]
      decide

end BlockMachine.Decimal
