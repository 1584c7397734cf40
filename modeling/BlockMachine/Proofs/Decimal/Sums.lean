import BlockMachine.Fraction
import BlockMachine.Proofs.Decimal.Integers
import BlockMachine.Proofs.Decimal.Quotients
import BlockMachine.Proofs.Decimal.Reading

/-!
# Sums and products of integers

Doubles that are integers, of whatever size, have an exact sum, difference or product if that is a
double again; up to `2^53` in magnitude it always is.

* `normalize_of_result` — an integer that is a double is not rounded, however it is scaled;
* `form_add`, `form_sub`, `form_mul` — the operations on unpacked doubles;
* `Form.add`, `Form.sub`, `Form.mul`, `Form.neg`, `Form.abs` — on doubles, with `Form.add_ofInt`,
  `Form.mul_one` and `Form.isWhole`; `Form.eq_of_ne_zero`, `Form.isInteger` — back to integers;
* `Fraction.OverOne` — a fraction that is an integer over one; `OverOne.plus`, `OverOne.times`.
-/

namespace BlockMachine.Decimal

open Float.Model (Format UnpackedFloat)
open Float.Model.UnpackedFloat (Sign)

/-! ## Signs -/

theorem apply_mul (s t : Sign) (a b : Int) : (s * t).apply (a * b) = s.apply a * t.apply b := by
  cases s <;> cases t <;> simp [Sign.apply]

theorem apply_scale (s : Sign) (a b : Int) : s.apply (a * b) = s.apply a * b := by
  cases s <;> simp [Sign.apply]

theorem apply_neg (s : Sign) (a : Int) : (-s).apply a = -s.apply a := by
  cases s
  · exact (Int.neg_neg a).symm
  · rfl

theorem natAbs_apply (s : Sign) (n : Nat) : (s.apply n).natAbs = n := by
  cases s <;> simp [Sign.apply]

/-- An integer has the sign of its multiples. -/
theorem eq_apply_natAbs {k c d : Int} {s : Sign} {n : Nat} (hc : 0 < c) (hd : 0 ≤ d)
    (h : k * c = s.apply n * d) : k = s.apply k.natAbs := by
  have hn : (0 : Int) ≤ n * d := Int.mul_nonneg (Int.natCast_nonneg n) hd
  cases s with
  | positive =>
    have hk : 0 ≤ k := by
      by_contra hneg
      exact absurd (h ▸ mul_neg_of_neg_of_pos (not_le.1 hneg) hc) (not_lt.2 hn)
    simp only [Sign.apply]
    omega
  | negative =>
    have hk : k ≤ 0 := by
      by_contra hpos
      have hprod := mul_pos (not_le.1 hpos) hc
      rw [h, Sign.apply, Int.neg_mul] at hprod
      omega
    simp only [Sign.apply]
    omega

theorem normalize_apply (s : Sign) {n : Nat} (hn : 0 < n) (q : Int) :
    UnpackedFloat.normalize Format.binary64 (s.apply n) q .positive =
      UnpackedFloat.round Format.binary64 s n q := by
  cases s with
  | positive =>
    rw [UnpackedFloat.normalize, Int.compare_eq_gt.2 (by simpa [Sign.apply] using hn)]
    rfl
  | negative =>
    rw [UnpackedFloat.normalize, Int.compare_eq_lt.2 (by simpa [Sign.apply] using hn)]
    simp [Sign.apply]

/-! ## Unpacked doubles -/

section Unpacked

variable {z w : Int} {u v r : UnpackedFloat}

/-- An integer is unpacked as it was packed. -/
theorem Form.unpack_pack (hu : Form z u) : (Float.Model.pack u).unpack = u := by
  cases hu with
  | zero s => exact unpack_zero s
  | finite s h pos => exact Decimal.unpack_pack h.toNormal s h.pos

/-- **No rounding.** An integer that is a double keeps its form when it is given by a scaled
magnitude: `z = k · 2^(a - b)`, with both sides scaled up to integers. -/
theorem normalize_of_result (hu : Result z u) {k q : Int} {a b : Nat}
    (hvalue : k * 2 ^ a = z * 2 ^ b) (hq : q = a - b) :
    UnpackedFloat.normalize Format.binary64 k q .positive = u := by
  obtain ⟨hform, hplain⟩ := hu
  have hpow : ∀ c : Nat, (0 : Int) < 2 ^ c := fun c => by positivity
  cases hform with
  | zero s =>
    have hk : k = 0 := by
      rw [Int.zero_mul] at hvalue
      exact (Int.mul_eq_zero.1 hvalue).resolve_right (hpow a).ne'
    rw [hplain rfl, hk]
    rfl
  | @finite s n m e h pos =>
    have hwhole := h.whole
    -- the magnitude of `k` is scaled as the mantissa is
    have hround : k.natAbs * 2 ^ (a + 52) = m * 2 ^ ((e + 52).toNat + b) := by
      have habs := congrArg Int.natAbs hvalue
      rw [Int.natAbs_mul, Int.natAbs_mul, natAbs_apply, Int.natAbs_pow, Int.natAbs_pow] at habs
      rw [Nat.pow_add, Nat.pow_add, ← Nat.mul_assoc, ← Nat.mul_assoc, h.value]
      change k.natAbs * 2 ^ a = n * 2 ^ b at habs
      rw [habs]
      ring
    have hpos : 0 < k.natAbs := by
      refine Nat.pos_of_ne_zero fun hzero => ?_
      rw [hzero, Nat.zero_mul] at hround
      exact absurd hround (Nat.mul_pos h.pos (Nat.two_pow_pos _)).ne
    rw [eq_apply_natAbs (hpow a) (hpow b).le hvalue, normalize_apply s hpos]
    exact round_exact h.toNormal hround (by omega) s

/-- The digits of an integer from a place on, scaled. -/
theorem Counts.shift_scaled {n m : Nat} {e q : Int} (h : Counts n m e) (hq : -52 ≤ q)
    (hle : q ≤ e) : m <<< (e - q).toNat * 2 ^ (q + 52).toNat = n * 2 ^ 52 := by
  rw [Nat.shiftLeft_eq, Nat.mul_assoc, ← Nat.pow_add,
    show (e - q).toNat + (q + 52).toNat = (e + 52).toNat by omega, h.value]

theorem add_finite {s t : Sign} {n n' m m' : Nat} {e e' : Int} (h : Counts n m e)
    (h' : Counts n' m' e') (hr : Result (s.apply n + t.apply n') r) :
    UnpackedFloat.add Format.binary64 (.finite s m e h.pos) (.finite t m' e' h'.pos) = r := by
  have hwhole := h.whole
  have hwhole' := h'.whole
  have hleft := h.shift_scaled (q := min e e') (by omega) (by omega)
  have hright := h'.shift_scaled (q := min e e') (by omega) (by omega)
  have hnorm : UnpackedFloat.add Format.binary64 (.finite s m e h.pos) (.finite t m' e' h'.pos) =
      UnpackedFloat.normalize Format.binary64
        (s.apply (m <<< (e - min e e').toNat : Nat) +
          t.apply (m' <<< (e' - min e e').toNat : Nat)) (min e e') .positive := rfl
  rw [hnorm]
  refine normalize_of_result hr (a := (min e e' + 52).toNat) (b := 52) ?_ (by omega)
  rw [Int.add_mul, ← apply_scale, ← apply_scale, Int.add_mul, ← apply_scale, ← apply_scale]
  exact_mod_cast congrArg₂ (fun a b : Nat => s.apply a + t.apply b) hleft hright

/-- **Sums** that are doubles are exact. -/
theorem form_add (hu : Form z u) (hv : Form w v) (hr : Result (z + w) r) :
    Form (z + w) (UnpackedFloat.add Format.binary64 u v) := by
  cases hu with
  | zero s =>
    cases hv with
    | zero t =>
      rw [UnpackedFloat.add]
      split <;> exact .zero _
    | finite t h pos =>
      rw [Int.zero_add]
      exact .finite t h pos
  | finite s h pos =>
    cases hv with
    | zero t =>
      rw [Int.add_zero]
      exact .finite s h pos
    | finite t h' pos' =>
      rw [add_finite h h' hr]
      exact hr.form

/-- A sum is a negative zero only if both sides are. -/
theorem result_add (hu : Form z u) (hv : Result w v) (hr : Result (z + w) r) :
    UnpackedFloat.add Format.binary64 u v = r := by
  by_cases hzero : z + w = 0
  · obtain ⟨hform, hplain⟩ := hv
    cases hu with
    | zero s =>
      rw [hr.plain hzero, hplain (by omega)]
      cases s <;> rfl
    | finite s h pos =>
      cases hform with
      | zero t =>
        have hn := congrArg Int.natAbs hzero
        rw [Int.add_zero, natAbs_apply] at hn
        exact absurd hn pos.ne'
      | finite t h' pos' => exact add_finite h h' hr
  · have hsum := form_add hu hv.form hr
    exact Result.unique ⟨hsum, fun h => absurd h hzero⟩ hr

theorem form_neg (hu : Form z u) : Form (-z) u.neg := by
  cases hu with
  | zero s => exact .zero _
  | finite s h pos =>
    rw [← apply_neg]
    exact .finite (-s) h pos

/-- A difference is the sum with the opposite. -/
theorem sub_eq_add_neg (hu : Form z u) (hv : Form w v) :
    UnpackedFloat.sub Format.binary64 u v = UnpackedFloat.add Format.binary64 u v.neg := by
  cases hu with
  | zero s => cases hv <;> rfl
  | finite s h pos =>
    cases hv with
    | zero t => rfl
    | finite t h' pos' =>
      simp only [UnpackedFloat.sub, UnpackedFloat.add, UnpackedFloat.neg, apply_neg,
        Int.sub_eq_add_neg]

/-- **Differences** that are doubles are exact. -/
theorem form_sub (hu : Form z u) (hv : Form w v) (hr : Result (z - w) r) :
    Form (z - w) (UnpackedFloat.sub Format.binary64 u v) := by
  rw [sub_eq_add_neg hu hv]
  rw [Int.sub_eq_add_neg] at hr ⊢
  exact form_add hu (form_neg hv) hr

/-- The normal form of a product. -/
theorem Counts.mul {n n' m m' m₀ : Nat} {e e' e₀ : Int} (h : Counts n m e) (h' : Counts n' m' e')
    (h₀ : Counts (n * n') m₀ e₀) : ∃ k : Nat, m * m' = m₀ * 2 ^ k ∧ e + e' = e₀ - k := by
  have hwhole := h.whole
  have hwhole' := h'.whole
  have hwhole₀ := h₀.whole
  have hscaled : m * m' * 2 ^ ((e + 52).toNat + (e' + 52).toNat) =
      m₀ * 2 ^ ((e₀ + 52).toNat + 52) := by
    calc m * m' * 2 ^ ((e + 52).toNat + (e' + 52).toNat)
        = m * 2 ^ (e + 52).toNat * (m' * 2 ^ (e' + 52).toNat) := by rw [Nat.pow_add]; ring
      _ = n * n' * 2 ^ 52 * 2 ^ 52 := by rw [h.value, h'.value]; ring
      _ = m₀ * 2 ^ ((e₀ + 52).toNat + 52) := by rw [← h₀.value, Nat.pow_add]; ring
  -- the product of the mantissas has more digits than the mantissa of the product
  have hle : (e + 52).toNat + (e' + 52).toNat ≤ (e₀ + 52).toNat + 52 := by
    by_contra hlt
    have hlow : 2 ^ 52 * 2 ^ 52 ≤ m * m' := Nat.mul_le_mul h.low h'.low
    have hpow : 2 ^ ((e₀ + 52).toNat + 52) ≤ 2 ^ ((e + 52).toNat + (e' + 52).toNat) :=
      Nat.pow_le_pow_right (by decide) (by omega)
    have hless : m₀ * 2 ^ ((e₀ + 52).toNat + 52) <
        m * m' * 2 ^ ((e + 52).toNat + (e' + 52).toNat) :=
      calc m₀ * 2 ^ ((e₀ + 52).toNat + 52)
          < 2 ^ 53 * 2 ^ ((e₀ + 52).toNat + 52) :=
            Nat.mul_lt_mul_of_pos_right h₀.high (Nat.two_pow_pos _)
        _ ≤ m * m' * 2 ^ ((e + 52).toNat + (e' + 52).toNat) :=
            Nat.mul_le_mul (Nat.le_trans (by decide) hlow) hpow
    omega
  refine ⟨(e₀ + 52).toNat + 52 - ((e + 52).toNat + (e' + 52).toNat), ?_, by omega⟩
  refine Nat.eq_of_mul_eq_mul_right
    (Nat.two_pow_pos ((e + 52).toNat + (e' + 52).toNat)) ?_
  rw [hscaled, Nat.mul_assoc, ← Nat.pow_add, Nat.sub_add_cancel hle]

/-- **Products** that are doubles are exact. -/
theorem form_mul (hu : Form z u) (hv : Form w v) (hr : Form (z * w) r) :
    Form (z * w) (UnpackedFloat.mul Format.binary64 u v) := by
  cases hu with
  | zero s =>
    rw [Int.zero_mul]
    cases hv <;> exact .zero _
  | @finite s n m e h pos =>
    cases hv with
    | zero t =>
      rw [Int.mul_zero]
      exact .zero _
    | @finite t n' m' e' h' pos' =>
      rw [← apply_mul, ← Nat.cast_mul] at hr ⊢
      have hpos := Nat.mul_pos pos pos'
      generalize hp : (s * t).apply (n * n' : Nat) = p at hr ⊢
      cases hr with
      | zero _ =>
        have := congrArg Int.natAbs hp
        rw [natAbs_apply] at this
        exact absurd this hpos.ne'
      | @finite s₀ n₀ m₀ e₀ h₀ pos₀ =>
        obtain rfl : n * n' = n₀ := by
          have := congrArg Int.natAbs hp
          rwa [natAbs_apply, natAbs_apply] at this
        obtain ⟨k, hm, he⟩ := h.mul h' h₀
        rw [← hp, UnpackedFloat.mul, hm, he, roundWithAccuracy_exact h₀.toNormal]
        exact .finite (s * t) h₀ hpos

end Unpacked

/-! ## Doubles -/

section Doubles

variable {x y : Float} {z w : Int}

theorem Form.add (hx : Form z x.toModel.unpack) (hy : Form w y.toModel.unpack)
    (hz : (z + w).natAbs ≤ 2 ^ 53) : Form (z + w) (x + y).toModel.unpack := by
  obtain ⟨r, hr⟩ := exists_result hz
  have hsum := form_add hx hy hr
  change Form (z + w) (Float.Model.pack (UnpackedFloat.add Format.binary64 x.toModel.unpack
    y.toModel.unpack)).unpack
  rwa [hsum.unpack_pack]

theorem Form.add_ofInt (hx : Form z x.toModel.unpack) (hw : w.natAbs ≤ 2 ^ 53)
    (hz : (z + w).natAbs ≤ 2 ^ 53) : x + Float.ofInt w = Float.ofInt (z + w) := by
  obtain ⟨u, hu⟩ := exists_result hz
  obtain ⟨v, hv⟩ := exists_result hw
  refine eq_ofInt (u := u) ?_ hu hz
  change Float.Model.pack (UnpackedFloat.add Format.binary64 x.toModel.unpack
    (Float.ofInt w).toModel.unpack) = _
  rw [toModel_ofInt hv hw, unpack_of_result hv, result_add hx hv hu]

theorem Form.sub (hx : Form z x.toModel.unpack) (hy : Form w y.toModel.unpack)
    (hz : (z - w).natAbs ≤ 2 ^ 53) : Form (z - w) (x - y).toModel.unpack := by
  obtain ⟨r, hr⟩ := exists_result hz
  have hdifference := form_sub hx hy hr
  change Form (z - w) (Float.Model.pack (UnpackedFloat.sub Format.binary64 x.toModel.unpack
    y.toModel.unpack)).unpack
  rwa [hdifference.unpack_pack]

theorem form_unpack_mul {r : UnpackedFloat} (hx : Form z x.toModel.unpack)
    (hy : Form w y.toModel.unpack) (hr : Form (z * w) r) : Form (z * w) (x * y).toModel.unpack := by
  have hproduct := form_mul hx hy hr
  change Form (z * w) (Float.Model.pack (UnpackedFloat.mul Format.binary64 x.toModel.unpack
    y.toModel.unpack)).unpack
  rwa [hproduct.unpack_pack]

theorem Form.mul (hx : Form z x.toModel.unpack) (hy : Form w y.toModel.unpack)
    (hz : (z * w).natAbs ≤ 2 ^ 53) : Form (z * w) (x * y).toModel.unpack := by
  obtain ⟨r, hr⟩ := exists_result hz
  exact form_unpack_mul hx hy hr.form

theorem form_one : Form 1 (1 : Float).toModel.unpack := by
  rw [unpack_one]
  exact .finite .positive counts_one (by decide)

/-- Multiplying by one keeps integers of any size. -/
theorem Form.mul_one (hx : Form z x.toModel.unpack) : Form z (x * 1).toModel.unpack := by
  have hproduct := form_unpack_mul (r := x.toModel.unpack) hx form_one (by rwa [Int.mul_one])
  rwa [Int.mul_one] at hproduct

theorem Form.neg (hx : Form z x.toModel.unpack) : Form (-z) (-x).toModel.unpack := by
  have hneg := form_neg hx
  change Form (-z) (Float.Model.pack x.toModel.unpack.neg).unpack
  rwa [hneg.unpack_pack]

theorem Form.abs (hx : Form z x.toModel.unpack) : Form z.natAbs x.abs.toModel.unpack := by
  have habs : Form z.natAbs x.toModel.unpack.abs := by
    generalize x.toModel.unpack = u at hx
    cases hx with
    | zero s => exact .zero _
    | finite s h pos =>
      rw [natAbs_apply]
      exact .finite .positive h pos
  change Form z.natAbs (Float.Model.pack x.toModel.unpack.abs).unpack
  rwa [habs.unpack_pack]

/-- Only zero has two doubles. -/
theorem Form.eq_of_ne_zero (hx : Form z x.toModel.unpack) (hy : Form z y.toModel.unpack)
    (hz : z ≠ 0) : x = y := by
  have hplain : ∀ {u}, Form z u → Result z u := fun h => ⟨h, fun hzero => absurd hzero hz⟩
  have hsame := (hplain hx).unique (hplain hy)
  exact (eq_of_unpack hsame).trans (eq_of_unpack rfl).symm

/-- Up to `2^53` a double has the form of an integer only if it is one. -/
theorem Form.isInteger (hx : Form z x.toModel.unpack) (hz : z.natAbs ≤ 2 ^ 53) : IsInteger x z := by
  by_cases hzero : z = 0
  · subst hzero
    generalize hu : x.toModel.unpack = u at hx
    generalize hw : (0 : Int) = w at hx
    cases hx with
    | zero s =>
      rw [eq_of_unpack hu]
      cases s with
      | positive => exact .inl rfl
      | negative => exact .inr ⟨rfl, rfl⟩
    | @finite s n m e h pos =>
      have hn := congrArg Int.natAbs hw
      rw [natAbs_apply] at hn
      exact absurd hn pos.ne
  · obtain ⟨u, hu⟩ := exists_result hz
    have hsame : Result z x.toModel.unpack := ⟨hx, fun h => absurd h hzero⟩
    refine .inl (eq_ofInt ?_ hu hz)
    rw [← hsame.unique hu, pack_unpack]

theorem Form.isWhole (hx : Form z x.toModel.unpack) : isWhole x = true := by
  generalize hu : x.toModel.unpack = u at hx
  cases hx with
  | zero s =>
    rw [eq_of_unpack hu]
    cases s <;> decide +kernel
  | @finite s n m e h pos =>
    refine isWhole_of_unpack hu ?_
    rcases lt_or_ge e 0 with hneg | hpos
    · -- the places behind the point are zeros
      have hwhole := h.whole
      have hvalue := h.value
      have hsplit : 2 ^ 52 = 2 ^ (-e).toNat * 2 ^ (e + 52).toNat := by
        rw [← Nat.pow_add]
        congr 1
        omega
      rw [hsplit, ← Nat.mul_assoc] at hvalue
      right
      rw [Nat.eq_of_mul_eq_mul_right (Nat.two_pow_pos _) hvalue, Nat.mul_mod_left]
    · exact .inl hpos

end Doubles

end BlockMachine.Decimal

/-! ## Fractions -/

namespace BlockMachine.Fraction

open Decimal (Form)

/-- The integer `z` with the denominator one. -/
structure OverOne (r : Fraction) (z : Int) : Prop where
  numerator : Form z r.numerator.toModel.unpack
  denominator : r.denominator = 1

variable {r s : Fraction} {z w : Int}

/-- Only zero has two forms. -/
theorem OverOne.unique (hr : r.OverOne z) (hs : s.OverOne z) (hz : z ≠ 0) : r = s := by
  obtain ⟨x, d⟩ := r
  obtain ⟨y, e⟩ := s
  obtain ⟨hx, rfl⟩ := hr
  obtain ⟨hy, rfl⟩ := hs
  exact congrArg (Fraction.mk · 1) (hx.eq_of_ne_zero hy hz)

theorem overOne_ofFloat {x : Float} (hx : Form z x.toModel.unpack) : (ofFloat x).OverOne z := by
  rw [ofFloat, make, if_pos (by decide)]
  exact ⟨hx, rfl⟩

/-- What is over one is left alone, whatever it is. -/
theorem reduce_over_one (x : Float) : reduce ⟨x, 1⟩ = ⟨x, 1⟩ := by
  have hone : Decimal.isWhole 1 = true := by decide
  have hzero : ((1 : Float) == 0) = false := by decide
  have hself : ((1 : Float) != 1) = false := by decide
  cases hx : Decimal.isWhole x with
  | false => simp [reduce, hx, Decimal.float_div_one]
  | true => simp [reduce, hone, hx, hzero, hself]

theorem OverOne.plus (hr : r.OverOne z) (hs : s.OverOne w) (hz : (z + w).natAbs ≤ 2 ^ 53) :
    (r.plus s).OverOne (z + w) := by
  have hone : (1 : Float) * 1 = 1 := by decide
  have hsum := hr.numerator.mul_one.add hs.numerator.mul_one hz
  rw [Fraction.plus, hr.denominator, hs.denominator, hone, make, if_pos (by decide),
    reduce_over_one]
  exact ⟨hsum, rfl⟩

theorem OverOne.times (hr : r.OverOne z) (hs : s.OverOne w) (hz : (z * w).natAbs ≤ 2 ^ 53) :
    (r.times s).OverOne (z * w) := by
  have hone : (1 : Float) * 1 = 1 := by decide
  have hproduct := hr.numerator.mul hs.numerator hz
  rw [Fraction.times, hr.denominator, hs.denominator, hone, make, if_pos (by decide),
    reduce_over_one]
  exact ⟨hproduct, rfl⟩

end BlockMachine.Fraction
