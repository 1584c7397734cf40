import BlockMachine.Proofs.Decimal.Whole

/-!
# Integers as doubles

Integers up to `2^53` in magnitude are doubles, and what loops do with them is exact: adding one,
taking away a whole number, dividing by one, comparing. Zero has two doubles; sums and differences
give the positive one.

* `Form z u` — the unpacked double `u` is the integer `z`; `IsInteger x z` — so is the double `x`;
* `add_one`, `sub_ofNat`, `ofInt_div_one` — arithmetic on integers;
* `Form.lt_iff`, `Form.le_iff` — comparisons, `Form.wholePart` — the magnitude;
* `wholePart_le_of_le` — a double that is not above a length is at one of its places;
* `not_ofNat_lt` — the length of a list, however long, is not below one of its places.
-/

namespace BlockMachine.Decimal

open Float.Model (Format UnpackedFloat totalExponent)
open Float.Model.UnpackedFloat (Sign ExtendedMantissa)

/-! ## Forms -/

/-- The unpacked doubles that are an integer. -/
inductive Form : Int → UnpackedFloat → Prop where
  | zero (s : Sign) : Form 0 (.zero s)
  | finite (s : Sign) {n m : Nat} {e : Int} (h : Counts n m e) (pos : 0 < n) :
    Form (s.apply n) (.finite s m e h.pos)

/-- A double that is an integer; a zero may have either sign. -/
def IsInteger (x : Float) (z : Int) : Prop :=
  x = Float.ofInt z ∨ z = 0 ∧ x = -Float.ofInt 0

/-- The form that an integer has as the result of a computation: a zero is positive. -/
structure Result (z : Int) (u : UnpackedFloat) : Prop where
  form : Form z u
  plain : z = 0 → u = .zero .positive

theorem Result.unique {z : Int} {u v : UnpackedFloat} (hu : Result z u) (hv : Result z v) :
    u = v := by
  obtain ⟨hform, hplain⟩ := hu
  obtain ⟨hform', hplain'⟩ := hv
  by_cases hz : z = 0
  · rw [hplain hz, hplain' hz]
  · cases hform with
    | zero s => exact absurd rfl hz
    | @finite s n m e h pos =>
      generalize hw : s.apply n = w at *
      cases hform' with
      | zero s => exact absurd rfl hz
      | @finite s' n' m' e' h' pos' =>
        obtain ⟨rfl, rfl⟩ : s = s' ∧ n = n' := by
          cases s <;> cases s' <;> simp only [Sign.apply] at hw <;> simp <;> omega
        obtain ⟨rfl, rfl⟩ := h.unique h'
        rfl

theorem exists_result {z : Int} (hz : z.natAbs ≤ 2 ^ 53) : ∃ u, Result z u := by
  rcases Int.lt_trichotomy z 0 with hneg | rfl | hpos
  · obtain ⟨m, e, h⟩ := exists_counts (n := z.natAbs) (by omega) hz
    refine ⟨.finite .negative m e h.pos, ?_, by omega⟩
    have hform := Form.finite .negative h (by omega)
    rwa [show Sign.apply .negative (z.natAbs : Int) = z by simp only [Sign.apply]; omega] at hform
  · exact ⟨_, .zero .positive, fun _ => rfl⟩
  · obtain ⟨m, e, h⟩ := exists_counts (n := z.natAbs) (by omega) hz
    refine ⟨.finite .positive m e h.pos, ?_, by omega⟩
    have hform := Form.finite .positive h (by omega)
    rwa [show Sign.apply .positive (z.natAbs : Int) = z by simp only [Sign.apply]; omega] at hform

/-- An integer as a double. -/
theorem toModel_ofInt {z : Int} {u : UnpackedFloat} (hu : Result z u) (hz : z.natAbs ≤ 2 ^ 53) :
    (Float.ofInt z).toModel = Float.Model.pack u := by
  obtain ⟨hform, hplain⟩ := hu
  cases hform with
  | zero s =>
    rw [hplain rfl]
    decide +kernel
  | @finite s n m e h pos =>
    cases s with
    | positive =>
      exact toModel_ofNat h pos (by simpa [Sign.apply] using hz)
    | negative =>
      obtain ⟨k, rfl⟩ := Nat.exists_eq_add_one.2 pos
      have hle : k + 1 ≤ 2 ^ 53 := by
        simp only [Sign.apply] at hz
        omega
      have hneg : (Float.ofInt (Sign.apply .negative (k + 1 : Nat))).toModel
          = Float.Model.pack (Float.ofNat (k + 1)).toModel.unpack.neg := rfl
      rw [hneg, toModel_ofNat h pos hle, unpack_pack h.toNormal]
      rfl

theorem unpack_of_result {z : Int} {u : UnpackedFloat} (hu : Result z u) :
    (Float.Model.pack u).unpack = u := by
  obtain ⟨hform, hplain⟩ := hu
  cases hform with
  | zero s =>
    rw [hplain rfl]
    rfl
  | finite s h pos => exact unpack_pack h.toNormal s h.pos

theorem form_ofInt {z : Int} (hz : z.natAbs ≤ 2 ^ 53) : Form z (Float.ofInt z).toModel.unpack := by
  obtain ⟨u, hu⟩ := exists_result hz
  rw [toModel_ofInt hu hz, unpack_of_result hu]
  exact hu.form

theorem form_ofNat {n : Nat} (hn : n ≤ 2 ^ 53) : Form n (Float.ofNat n).toModel.unpack :=
  form_ofInt (z := n) (by simpa using hn)

theorem IsInteger.form {x : Float} {z : Int} (h : IsInteger x z) (hz : z.natAbs ≤ 2 ^ 53) :
    Form z x.toModel.unpack := by
  rcases h with rfl | ⟨rfl, rfl⟩
  · exact form_ofInt hz
  · exact .zero .negative

/-- Equal as doubles, if equal as results. -/
theorem eq_ofInt {x : Float} {z : Int} {u : UnpackedFloat} (hx : x.toModel = Float.Model.pack u)
    (hu : Result z u) (hz : z.natAbs ≤ 2 ^ 53) : x = Float.ofInt z :=
  congrArg Float.ofModel (hx.trans (toModel_ofInt hu hz).symm)

/-! ## Arithmetic -/

/-- An integer of a normal form is not rounded. -/
theorem normalize_result {z : Int} {u : UnpackedFloat} (hu : Result z u) (k : Nat) :
    UnpackedFloat.normalize Format.binary64 (z * (2 ^ k : Nat)) (-k) .positive = u := by
  obtain ⟨hform, hplain⟩ := hu
  cases hform with
  | zero s =>
    rw [hplain rfl, Int.zero_mul]
    rfl
  | @finite s n m e h pos =>
    cases s with
    | positive =>
      have hexact := normalize_exact (k := k) h pos
      rw [Nat.cast_mul] at hexact
      exact hexact
    | negative =>
      have hneg : Sign.apply .negative n * (2 ^ k : Nat) = -((n * 2 ^ k : Nat) : Int) := by
        simp [Sign.apply]
      have hpos : 0 < n * 2 ^ k := Nat.mul_pos pos (Nat.two_pow_pos k)
      have hcompare : compare (-((n * 2 ^ k : Nat) : Int)) 0 = .lt := by
        rw [Int.compare_eq_lt]
        omega
      have hwhole := h.whole
      rw [hneg, UnpackedFloat.normalize, hcompare]
      simp only [Int.neg_neg, Int.toNat_natCast]
      refine round_exact h.toNormal (a := 52) (b := (e + 52).toNat + k) ?_ ?_ _
      · rw [Nat.pow_add, ← Nat.mul_assoc, h.value]
        ring
      · omega

theorem unpack_one :
    (1 : Float).toModel.unpack = .finite .positive (2 ^ 52) (-52) (by decide) := rfl

theorem counts_one : Counts 1 (2 ^ 52) (-52) :=
  ⟨⟨by omega, by omega, by omega, by omega⟩, by omega, by decide⟩

/-- The digits of a whole number, with `k` places behind the point. -/
theorem Counts.shiftLeft {n m k : Nat} {e : Int} (h : Counts n m e) (hk : k ≤ 52)
    (hle : -(k : Int) ≤ e) : m <<< (e - -k).toNat = n * 2 ^ k := by
  refine Nat.eq_of_mul_eq_mul_right (Nat.two_pow_pos (52 - k)) ?_
  rw [Nat.shiftLeft_eq, Nat.mul_assoc, Nat.mul_assoc, ← Nat.pow_add, ← Nat.pow_add,
    show (e - -k).toNat + (52 - k) = (e + 52).toNat by omega, show k + (52 - k) = 52 by omega,
    h.value]

/-- Up to `2^52` there is a place behind the point. -/
theorem Counts.exponent_nonpos {n m : Nat} {e : Int} (h : Counts n m e) (hn : n ≤ 2 ^ 52) :
    e ≤ 0 := by
  by_contra hpos
  have hpow : 2 ^ 53 ≤ 2 ^ (e + 52).toNat := Nat.pow_le_pow_right (by decide) (by omega)
  have hle : 2 ^ 52 * 2 ^ 53 ≤ n * 2 ^ 52 := by
    rw [← h.value]
    exact Nat.mul_le_mul h.low hpow
  omega

/-- A signed magnitude with `k` places behind the point. -/
theorem apply_scaled (s : Sign) (n k : Nat) :
    s.apply ((n * 2 ^ k : Nat) : Int) = s.apply n * (2 ^ k : Nat) := by
  cases s with
  | positive => exact Nat.cast_mul n _
  | negative =>
    rw [Sign.apply, Sign.apply, Nat.cast_mul, Int.neg_mul]

theorem Form.exists_counts {n : Nat} {u : UnpackedFloat} (hu : Form n u) (hn : 0 < n) :
    ∃ (m : Nat) (e : Int) (h : Counts n m e), u = .finite .positive m e h.pos := by
  generalize hz : (n : Int) = z at hu
  cases hu with
  | zero s => omega
  | @finite s n' m e h pos =>
    cases s with
    | positive =>
      obtain rfl : n = n' := by simpa [Sign.apply] using hz
      exact ⟨m, e, h, rfl⟩
    | negative =>
      simp only [Sign.apply] at hz
      omega

/-- **Adding one is exact** up to `2^53`. -/
theorem add_one {x : Float} {z : Int} (hx : Form z x.toModel.unpack)
    (hz : (z + 1).natAbs ≤ 2 ^ 53) : x + 1 = Float.ofInt (z + 1) := by
  obtain ⟨u, hu⟩ := exists_result hz
  refine eq_ofInt (u := u) ?_ hu hz
  change Float.Model.pack (UnpackedFloat.add Format.binary64 x.toModel.unpack
    (1 : Float).toModel.unpack) = _
  rw [unpack_one]
  congr 1
  generalize x.toModel.unpack = v at hx
  cases hx with
  | zero s =>
    exact Result.unique ⟨.finite .positive counts_one (by decide), fun h => by cases h⟩ hu
  | @finite s n m e h pos =>
    have hmin : min e (-52) = -(52 : Nat) := by
      have hwhole := h.whole
      omega
    have hnorm := normalize_result hu 52
    rw [Int.add_mul, Int.one_mul, ← apply_scaled] at hnorm
    simp only [UnpackedFloat.add, UnpackedFloat.decreaseExponent, hmin,
      h.shiftLeft (k := 52) (Nat.le_refl _) h.whole]
    exact hnorm

/-- **Taking away a whole number is exact** down to `-2^53`. -/
theorem sub_ofNat {x : Float} {z : Int} (hx : Form z x.toModel.unpack) {w : Nat} (hpos : 0 < w)
    (hw : w ≤ 2 ^ 52) (hz : (z - w).natAbs ≤ 2 ^ 53) :
    x - Float.ofNat w = Float.ofInt (z - w) := by
  obtain ⟨u, hu⟩ := exists_result hz
  refine eq_ofInt (u := u) ?_ hu hz
  change Float.Model.pack (UnpackedFloat.sub Format.binary64 x.toModel.unpack
    (Float.ofNat w).toModel.unpack) = _
  obtain ⟨m', e', h', hw'⟩ := (form_ofNat (Nat.le_trans hw (by decide))).exists_counts hpos
  rw [hw']
  congr 1
  generalize x.toModel.unpack = v at hx
  cases hx with
  | zero s =>
    have hneg : Form (0 - w) (.finite .negative m' e' h'.pos) := by
      rw [Int.zero_sub]
      exact .finite .negative h' hpos
    exact Result.unique ⟨hneg, fun h => by omega⟩ hu
  | @finite s n m e h pos =>
    have hwhole := h.whole
    have hwhole' := h'.whole
    have hnonpos := h'.exponent_nonpos hw
    obtain ⟨k, hk⟩ : ∃ k : Nat, min e e' = -k := ⟨(-min e e').toNat, by omega⟩
    have hnorm := normalize_result hu k
    rw [Int.sub_mul, ← apply_scaled, ← Nat.cast_mul] at hnorm
    simp only [UnpackedFloat.sub, UnpackedFloat.decreaseExponent, hk,
      h.shiftLeft (k := k) (by omega) (by omega), h'.shiftLeft (k := k) (by omega) (by omega)]
    exact hnorm

theorem sub_one {x : Float} {z : Int} (hx : Form z x.toModel.unpack)
    (hz : (z - 1).natAbs ≤ 2 ^ 53) : x - 1 = Float.ofInt (z - 1) :=
  sub_ofNat hx (w := 1) (by decide) (by decide) hz

/-- **Dividing by one** changes no integer. -/
theorem ofInt_div_one {z : Int} (hz : z.natAbs ≤ 2 ^ 53) : Float.ofInt z / 1 = Float.ofInt z := by
  obtain ⟨u, hu⟩ := exists_result hz
  refine eq_ofInt (u := u) ?_ hu hz
  change Float.Model.pack (UnpackedFloat.div Format.binary64 (Float.ofInt z).toModel.unpack
    (1 : Float).toModel.unpack) = _
  rw [unpack_one, toModel_ofInt hu hz, unpack_of_result hu]
  congr 1
  obtain ⟨hform, hplain⟩ := hu
  cases hform with
  | zero s =>
    rw [hplain rfl]
    rfl
  | @finite s n m e h pos =>
    have hleast := h.least
    have hsign : s / .positive = s := by cases s <;> rfl
    have hcore : UnpackedFloat.divCore Format.binary64 m e (2 ^ 52) (-52) =
        (m * 2, e - 1, .exact) := by
      have htarget : min (e - -52) (Format.binary64.targetExponent
          (totalExponent m e - totalExponent (2 ^ 52) (-52))) = e - 1 := by
        rw [targetExponent_binary64, totalExponent, totalExponent, h.log2, Nat.log2_two_pow]
        have := h.whole
        omega
      have hshift : m <<< 53 = m * 2 * 2 ^ 52 := by
        rw [Nat.shiftLeft_eq]
        ring
      rw [UnpackedFloat.divCore, htarget, show (e - -52 - (e - 1)).toNat = 53 by omega, hshift,
        Nat.mul_div_cancel _ (Nat.two_pow_pos 52), Nat.mul_mod_left]
      rfl
    have hround := roundWithAccuracy_exact h.toNormal s 1
    rw [UnpackedFloat.div, hcore, hsign]
    exact hround

/-! ## Comparing -/

/-- Of two normal forms the one with the greater exponent is greater. -/
theorem Counts.lt_of_exponent {n n' m m' : Nat} {e e' : Int} (h : Counts n m e)
    (h' : Counts n' m' e') (hlt : e < e') : n < n' := by
  have hwhole := h.whole
  have hpow : 2 ^ 53 * 2 ^ (e + 52).toNat ≤ 2 ^ 52 * 2 ^ (e' + 52).toNat := by
    rw [← Nat.pow_add, ← Nat.pow_add]
    exact Nat.pow_le_pow_right (by decide) (by omega)
  have hscaled : n * 2 ^ 52 < n' * 2 ^ 52 := by
    rw [← h.value, ← h'.value]
    calc m * 2 ^ (e + 52).toNat < 2 ^ 53 * 2 ^ (e + 52).toNat :=
          Nat.mul_lt_mul_of_pos_right h.high (Nat.two_pow_pos _)
      _ ≤ 2 ^ 52 * 2 ^ (e' + 52).toNat := hpow
      _ ≤ m' * 2 ^ (e' + 52).toNat := Nat.mul_le_mul_right _ h'.low
  exact Nat.lt_of_mul_lt_mul_right hscaled

/-- Normal forms are in the order of the numbers. -/
theorem Counts.compare {n n' m m' : Nat} {e e' : Int} (h : Counts n m e) (h' : Counts n' m' e') :
    (compare e e').then (compare m m') = compare n n' := by
  rcases Int.lt_trichotomy e e' with hlt | rfl | hgt
  · rw [Int.compare_eq_lt.2 hlt, Nat.compare_eq_lt.2 (h.lt_of_exponent h' hlt)]
    rfl
  · have hpow := Nat.two_pow_pos (e + 52).toNat
    have hvalue := h.value
    have hvalue' := h'.value
    rw [Int.compare_eq_eq.2 rfl]
    change Ord.compare m m' = Ord.compare n n'
    rcases Nat.lt_trichotomy m m' with hlt | rfl | hgt
    · have := Nat.mul_lt_mul_of_pos_right hlt hpow
      rw [Nat.compare_eq_lt.2 hlt, Nat.compare_eq_lt.2 (by omega)]
    · rw [Nat.compare_eq_eq.2 rfl, Nat.compare_eq_eq.2 (by omega)]
    · have := Nat.mul_lt_mul_of_pos_right hgt hpow
      rw [Nat.compare_eq_gt.2 hgt, Nat.compare_eq_gt.2 (by omega)]
  · rw [Int.compare_eq_gt.2 hgt, Nat.compare_eq_gt.2 (h'.lt_of_exponent h hgt)]
    rfl

/-- **Integers are compared as such.** -/
theorem Form.compare {z w : Int} {u v : UnpackedFloat} (hu : Form z u) (hv : Form w v) :
    u.compare v = some (compare z w) := by
  cases hu with
  | zero s =>
    cases hv with
    | zero s' => rfl
    | @finite s' n' m' e' h' pos' =>
      cases s' with
      | positive => rw [Int.compare_eq_lt.2 (by simp only [Sign.apply]; omega)]; rfl
      | negative => rw [Int.compare_eq_gt.2 (by simp only [Sign.apply]; omega)]; rfl
  | @finite s n m e h pos =>
    cases hv with
    | zero s' =>
      cases s with
      | positive => rw [Int.compare_eq_gt.2 (by simp only [Sign.apply]; omega)]; rfl
      | negative => rw [Int.compare_eq_lt.2 (by simp only [Sign.apply]; omega)]; rfl
    | @finite s' n' m' e' h' pos' =>
      have hcompare := h.compare h'
      cases s with
      | positive =>
        cases s' with
        | positive =>
          simp only [UnpackedFloat.compare, Sign.apply, hcompare]
          rcases Nat.lt_trichotomy n n' with hlt | rfl | hgt
          · rw [Nat.compare_eq_lt.2 hlt, Int.compare_eq_lt.2 (by omega)]
          · rw [Nat.compare_eq_eq.2 rfl, Int.compare_eq_eq.2 rfl]
          · rw [Nat.compare_eq_gt.2 hgt, Int.compare_eq_gt.2 (by omega)]
        | negative => rw [Int.compare_eq_gt.2 (by simp only [Sign.apply]; omega)]; rfl
      | negative =>
        cases s' with
        | positive => rw [Int.compare_eq_lt.2 (by simp only [Sign.apply]; omega)]; rfl
        | negative =>
          simp only [UnpackedFloat.compare, Sign.apply, hcompare]
          rcases Nat.lt_trichotomy n n' with hlt | rfl | hgt
          · rw [Nat.compare_eq_lt.2 hlt, Int.compare_eq_gt.2 (by omega)]
            rfl
          · rw [Nat.compare_eq_eq.2 rfl, Int.compare_eq_eq.2 rfl]
            rfl
          · rw [Nat.compare_eq_gt.2 hgt, Int.compare_eq_lt.2 (by omega)]
            rfl

section

variable {x y : Float} {z w : Int}

theorem Form.lt_iff (hx : Form z x.toModel.unpack) (hy : Form w y.toModel.unpack) :
    x < y ↔ z < w := by
  rw [Decimal.lt_iff, hx.compare hy, Option.some.injEq, Int.compare_eq_lt]

theorem Form.le_iff (hx : Form z x.toModel.unpack) (hy : Form w y.toModel.unpack) :
    x ≤ y ↔ z ≤ w := by
  rw [Decimal.le_iff, hx.compare hy, Option.any_some, Int.isLE_compare]

/-- The integer part of an integer is its magnitude. -/
theorem Form.wholePart (hx : Form z x.toModel.unpack) : wholePart x = z.natAbs := by
  have hagrees := agrees_unpack x
  generalize x.toModel.unpack = u at hx hagrees
  cases hx with
  | zero s =>
    rw [Decimal.wholePart, Binary.wholePart, show (Binary.ofFloat x).m = 0 from hagrees, shift_zero]
    rfl
  | @finite s n m e h pos =>
    obtain ⟨hm, he, -⟩ := hagrees
    have hvalue := h.value
    have hwhole := h.whole
    have habs : (s.apply n).natAbs = n := by cases s <;> simp [Sign.apply]
    rw [Decimal.wholePart, Binary.wholePart, hm, he, habs, shift]
    split
    · have hsplit : 2 ^ (e + 52).toNat = 2 ^ e.toNat * 2 ^ 52 := by
        rw [← Nat.pow_add]
        congr 1
        omega
      rw [hsplit, ← Nat.mul_assoc] at hvalue
      exact Nat.eq_of_mul_eq_mul_right (Nat.two_pow_pos 52) hvalue
    · have hsplit : 2 ^ 52 = 2 ^ (-e).toNat * 2 ^ (e + 52).toNat := by
        rw [← Nat.pow_add]
        congr 1
        omega
      rw [hsplit, ← Nat.mul_assoc] at hvalue
      rw [Nat.eq_of_mul_eq_mul_right (Nat.two_pow_pos _) hvalue]
      exact Nat.mul_div_cancel _ (Nat.two_pow_pos _)

end

/-- The magnitude `m · 2^e`, if it is not above a whole number. -/
theorem Counts.shift_le {n m₁ m : Nat} {e₁ e : Int} (h : Counts n m₁ e₁) (hm : m < 2 ^ 53)
    (hle : e < e₁ ∨ e = e₁ ∧ m ≤ m₁) : shift m e ≤ n := by
  have hwhole := h.whole
  obtain ⟨b, hb⟩ : ∃ b : Nat, e₁ + 52 = b := ⟨(e₁ + 52).toNat, by omega⟩
  have hvalue : m₁ * 2 ^ b = n * 2 ^ 52 := by
    have := h.value
    rwa [hb] at this
  -- both magnitudes with `a` more places in front of the point and `c` more behind it
  have hscaled : ∀ a c : Nat, e = a - c → m * 2 ^ a * 2 ^ 52 ≤ n * 2 ^ c * 2 ^ 52 := by
    intro a c he
    have hright : n * 2 ^ c * 2 ^ 52 = m₁ * 2 ^ (b + c) := by
      rw [Nat.pow_add, ← Nat.mul_assoc, hvalue]
      ring
    rw [Nat.mul_assoc, ← Nat.pow_add, hright]
    rcases hle with hlt | ⟨rfl, hmm⟩
    · calc m * 2 ^ (a + 52) ≤ 2 ^ 53 * 2 ^ (a + 52) := Nat.mul_le_mul_right _ (Nat.le_of_lt hm)
        _ = 2 ^ 52 * 2 ^ (a + 53) := by rw [← Nat.pow_add, ← Nat.pow_add]; congr 1; omega
        _ ≤ m₁ * 2 ^ (b + c) :=
          Nat.mul_le_mul h.low (Nat.pow_le_pow_right (by decide) (by omega))
    · rw [show a + 52 = b + c by omega]
      exact Nat.mul_le_mul_right _ hmm
  rw [shift]
  split
  · have hup := Nat.le_of_mul_le_mul_right (hscaled e.toNat 0 (by omega)) (Nat.two_pow_pos 52)
    rwa [Nat.pow_zero, Nat.mul_one] at hup
  · have hdown := Nat.le_of_mul_le_mul_right (hscaled 0 (-e).toNat (by omega)) (Nat.two_pow_pos 52)
    rw [Nat.pow_zero, Nat.mul_one, Nat.mul_comm] at hdown
    exact Nat.div_le_of_le_mul hdown

/-- **Places.** The integer part of a double between one and a length is a place. -/
theorem wholePart_le_of_le {x : Float} {n : Nat} (hn : n ≤ 2 ^ 53) (hone : 1 ≤ x)
    (hle : x ≤ Float.ofNat n) : 0 < n ∧ wholePart x ≤ n := by
  have hagrees := agrees_unpack x
  have hform := form_ofNat hn
  rw [le_iff, unpack_one] at hone
  rw [le_iff] at hle
  generalize (Float.ofNat n).toModel.unpack = v at hform hle
  generalize hz : (n : Int) = z at hform
  cases hu : x.toModel.unpack with
  | notANumber =>
    rw [hu] at hone
    cases hone
  | infinity s =>
    rw [hu] at hone hle
    cases s with
    | negative => cases hone
    | positive =>
      cases hform with
      | zero s => cases hle
      | finite s h pos => cases hle
  | zero s =>
    rw [hu] at hone
    cases hone
  | finite s m e hm =>
    rw [hu] at hone hle hagrees
    obtain ⟨hm', he, -, hhigh, -⟩ := hagrees
    cases s with
    | negative => cases hone
    | positive =>
      cases hform with
      | zero s => cases hle
      | @finite s k m₁ e₁ h pos =>
        obtain ⟨rfl, rfl⟩ : s = .positive ∧ n = k := by
          cases s <;> simp only [Sign.apply] at hz <;> simp <;> omega
        refine ⟨pos, ?_⟩
        rw [Decimal.wholePart, Binary.wholePart, hm', he]
        apply h.shift_le hhigh
        simp only [UnpackedFloat.compare, Option.any_some] at hle
        rcases Int.lt_trichotomy e e₁ with hlt | rfl | hgt
        · exact .inl hlt
        · rw [Int.compare_eq_eq.2 rfl] at hle
          exact .inr ⟨rfl, Nat.isLE_compare.1 hle⟩
        · rw [Int.compare_eq_gt.2 hgt] at hle
          cases hle

/-! ## Beyond exact counting -/

/-- What is too great for a double is packed as infinite. -/
theorem unpack_pack_large {m : Nat} {e : Int} (he : 971 < e) (hm : 0 < m) :
    (Float.Model.pack (.finite .positive m e hm)).unpack = .infinity .positive := by
  have hpack : UnpackedFloat.pack Format.binary64 (.finite .positive m e hm) =
      UnpackedFloat.packedInfinity Format.binary64 .positive := by
    have hbiased : 2046 < (e + (Format.binary64.exponentBias : Nat) +
        (Format.binary64.mantissaBitsWithoutImplicit : Nat)).toNat := by
      change 2046 < (e + 1023 + 52).toNat
      omega
    simp only [UnpackedFloat.pack]
    rw [if_pos (Nat.succ_le_succ hbiased)]
  change UnpackedFloat.unpack Format.binary64 (UnpackedFloat.pack Format.binary64 _) = _
  rw [hpack]
  rfl

/-- **Lengths and places.** A length is not below one of its places, also if it is too great to be
counted in doubles. -/
theorem not_ofNat_lt {n i : Nat} (hle : i ≤ n) (hi : i ≤ 2 ^ 53) :
    ¬ Float.ofNat n < Float.ofNat i := by
  by_cases hn : n ≤ 2 ^ 53
  · rw [(form_ofNat hn).lt_iff (form_ofNat hi)]
    omega
  · obtain ⟨m, e, hm, hmodel, hlow, hhigh, he⟩ := toModel_ofNat_large (n := n) (by omega)
    have hform := form_ofNat hi
    rw [Decimal.lt_iff, hmodel]
    generalize (Float.ofNat i).toModel.unpack = v at hform
    generalize hz : (i : Int) = z at hform
    by_cases hmost : e ≤ 971
    · rw [unpack_pack ⟨hlow, hhigh, by omega, hmost⟩]
      cases hform with
      | zero s => simp [UnpackedFloat.compare]
      | @finite s k m' e' h' pos =>
        obtain ⟨rfl, rfl⟩ : s = .positive ∧ i = k := by
          cases s <;> simp only [Sign.apply] at hz <;> simp <;> omega
        have hvalue := h'.value
        have htop : Counts (2 ^ 53) (2 ^ 52) 1 :=
          ⟨⟨by omega, by omega, by omega, by omega⟩, by omega, by decide⟩
        have he' : e' ≤ 1 := by
          by_contra hmore
          have := htop.lt_of_exponent h' (by omega)
          omega
        simp only [UnpackedFloat.compare, Option.some.injEq]
        rcases Int.lt_or_eq_of_le (show e' ≤ e by omega) with hlt | rfl
        · rw [Int.compare_eq_gt.2 hlt]
          exact fun h => by cases h
        · obtain rfl : e' = 1 := by omega
          have hm' : m' ≤ 2 ^ 52 := by
            rw [show (1 + 52 : Int).toNat = 53 by decide] at hvalue
            omega
          rw [Int.compare_eq_eq.2 rfl]
          change ¬ compare m m' = .lt
          rw [Nat.compare_eq_lt]
          omega
    · rw [unpack_pack_large (by omega)]
      cases hform with
      | zero s => simp [UnpackedFloat.compare]
      | finite s h pos => simp [UnpackedFloat.compare]

end BlockMachine.Decimal
