import BlockMachine.Proofs.Decimal.Places
import BlockMachine.Proofs.Decimal.Sums

/-!
# Integers of any size

Beyond `2^53` not every integer is a double. Those that are have 53 digits at most, and zeros behind
them; so are their divisors, and what is left of them in a division.

* `Representable` — the naturals that are doubles, as they have a normal form:
  `Representable.exists_counts`, `Form.representable`;
* `Representable.of_dvd`, `Representable.mod` — divisors and remainders;
* `Representable.form_ofNat` — counting gives the double of such a number;
* `integer`, `form_integer` — the integer that a whole double is.
-/

namespace BlockMachine.Decimal

open Float.Model (Format UnpackedFloat)
open Float.Model.UnpackedFloat (Sign)

/-- A natural that is a double: at most 53 binary digits and zeros behind them, and not more than
1024 in all. -/
structure Representable (n : Nat) : Prop where
  digits : ∃ a b, a < 2 ^ 53 ∧ n = a * 2 ^ b
  bounded : n.log2 < 1024

theorem log2_mono {m n : Nat} (h : m ≤ n) : m.log2 ≤ n.log2 := by
  rcases Nat.eq_zero_or_pos m with rfl | hm
  · exact Nat.zero_le _
  · exact (Nat.le_log2 (hm.trans_le h).ne').2 ((Nat.log2_self_le hm.ne').trans h)

/-! ## Normal forms -/

theorem Representable.of_le {n : Nat} (h : n ≤ 2 ^ 53) : Representable n := by
  refine ⟨?_, (log2_mono h).trans_lt (by decide +kernel)⟩
  rcases Nat.lt_or_eq_of_le h with hlt | rfl
  · exact ⟨n, 0, hlt, by rw [Nat.pow_zero, Nat.mul_one]⟩
  · exact ⟨1, 53, by decide, by decide⟩

theorem Counts.log2_eq {n m : Nat} {e : Int} (h : Counts n m e) : n.log2 = (e + 52).toNat := by
  have hpos := Nat.mul_pos h.pos (Nat.two_pow_pos (e + 52).toNat)
  rw [h.value] at hpos
  have hlog := congrArg Nat.log2 h.value
  rw [log2_mul_two_pow h.pos.ne', log2_mul_two_pow (Nat.pos_of_mul_pos_right hpos).ne', h.log2] at hlog
  omega

theorem Counts.representable {n m : Nat} {e : Int} (h : Counts n m e) : Representable n := by
  have hwhole := h.whole
  have hmost := h.most
  constructor
  · rcases Int.le_total 0 e with hpos | hneg
    · -- no place is behind the point
      refine ⟨m, e.toNat, h.high, ?_⟩
      refine Nat.eq_of_mul_eq_mul_right (Nat.two_pow_pos 52) ?_
      rw [← h.value, Nat.mul_assoc, ← Nat.pow_add]
      congr 2
      omega
    · have hm : m = n * 2 ^ (-e).toNat := by
        refine Nat.eq_of_mul_eq_mul_right (Nat.two_pow_pos (e + 52).toNat) ?_
        rw [h.value, Nat.mul_assoc, ← Nat.pow_add]
        congr 2
        omega
      have hle : n ≤ m := hm ▸ Nat.le_mul_of_pos_right n (Nat.two_pow_pos _)
      exact ⟨n, 0, hle.trans_lt h.high, by rw [Nat.pow_zero, Nat.mul_one]⟩
  · rw [h.log2_eq]
    omega

/-- **The normal form** of an integer that is a double: the digits are filled up with zeros. -/
theorem Representable.exists_counts {n : Nat} (h : Representable n) (hn : 0 < n) :
    ∃ m e, Counts n m e := by
  obtain ⟨⟨a, b, ha, rfl⟩, hbounded⟩ := h
  have ha0 : a ≠ 0 := fun h0 => absurd hn (by rw [h0, Nat.zero_mul]; exact Nat.lt_irrefl 0)
  obtain ⟨m, e, hc⟩ := Decimal.exists_counts (Nat.pos_of_ne_zero ha0) (Nat.le_of_lt ha)
  have hwhole := hc.whole
  have hvalue : m * 2 ^ (e + b + 52).toNat = a * 2 ^ b * 2 ^ 52 := by
    rw [show (e + b + 52).toNat = (e + 52).toNat + b by omega, Nat.pow_add, ← Nat.mul_assoc,
      hc.value]
    ring
  have hlog : (a * 2 ^ b).log2 = (e + 52).toNat + b := by rw [log2_mul_two_pow ha0, hc.log2_eq]
  exact ⟨m, e + b, ⟨⟨hc.low, hc.high, by omega, by omega⟩, by omega, hvalue⟩⟩

theorem Form.representable {z : Int} {u : UnpackedFloat} (hu : Form z u) :
    Representable z.natAbs := by
  cases hu with
  | zero s => exact .of_le (by decide)
  | finite s h pos =>
    rw [natAbs_apply]
    exact h.representable

theorem Representable.exists_form {z : Int} (h : Representable z.natAbs) : ∃ u, Form z u := by
  rcases Int.lt_trichotomy z 0 with hneg | rfl | hpos
  · obtain ⟨m, e, hc⟩ := h.exists_counts (by omega)
    have hform := Form.finite .negative hc (by omega)
    rw [show Sign.apply .negative (z.natAbs : Int) = z by simp only [Sign.apply]; omega] at hform
    exact ⟨_, hform⟩
  · exact ⟨_, .zero .positive⟩
  · obtain ⟨m, e, hc⟩ := h.exists_counts (by omega)
    have hform := Form.finite .positive hc (by omega)
    rw [show Sign.apply .positive (z.natAbs : Int) = z by simp only [Sign.apply]; omega] at hform
    exact ⟨_, hform⟩

/-! ## Divisors and remainders -/

/-- A divisor takes over some of the digits and some of the zeros. -/
theorem Representable.of_dvd {k n : Nat} (h : Representable n) (hn : 0 < n) (hdvd : k ∣ n) :
    Representable k := by
  obtain ⟨⟨a, b, ha, rfl⟩, hbounded⟩ := h
  refine ⟨?_, (log2_mono (Nat.le_of_dvd hn hdvd)).trans_lt hbounded⟩
  have hk0 : k ≠ 0 := (Nat.pos_of_dvd_of_pos hdvd hn).ne'
  obtain ⟨c, k, hodd, rfl⟩ := Nat.exists_eq_two_pow_mul_odd hk0
  have hcoprime : Nat.Coprime k (2 ^ b) := (Nat.coprime_two_right.2 hodd).pow_right b
  have hdigits : k ∣ a := hcoprime.dvd_of_dvd_mul_right ((Nat.dvd_mul_left k _).trans hdvd)
  have ha0 : 0 < a := Nat.pos_of_mul_pos_right hn
  exact ⟨k, c, (Nat.le_of_dvd ha0 hdigits).trans_lt ha, Nat.mul_comm _ _⟩

/-- What is left of a division has the digits of the side with fewer zeros. -/
theorem Representable.mod {m n : Nat} (hm : Representable m) (hn : Representable n) (hpos : 0 < n) :
    Representable (m % n) := by
  refine ⟨?_, (log2_mono (Nat.mod_le m n)).trans_lt hm.bounded⟩
  obtain ⟨⟨a, b, ha, rfl⟩, -⟩ := hm
  obtain ⟨⟨c, d, hc, rfl⟩, -⟩ := hn
  have hc0 : 0 < c := Nat.pos_of_mul_pos_right hpos
  rcases le_total b d with hle | hle
  · refine ⟨a % (c * 2 ^ (d - b)), b, (Nat.mod_le a _).trans_lt ha, ?_⟩
    rw [← Nat.mul_mod_mul_right, Nat.mul_assoc, ← Nat.pow_add, Nat.sub_add_cancel hle]
  · refine ⟨a * 2 ^ (b - d) % c, d, (Nat.mod_lt _ hc0).trans hc, ?_⟩
    rw [← Nat.mul_mod_mul_right, Nat.mul_assoc, ← Nat.pow_add, Nat.sub_add_cancel hle]

/-! ## Counting -/

/-- The normal form of an integer is the magnitude of a double. -/
theorem Counts.isDouble {n m : Nat} {e : Int} (h : Counts n m e) :
    (Binary.mk m e (decide (m = 2 ^ 52))).IsDouble := by
  have hwhole := h.whole
  refine ⟨h.pos, h.high, h.least, h.most, .inl h.low, ?_⟩
  rw [decide_eq_true_iff]
  exact ⟨fun hm => ⟨hm, by dsimp only; omega⟩, fun hm => hm.1⟩

/-- Counting is not exact beyond `2^53`, but it comes by the integers that are doubles. -/
theorem Representable.form_ofNat {n : Nat} (h : Representable n) :
    Form n (Float.ofNat n).toModel.unpack := by
  rcases Nat.eq_zero_or_pos n with rfl | hpos
  · exact Decimal.form_ofNat (Nat.zero_le _)
  · obtain ⟨m, e, hc⟩ := h.exists_counts hpos
    have hnearest := (Binary.mk m e (decide (m = 2 ^ 52))).nearest_value
    rw [Binary.value, hc.cast_value, ← mul_one (n : ℚ), ← pow_zero 10] at hnearest
    have hfloat : Float.ofNat n = hc.isDouble.float .positive :=
      ofScientific_nearest hc.isDouble hnearest
    rw [hfloat, hc.isDouble.unpack_float]
    exact .finite .positive hc hpos

/-! ## Whole doubles -/

/-- The integer that a whole double is. -/
def integer (x : Float) : Int :=
  if isNegative x then -(wholePart x) else wholePart x

theorem Form.integer {x : Float} {z : Int} (hx : Form z x.toModel.unpack) : integer x = z := by
  rw [Decimal.integer, hx.wholePart]
  have hsign := @isNegative_of_signOf? x
  generalize x.toModel.unpack = u at hx hsign
  cases hx with
  | zero s => exact ite_id _
  | @finite s n m e h pos =>
    rw [hsign rfl, natAbs_apply]
    cases s <;> rfl

/-- **Whole doubles** are integers. -/
theorem form_integer {x : Float} (h : isWhole x = true) : Form (integer x) x.toModel.unpack := by
  suffices hform : ∃ z, Form z x.toModel.unpack by
    obtain ⟨z, hz⟩ := hform
    rwa [hz.integer]
  rw [isWhole, Bool.and_eq_true] at h
  rcases finite_cases h.1 with ⟨s, rfl⟩ | ⟨hx, s, hs⟩
  · rw [unpack_zero]
    exact ⟨0, .zero s⟩
  · have hunpack : x.toModel.unpack =
        .finite s (Binary.ofFloat x).m (Binary.ofFloat x).q hx.pos :=
      (congrArg (·.toModel.unpack) hs).trans (hx.unpack_float s)
    obtain ⟨hpos, hcounts⟩ := hx.counts hx.normal h.2
    rw [hunpack]
    exact ⟨_, .finite s hcounts hpos⟩

end BlockMachine.Decimal
