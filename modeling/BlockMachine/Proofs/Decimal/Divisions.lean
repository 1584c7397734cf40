import BlockMachine.Proofs.Decimal.Representable

/-!
# Divisions of integers

A quotient of integers that is an integer itself is not rounded. The remainder of any division of
integers is exact: it is put together from digits that the parts already have. Both hold for integers
of any size, as long as they are doubles.

* `form_div`, `Form.div` — quotients that come out whole;
* `Form.beq_iff` — equality of integers as doubles;
* `compose_eq` — putting a normal form together from fewer digits;
* `Form.remainder` — remainders.
-/

namespace BlockMachine.Decimal

open Float.Model (Format UnpackedFloat)
open Float.Model.UnpackedFloat (Sign)

/-! ## Signs -/

/-- The sign and the magnitude of an integer other than zero. -/
theorem apply_inj {s t : Sign} {n k : Nat} (h : s.apply n = t.apply k) (hn : 0 < n) :
    s = t ∧ n = k := by
  cases s <;> cases t <;> simp only [Sign.apply] at h <;> simp <;> omega

/-- The sign of a remainder is that of the dividend. -/
theorem apply_tmod (s t : Sign) (n k : Nat) :
    (s.apply n).tmod (t.apply k) = s.apply (n % k : Nat) := by
  cases s <;> cases t <;>
    simp [Sign.apply, Int.neg_tmod, Int.tmod_neg, Int.tmod_eq_emod_of_nonneg]

theorem mul_div_cancel_sign (s t : Sign) : s * t / t = s := by
  cases s <;> cases t <;> rfl

/-! ## Quotients -/

section Unpacked

variable {z w : Int} {u v r : UnpackedFloat}

/-- **Quotients** that are doubles are exact. -/
theorem form_div (hu : Form (z * w) u) (hv : Form w v) (hw : w ≠ 0) (hr : Form z r) :
    Form z (UnpackedFloat.div Format.binary64 u v) := by
  generalize hp : z * w = p at hu
  cases hv with
  | zero t => exact absurd rfl hw
  | @finite t k m' e' h' pos' =>
    cases hu with
    | zero s =>
      obtain rfl : z = 0 := (Int.mul_eq_zero.1 hp).resolve_right hw
      exact .zero _
    | @finite s n m e h pos =>
      cases hr with
      | zero s₀ =>
        have hn := congrArg Int.natAbs hp
        rw [Int.zero_mul, natAbs_apply] at hn
        exact absurd hn pos.ne
      | @finite s₀ n₀ m₀ e₀ h₀ pos₀ =>
        rw [← apply_mul, ← Nat.cast_mul] at hp
        obtain ⟨rfl, rfl⟩ := apply_inj hp (Nat.mul_pos pos₀ pos')
        have hvalue : (m * 2 ^ e / (m' * 2 ^ e') : ℚ) = m₀ * 2 ^ e₀ := by
          have hk : (k : ℚ) ≠ 0 := Nat.cast_ne_zero.2 pos'.ne'
          rw [h.cast_value, h'.cast_value, h₀.cast_value, Nat.cast_mul, mul_div_cancel_right₀ _ hk]
        have hnearest := (Binary.mk m₀ e₀ (decide (m₀ = 2 ^ 52))).nearest_value
        rw [Binary.value, ← hvalue] at hnearest
        rw [div_nearest h₀.isDouble hnearest h.pos h'.pos, mul_div_cancel_sign]
        exact .finite s₀ h₀ pos₀

end Unpacked

section Doubles

variable {x y : Float} {z w : Int}

theorem Form.div (hx : Form (z * w) x.toModel.unpack) (hy : Form w y.toModel.unpack)
    (hw : w ≠ 0) : Form z (x / y).toModel.unpack := by
  have hz : Representable z.natAbs := by
    rcases eq_or_ne z 0 with rfl | hne
    · exact .of_le (by decide)
    · refine hx.representable.of_dvd (Int.natAbs_pos.2 (Int.mul_ne_zero hne hw)) ?_
      exact Int.natAbs_dvd_natAbs.2 (Int.dvd_mul_right z w)
  obtain ⟨r, hr⟩ := hz.exists_form
  have hquotient := form_div hx hy hw hr
  rw [div_eq]
  change Form z (Float.Model.pack _).unpack
  rwa [hquotient.unpack_pack]

/-- Integers are equal as doubles if they are equal. -/
theorem Form.beq_iff (hx : Form z x.toModel.unpack) (hy : Form w y.toModel.unpack) :
    (x == y) = true ↔ z = w := by
  rw [beq_iff_compared]
  change x.toModel.unpack.compare y.toModel.unpack = _ ↔ _
  rw [hx.compare hy, Option.some.injEq, Int.compare_eq_eq]

theorem form_zero : Form 0 (0 : Float).toModel.unpack :=
  .zero .positive

/-- An integer is a number, and finite. -/
theorem Form.isNaN_isInf (hx : Form z x.toModel.unpack) : x.isNaN = false ∧ x.isInf = false := by
  change x.toModel.unpack.isNaN = false ∧ x.toModel.unpack.isInf = false
  generalize x.toModel.unpack = u at hx
  cases hx <;> exact ⟨rfl, rfl⟩

/-! ## Remainders -/

/-- The bits of fields that are put together, as a number. -/
theorem toNat_packComponents (s : Sign) (exponent : BitVec Format.binary64.exponentBits)
    (mantissa : BitVec Format.binary64.mantissaBitsWithoutImplicit) :
    (UnpackedFloat.packComponents Format.binary64 s exponent mantissa).toNat =
      (if s == .negative then signWeight else 0) + exponent.toNat * exponentWeight +
        mantissa.toNat := by
  have he := exponent.isLt
  have hm := mantissa.isLt
  have hs : s.toBitVec.toNat * 2 ^ 11 * 2 ^ 52 = if s == .negative then signWeight else 0 := by
    cases s <;> decide
  have hsum : (UnpackedFloat.packComponents Format.binary64 s exponent mantissa).toNat =
      (s.toBitVec.toNat * 2 ^ 11 + exponent.toNat) * 2 ^ 52 + mantissa.toNat := by
    rw [UnpackedFloat.packComponents, BitVec.toNat_append, BitVec.toNat_append,
      ← Nat.shiftLeft_add_eq_or_of_lt hm, ← Nat.shiftLeft_add_eq_or_of_lt he, Nat.shiftLeft_eq,
      Nat.shiftLeft_eq]
  have hweight : exponentWeight = 2 ^ 52 := rfl
  rw [hsum, Nat.add_mul, hs, hweight]

/-- **Putting a double together** from a mantissa that has less than its full number of digits. -/
theorem compose_eq {m k : Nat} {q : Int} (h : Normal (m * 2 ^ k) (q - k)) (s : Sign) :
    compose (s == .negative) m q = .ofModel (.pack (.finite s (m * 2 ^ k) (q - k) h.pos)) := by
  have hm : m ≠ 0 := fun h0 => absurd h.pos (by rw [h0, Nat.zero_mul]; exact Nat.lt_irrefl 0)
  have hlog : m.log2 + k = 52 := by rw [← log2_mul_two_pow hm, h.log2]
  have hleast := h.least
  have hmost := h.most
  have hlow := h.low
  have hhigh := h.high
  obtain ⟨b, hb⟩ : ∃ b : Nat, q - k + 1075 = b := ⟨(q - k + 1075).toNat, by omega⟩
  have hshift : shift m (52 - (m.log2 : Int)) = m * 2 ^ k := by
    rw [shift, if_pos (by omega), show (52 - (m.log2 : Int)).toNat = k by omega]
    rfl
  have hbits : (UInt64.ofNat ((if s == .negative then signWeight else 0) +
      (b * exponentWeight + (m * 2 ^ k - exponentWeight)))).toBitVec =
        UnpackedFloat.pack Format.binary64 (.finite s (m * 2 ^ k) (q - k) h.pos) := by
    refine BitVec.eq_of_toNat_eq ?_
    rw [pack_normal h s hb, toNat_packComponents, BitVec.toNat_ofNat, BitVec.toNat_ofNat]
    change (UInt64.ofNat _).toNat = _
    rw [UInt64.toNat_ofNat', signWeight, exponentWeight]
    change _ = _ + b % 2 ^ 11 * _ + m * 2 ^ k % 2 ^ 52
    split <;> omega
  rw [compose]
  simp only [hshift]
  rw [if_neg hm, if_neg (show ¬ (m.log2 : Int) + q < -1022 by omega),
    show ((m.log2 : Int) + q + 1023).toNat = b by omega]
  change Float.ofModel (.pack (UnpackedFloat.unpack Format.binary64 _)) = _
  rw [hbits]
  exact congrArg (fun u => Float.ofModel (.pack u)) (unpack_pack h s h.pos)

theorem compose_zero (q : Int) (s : Sign) :
    compose (s == .negative) 0 q = .ofModel (.pack (.zero s)) := by
  rw [compose, if_pos rfl]
  cases s <;> rfl

/-- The magnitude `m · 2^q` with few digits is packed as the whole number that it is. -/
theorem form_compose {n m : Nat} {q : Int} (hq : -52 ≤ q) (hm : m < 2 ^ 53) (hn : Representable n)
    (hvalue : m * 2 ^ (q + 52).toNat = n * 2 ^ 52) (s : Sign) :
    Form (s.apply n) (compose (s == .negative) m q).toModel.unpack := by
  rcases Nat.eq_zero_or_pos n with rfl | hpos
  · -- a zero, of either sign
    obtain rfl : m = 0 := by
      rw [Nat.zero_mul] at hvalue
      exact (Nat.mul_eq_zero.1 hvalue).resolve_right (Nat.two_pow_pos _).ne'
    rw [compose_zero, unpack_zero]
    cases s <;> exact .zero _
  · obtain ⟨m₀, e₀, h₀⟩ := hn.exists_counts hpos
    have hwhole := h₀.whole
    -- the mantissa is filled up with zeros
    have hle : e₀ ≤ q := by
      by_contra hlt
      have hscaled : 2 ^ 53 * 2 ^ (q + 52).toNat ≤ m * 2 ^ (q + 52).toNat := by
        calc 2 ^ 53 * 2 ^ (q + 52).toNat = 2 ^ 52 * 2 ^ ((q + 52).toNat + 1) := by
              rw [Nat.pow_succ]
              ring
          _ ≤ m₀ * 2 ^ (e₀ + 52).toNat :=
              Nat.mul_le_mul h₀.low (Nat.pow_le_pow_right (by decide) (by omega))
          _ = m * 2 ^ (q + 52).toNat := h₀.value.trans hvalue.symm
      have := Nat.le_of_mul_le_mul_right hscaled (Nat.two_pow_pos _)
      omega
    obtain ⟨k, rfl⟩ : ∃ k : Nat, e₀ = q - k := ⟨(q - e₀).toNat, by omega⟩
    obtain rfl : m₀ = m * 2 ^ k := by
      refine Nat.eq_of_mul_eq_mul_right (Nat.two_pow_pos (q - k + 52).toNat) ?_
      rw [h₀.value, ← hvalue, Nat.mul_assoc, ← Nat.pow_add]
      congr 2
      omega
    have hform := Form.finite s h₀ hpos
    rw [compose_eq h₀.toNormal]
    change Form (s.apply n) (Float.Model.pack _).unpack
    rwa [hform.unpack_pack]

/-- Digits that are shifted up. -/
theorem shift_eq_shiftLeft (m : Nat) {k : Int} (hk : 0 ≤ k) : shift m k = m <<< k.toNat := by
  rw [shift, if_pos hk, Nat.shiftLeft_eq]
  rfl

/-- **Remainders** of integers are exact, whatever their size. -/
theorem Form.remainder (hx : Form z x.toModel.unpack) (hy : Form w y.toModel.unpack)
    (hw : w ≠ 0) : Form (z.tmod w) (remainder x y).toModel.unpack := by
  have hguard : (x.isNaN || y.isNaN || x.isInf || y == 0) = false := by
    rw [hx.isNaN_isInf.1, hy.isNaN_isInf.1, hx.isNaN_isInf.2]
    exact Bool.eq_false_iff.2 (mt (hy.beq_iff form_zero).1 hw)
  rw [Decimal.remainder, hguard, hy.isNaN_isInf.2]
  dsimp only
  rw [if_neg Bool.false_ne_true, if_neg Bool.false_ne_true]
  have hagrees := agrees_unpack x
  have hagrees' := agrees_unpack y
  have hsign := @isNegative_of_signOf? x
  generalize x.toModel.unpack = u at hx hagrees hsign
  generalize y.toModel.unpack = v at hy hagrees'
  cases hy with
  | zero t => exact absurd rfl hw
  | @finite t k m' e' h' pos' =>
    obtain ⟨hm', he', -⟩ := hagrees'
    cases hx with
    | zero s =>
      have hm : (Binary.ofFloat x).m = 0 := hagrees
      have hnone : shift 0 ((Binary.ofFloat x).q - min (Binary.ofFloat x).q e') = 0 := by
        rw [shift_eq_shiftLeft 0 (by omega), Nat.zero_shiftLeft]
      rw [hm, he', hnone, Nat.zero_mod, hsign rfl, compose_zero, unpack_zero, Int.zero_tmod]
      exact .zero s
    | @finite s n m e h pos =>
      obtain ⟨hm, he, -⟩ := hagrees
      have hwhole := h.whole
      have hwhole' := h'.whole
      have hleft := h.shift_scaled (q := min e e') (by omega) (by omega)
      have hright := h'.shift_scaled (q := min e e') (by omega) (by omega)
      rw [hm, hm', he, he', hsign rfl, apply_tmod, shift_eq_shiftLeft m (by omega),
        shift_eq_shiftLeft m' (by omega)]
      refine form_compose (by omega) ?_ (h.representable.mod h'.representable pos') ?_ s
      · -- the side that is not shifted is small enough
        rcases le_total e e' with hle | hle
        · rw [show (e - min e e').toNat = 0 by omega, Nat.shiftLeft_zero]
          exact (Nat.mod_le _ _).trans_lt h.high
        · rw [show (e' - min e e').toNat = 0 by omega, Nat.shiftLeft_zero]
          exact (Nat.mod_lt _ h'.pos).trans h'.high
      · rw [← Nat.mul_mod_mul_right, hleft, hright, Nat.mul_mod_mul_right]

end Doubles

end BlockMachine.Decimal
