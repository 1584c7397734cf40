import BlockMachine.Proofs.Decimal.PlainText
import BlockMachine.Proofs.Fraction.Ordering

/-!
# Quotients of special doubles

A quotient with a part that is not a number, infinite or zero is not a number, infinite or zero
itself, whatever the other part is.

* `unpack_infinity`, `unpack_zero` — what an infinity or a zero is packed into;
* `finite_cases`, `exists_infinity`, `exists_zero` — the doubles of each sort;
* `isNaN_div`, `isInf_div`, `isNaN_zero_div`, `zero_div_finite` — the quotients.
-/

namespace BlockMachine.Decimal

open Float.Model (Format UnpackedFloat)
open Float.Model.UnpackedFloat (Sign)

variable {x y : Float}

theorem div_eq (x y : Float) : x / y = .ofModel (.pack
    (UnpackedFloat.div Format.binary64 x.toModel.unpack y.toModel.unpack)) :=
  rfl

/-- What an infinity or a zero is packed into. -/
theorem unpack_infinity (s : Sign) :
    (Float.ofModel (.pack (.infinity s))).toModel.unpack = .infinity s := by
  cases s <;> rfl

theorem unpack_zero (s : Sign) : (Float.ofModel (.pack (.zero s))).toModel.unpack = .zero s := by
  cases s <;> rfl

theorem isInf_infinity (s : Sign) : (Float.ofModel (.pack (.infinity s))).isInf = true :=
  congrArg UnpackedFloat.isInf (unpack_infinity s)

theorem isFinite_infinity (s : Sign) : (Float.ofModel (.pack (.infinity s))).isFinite = false :=
  congrArg UnpackedFloat.isFinite (unpack_infinity s)

theorem isInf_zero (s : Sign) : (Float.ofModel (.pack (.zero s))).isInf = false :=
  congrArg UnpackedFloat.isInf (unpack_zero s)

theorem zero_beq_zero (s : Sign) : (Float.ofModel (.pack (.zero s)) == 0) = true := by
  have hzero : (0 : Float).toModel.unpack = .zero .positive := rfl
  rw [beq_iff_compared]
  change (Float.ofModel (.pack (.zero s))).toModel.unpack.compare (0 : Float).toModel.unpack = _
  rw [unpack_zero, hzero]
  rfl

theorem isNaN_notANumber : (Float.ofModel (.pack .notANumber)).isNaN = true := rfl

theorem isFinite_notANumber : (Float.ofModel (.pack .notANumber)).isFinite = false := rfl

theorem isInf_notANumber : (Float.ofModel (.pack .notANumber)).isInf = false := rfl

theorem isFinite_of (hnan : x.isNaN = false) (hinf : x.isInf = false) : x.isFinite = true := by
  replace hnan : x.toModel.unpack.isNaN = false := hnan
  replace hinf : x.toModel.unpack.isInf = false := hinf
  change x.toModel.unpack.isFinite = true
  cases hu : x.toModel.unpack with
  | notANumber =>
    rw [hu] at hnan
    cases hnan
  | infinity s =>
    rw [hu] at hinf
    cases hinf
  | zero s => rfl
  | finite s m q hm => rfl

theorem not_isInf_of_isFinite (hx : x.isFinite = true) : ¬ x.isInf = true := by
  intro hinf
  replace hx : x.toModel.unpack.isFinite = true := hx
  replace hinf : x.toModel.unpack.isInf = true := hinf
  cases hu : x.toModel.unpack with
  | infinity s =>
    rw [hu] at hx
    cases hx
  | _ =>
    rw [hu] at hinf
    cases hinf

/-- A finite double is a zero or has a magnitude. -/
theorem finite_cases (hx : x.isFinite = true) : (∃ s, x = .ofModel (.pack (.zero s))) ∨
    ∃ (hx : (Binary.ofFloat x).IsDouble) (s : Sign), x = hx.float s := by
  rcases float_cases x with rfl | ⟨s, rfl⟩ | h
  · rw [isFinite_notANumber] at hx
    cases hx
  · rw [isFinite_infinity] at hx
    cases hx
  · exact h

theorem exists_infinity (hx : x.isInf = true) : ∃ s, x = .ofModel (.pack (.infinity s)) := by
  rcases float_cases x with rfl | h | ⟨s, rfl⟩ | ⟨hm, s, hxs⟩
  · rw [isInf_notANumber] at hx
    cases hx
  · exact h
  · rw [isInf_zero] at hx
    cases hx
  · rw [hxs, hm.isInf_float] at hx
    cases hx

/-- The doubles that equal zero. -/
theorem exists_zero (hx : (x == 0) = true) : ∃ s, x = .ofModel (.pack (.zero s)) := by
  have hzero : (0 : Float).toModel.unpack = .zero .positive := rfl
  rw [beq_iff_compared] at hx
  change x.toModel.unpack.compare (0 : Float).toModel.unpack = some .eq at hx
  rw [hzero] at hx
  cases hu : x.toModel.unpack with
  | notANumber =>
    rw [hu] at hx
    cases hx
  | infinity s =>
    rw [hu] at hx
    cases s <;> cases hx
  | zero s => exact ⟨s, eq_of_unpack hu⟩
  | finite s m q hm =>
    rw [hu] at hx
    cases s <;> cases hx

/-- **Quotients without a value.** -/
theorem isNaN_div (hx : x.isNaN = true) (y : Float) : (x / y).isNaN = true := by
  have hnan : x / y = .ofModel (.pack .notANumber) := by
    rw [div_eq, unpack_of_isNaN hx]
    rfl
  rw [hnan]
  exact isNaN_notANumber

theorem isInf_div (hx : x.isInf = true) (hy : y.isFinite = true) : (x / y).isInf = true := by
  obtain ⟨s, rfl⟩ := exists_infinity hx
  have hquotient : ∃ s', Float.ofModel (.pack (.infinity s)) / y =
      .ofModel (.pack (.infinity s')) := by
    rcases finite_cases hy with ⟨s', rfl⟩ | ⟨hm, s', hys⟩
    · refine ⟨s / s', ?_⟩
      rw [div_eq, unpack_infinity, unpack_zero]
      rfl
    · refine ⟨s / s', ?_⟩
      rw [div_eq, unpack_infinity, hys, hm.unpack_float]
      rfl
  obtain ⟨s', hquotient⟩ := hquotient
  rw [hquotient]
  exact isInf_infinity s'

theorem isNaN_zero_div (hx : (x == 0) = true) (hy : (y == 0) = true) : (x / y).isNaN = true := by
  obtain ⟨s, rfl⟩ := exists_zero hx
  obtain ⟨s', rfl⟩ := exists_zero hy
  rw [div_eq, unpack_zero, unpack_zero]
  exact isNaN_notANumber

theorem zero_div_finite (hx : (x == 0) = true) (hy : y.isFinite = true) (hzero : (y == 0) = false) :
    (x / y == 0) = true := by
  obtain ⟨s, rfl⟩ := exists_zero hx
  rcases finite_cases hy with ⟨s', rfl⟩ | ⟨hm, s', hys⟩
  · rw [zero_beq_zero] at hzero
    cases hzero
  · have hquotient : Float.ofModel (.pack (.zero s)) / y = .ofModel (.pack (.zero (s / s'))) := by
      rw [div_eq, unpack_zero, hys, hm.unpack_float]
      rfl
    rw [hquotient]
    exact zero_beq_zero _

end BlockMachine.Decimal
