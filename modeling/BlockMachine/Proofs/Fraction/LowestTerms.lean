import BlockMachine.Proofs.Decimal.Divisions

/-!
# Lowest terms

A fraction of integers is brought to lowest terms exactly, however large the integers are: Euclid's
algorithm on doubles has exact remainders, and dividing by the greatest common divisor is exact as
well. What has been reduced once is not changed by being reduced again, whatever its parts are.

* `Euclid` — Euclid's algorithm on doubles, which finds the `commonDivisor`;
* `form_reduce` — reducing a fraction of integers;
* `reduce_reduce` — reducing twice;
* `Integers r`, `Lowest r s` — fractions of integers, and lowest terms: `reduce_lowest`.
-/

namespace BlockMachine.Fraction

open Decimal (Form isWhole integer)

/-! ## Euclid's algorithm -/

/-- **Euclid's algorithm** on doubles: divides with remainder until nothing is left. -/
inductive Euclid : Float → Float → Float → Prop where
  | done {x y : Float} (h : (y == 0) = true) : Euclid x y x
  | step {x y g : Float} (h : (y == 0) = false) (rest : Euclid y (Decimal.remainder x y) g) :
    Euclid x y g

/-- On naturals as doubles it ends with the greatest common divisor. -/
theorem exists_euclid (m n : Nat) : ∀ {x y : Float}, Form m x.toModel.unpack →
    Form n y.toModel.unpack → ∃ g, Euclid x y g ∧ Form (Nat.gcd m n) g.toModel.unpack := by
  induction n using Nat.strongRecOn generalizing m with
  | ind n ih =>
    intro x y hx hy
    rcases Nat.eq_zero_or_pos n with rfl | hpos
    · rw [Nat.gcd_zero_right]
      exact ⟨x, .done ((hy.beq_iff Decimal.form_zero).2 rfl), hx⟩
    · have hne : (n : Int) ≠ 0 := by omega
      have hremainder := hx.remainder hy hne
      rw [← Int.ofNat_tmod] at hremainder
      obtain ⟨g, heuclid, hg⟩ := ih (m % n) (Nat.mod_lt m hpos) n hy hremainder
      rw [Nat.gcd_comm, ← Nat.gcd_rec, Nat.gcd_comm] at hg
      exact ⟨g, .step (Bool.eq_false_iff.2 (mt (hy.beq_iff Decimal.form_zero).1 hne)) heuclid, hg⟩

section

variable {x y : Float} {n d : Int}

theorem gcd_ne_zero (n : Int) (hne : d ≠ 0) : ((Int.gcd n d : Nat) : Int) ≠ 0 := by
  have := Int.gcd_pos_of_ne_zero_right n hne
  omega

theorem form_commonDivisor (hx : Form n x.toModel.unpack) (hy : Form d y.toModel.unpack)
    (hne : d ≠ 0) : Form (Int.gcd n d) (commonDivisor x y).toModel.unpack := by
  rw [commonDivisor, hx.wholePart, hy.wholePart]
  have hdvd : Nat.gcd n.natAbs d.natAbs ∣ d.natAbs := Nat.gcd_dvd_right _ _
  exact (hy.representable.of_dvd (Int.natAbs_pos.2 hne) hdvd).form_ofNat

/-- **The greatest common divisor** is what Euclid's algorithm comes to, whichever of the two
magnitudes comes first. -/
theorem euclid_commonDivisor (hx : Form n x.toModel.unpack) (hy : Form d y.toModel.unpack)
    (hne : d ≠ 0) :
    Euclid x.abs y.abs (commonDivisor x y) ∧ Euclid y.abs x.abs (commonDivisor x y) := by
  have hform := form_commonDivisor hx hy hne
  constructor
  · obtain ⟨g, heuclid, hg⟩ := exists_euclid _ _ hx.abs hy.abs
    rwa [hg.eq_of_ne_zero hform (gcd_ne_zero n hne)] at heuclid
  · obtain ⟨g, heuclid, hg⟩ := exists_euclid _ _ hy.abs hx.abs
    rw [Nat.gcd_comm] at hg
    rwa [hg.eq_of_ne_zero hform (gcd_ne_zero n hne)] at heuclid

/-! ## Reducing -/

theorem form_signOf (hx : Form n x.toModel.unpack) : Form n.sign (signOf x).toModel.unpack := by
  rw [signOf]
  rcases Int.lt_trichotomy n 0 with hneg | rfl | hpos
  · rw [if_neg (mt (Decimal.form_zero.lt_iff hx).1 (by omega)),
      if_pos ((hx.lt_iff Decimal.form_zero).2 hneg), Int.sign_eq_neg_one_of_neg hneg]
    exact Decimal.form_ofInt (z := -1) (by decide)
  · rw [if_neg (mt (Decimal.form_zero.lt_iff hx).1 (by omega)),
      if_neg (mt (hx.lt_iff Decimal.form_zero).1 (by omega))]
    exact Decimal.form_zero
  · rw [if_pos ((Decimal.form_zero.lt_iff hx).2 hpos), Int.sign_eq_one_of_pos hpos]
    exact Decimal.form_one

/-- The numerator in lowest terms, as it is computed from the magnitude and the signs. -/
theorem num_div_eq (n : Int) {d : Int} (hne : d ≠ 0) :
    ((n.natAbs / Int.gcd n d : Nat) : Int) * (n.sign * d.sign) = ((n : ℚ) / d).num := by
  have hgcd := gcd_ne_zero n hne
  rw [← Rat.divInt_eq_div, Rat.num_divInt, Int.gcd_comm d n]
  generalize hg : Int.gcd n d = g at hgcd
  obtain ⟨k, rfl⟩ : (g : Int) ∣ n := hg ▸ Int.gcd_dvd_left n d
  have hpos : 0 < g := by omega
  have hright : d.sign * (g * k) / g = d.sign * k := by
    rw [Int.mul_left_comm, Int.mul_ediv_cancel_left _ hgcd]
  rw [hright, Int.natAbs_mul, Int.natAbs_natCast, Nat.mul_div_cancel_left _ hpos, Int.sign_mul,
    Int.sign_natCast_of_ne_zero hpos.ne', Int.one_mul, ← Int.mul_assoc,
    Int.mul_comm (k.natAbs : Int), Int.sign_mul_natAbs, Int.mul_comm]

theorem den_div_eq (n : Int) {d : Int} (hne : d ≠ 0) :
    ((n : ℚ) / d).den = d.natAbs / Int.gcd n d := by
  rw [← Rat.divInt_eq_div, Rat.den_divInt, if_neg hne, Int.gcd_comm]

/-- A sign does not change the magnitude. -/
theorem form_mul_sign {z w : Int} (hx : Form z x.toModel.unpack) (hy : Form w y.toModel.unpack)
    (hw : w.natAbs ≤ 1) : Form (z * w) (x * y).toModel.unpack := by
  have hrepresentable : Decimal.Representable (z * w).natAbs := by
    rw [Int.natAbs_mul]
    rcases Nat.le_one_iff_eq_zero_or_eq_one.1 hw with hzero | hone
    · rw [hzero, Nat.mul_zero]
      exact .of_le (by decide)
    · rw [hone, Nat.mul_one]
      exact hx.representable
  obtain ⟨r, hr⟩ := hrepresentable.exists_form
  exact Decimal.form_unpack_mul hx hy hr

/-- **Reducing is exact.** The parts of a reduced fraction of integers are those of the rational
number in lowest terms. -/
theorem form_reduce (hx : Form n x.toModel.unpack) (hy : Form d y.toModel.unpack) (hne : d ≠ 0) :
    Form ((n : ℚ) / d).num (reduce ⟨x, y⟩).numerator.toModel.unpack ∧
      Form ((n : ℚ) / d).den (reduce ⟨x, y⟩).denominator.toModel.unpack := by
  have hzero : (y == 0) = false := Bool.eq_false_iff.2 (mt (hy.beq_iff Decimal.form_zero).1 hne)
  by_cases hone : d = 1
  · subst hone
    have hy₁ : y = 1 := hy.eq_of_ne_zero Decimal.form_one (by decide)
    rw [hy₁, reduce_over_one, Int.cast_one, div_one]
    exact ⟨hx, Decimal.form_one⟩
  · have hproper : (y != 1) = true := by
      rw [bne, Bool.eq_false_iff.2 (mt (hy.beq_iff Decimal.form_one).1 hone)]
      rfl
    rw [reduce, hx.isWhole, hy.isWhole, hzero, if_neg (by decide), hproper, if_pos rfl,
      ← num_div_eq n hne, den_div_eq n hne]
    have hg := form_commonDivisor hx hy hne
    -- both magnitudes are multiples of the divisor
    have hquotient : ∀ {z : Int} {u : Float}, Form z u.toModel.unpack → Int.gcd n d ∣ z.natAbs →
        Form ((z.natAbs / Int.gcd n d : Nat) : Int)
          (u.abs / commonDivisor x y).toModel.unpack := by
      intro z u hu hdvd
      have habs := hu.abs
      rw [← Nat.div_mul_cancel hdvd, Nat.cast_mul] at habs
      exact habs.div hg (gcd_ne_zero n hne)
    have hunit : (n.sign * d.sign).natAbs ≤ 1 := by
      rw [← Int.sign_mul, Int.natAbs_sign]
      split <;> decide
    have hsign := (form_signOf hx).mul (form_signOf hy) (hunit.trans (by decide))
    exact ⟨form_mul_sign (hquotient hx (Nat.gcd_dvd_left _ _)) hsign hunit,
      hquotient hy (Nat.gcd_dvd_right _ _)⟩

end

/-! ## Reducing twice -/

/-- A fraction of integers. -/
structure Integers (r : Fraction) : Prop where
  numerator : isWhole r.numerator = true
  denominator : isWhole r.denominator = true
  nonzero : (r.denominator == 0) = false

/-- A fraction that is not one of integers collapses. -/
theorem reduce_collapse {r : Fraction} (h : ¬ r.Integers) :
    r.reduce = ⟨r.numerator / r.denominator, 1⟩ := by
  rw [reduce, if_pos]
  by_contra hparts
  simp only [Bool.not_eq_true, Bool.or_eq_false_iff, Bool.not_eq_eq_eq_not, Bool.not_false] at hparts
  exact h ⟨hparts.1.2, hparts.1.1, hparts.2⟩

theorem Integers.denominator_ne_zero {r : Fraction} (h : r.Integers) :
    integer r.denominator ≠ 0 := by
  intro hzero
  have hform := Decimal.form_integer h.denominator
  rw [hzero] at hform
  have heq := (hform.beq_iff Decimal.form_zero).2 rfl
  rw [h.nonzero] at heq
  cases heq

theorem Integers.form_reduce {r : Fraction} (h : r.Integers) :
    Form ((integer r.numerator : ℚ) / integer r.denominator).num
        r.reduce.numerator.toModel.unpack ∧
      Form ((integer r.numerator : ℚ) / integer r.denominator).den
        r.reduce.denominator.toModel.unpack :=
  Fraction.form_reduce (Decimal.form_integer h.numerator) (Decimal.form_integer h.denominator)
    h.denominator_ne_zero

/-- Lowest terms are left alone. -/
theorem reduce_of_lowest {s : Fraction} {q : ℚ} (hnum : Form q.num s.numerator.toModel.unpack)
    (hden : Form q.den s.denominator.toModel.unpack) : s.reduce = s := by
  obtain ⟨x, y⟩ := s
  have hpos : (q.den : Int) ≠ 0 := Int.natCast_ne_zero.2 q.den_ne_zero
  by_cases hzero : q.num = 0
  · -- the zeros have the denominator one
    obtain rfl := Rat.num_eq_zero.1 hzero
    obtain rfl : y = 1 := hden.eq_of_ne_zero Decimal.form_one (by decide)
    exact reduce_over_one x
  · obtain ⟨hnum', hden'⟩ := form_reduce hnum hden hpos
    rw [Int.cast_natCast, Rat.num_div_den] at hnum' hden'
    exact congrArg₂ Fraction.mk (hnum'.eq_of_ne_zero hnum hzero) (hden'.eq_of_ne_zero hden hpos)

/-- **Reducing twice** is reducing once: integers or not, and without a value as well. -/
theorem reduce_reduce (r : Fraction) : r.reduce.reduce = r.reduce := by
  by_cases h : r.Integers
  · obtain ⟨hnum, hden⟩ := h.form_reduce
    exact reduce_of_lowest hnum hden
  · rw [reduce_collapse h, reduce_over_one]

/-! ## Lowest terms -/

/-- The fraction `s` of integers is the value of `r` in lowest terms, with its sign in front. -/
structure Lowest (r s : Fraction) : Prop where
  numerator : isWhole s.numerator = true
  denominator : isWhole s.denominator = true
  positive : 0 < integer s.denominator
  coprime : Int.gcd (integer s.numerator) (integer s.denominator) = 1
  /-- Both have the same value, exactly. -/
  value : integer s.numerator * integer r.denominator =
    integer r.numerator * integer s.denominator

theorem Integers.lowest_reduce {r : Fraction} (h : r.Integers) : Lowest r r.reduce := by
  obtain ⟨hnum, hden⟩ := h.form_reduce
  generalize hq : ((integer r.numerator : ℚ) / integer r.denominator) = q at hnum hden
  have hne : (integer r.denominator : ℚ) ≠ 0 := Int.cast_ne_zero.2 h.denominator_ne_zero
  have hne' : (q.den : ℚ) ≠ 0 := Nat.cast_ne_zero.2 q.den_ne_zero
  refine ⟨hnum.isWhole, hden.isWhole, ?_, ?_, ?_⟩
  · rw [hden.integer]
    exact Int.natCast_pos.2 q.den_pos
  · rw [hnum.integer, hden.integer]
    exact q.reduced
  · have hvalue : (q.num : ℚ) / q.den = integer r.numerator / integer r.denominator := by
      rw [Rat.num_div_den, hq]
    rw [div_eq_div_iff hne' hne] at hvalue
    rw [hnum.integer, hden.integer]
    exact_mod_cast hvalue

/-- The greater and the lesser of two magnitudes are the two, in one of the two orders. -/
theorem Integers.euclid {r : Fraction} (h : r.Integers) :
    Euclid (max r.numerator.abs r.denominator.abs) (min r.numerator.abs r.denominator.abs)
      (commonDivisor r.numerator r.denominator) := by
  obtain ⟨hfirst, hsecond⟩ := euclid_commonDivisor (Decimal.form_integer h.numerator)
    (Decimal.form_integer h.denominator) h.denominator_ne_zero
  change Euclid (if _ then _ else _) (if _ then _ else _) _
  split
  · exact hsecond
  · exact hfirst

/-- **Lowest terms.** For integers, Euclid's algorithm comes to an end, with the greatest common
divisor, and the reduced fraction has the value of the fraction in lowest terms. Whatever the parts
are, reducing again changes nothing. -/
theorem reduce_lowest (r : Fraction) : r.reduce.reduce = r.reduce ∧ (r.Integers →
    Euclid (max r.numerator.abs r.denominator.abs) (min r.numerator.abs r.denominator.abs)
      (commonDivisor r.numerator r.denominator) ∧ Lowest r r.reduce) :=
  ⟨reduce_reduce r, fun h => ⟨h.euclid, h.lowest_reduce⟩⟩

/-- With parts far beyond `2^53`. -/
theorem reduce_lowest_large :
    let r : Fraction := ⟨-6e22, 4e22⟩
    r.Integers ∧ r.reduce = ⟨-3, 2⟩ ∧ r.reduce.reduce = r.reduce ∧
      Euclid (max r.numerator.abs r.denominator.abs) (min r.numerator.abs r.denominator.abs)
        (commonDivisor r.numerator r.denominator) ∧ Lowest r r.reduce := by
  have hparts : (⟨-6e22, 4e22⟩ : Fraction).Integers :=
    ⟨by decide +kernel, by decide +kernel, by decide +kernel⟩
  have hlowest := reduce_lowest ⟨-6e22, 4e22⟩
  exact ⟨hparts, by decide +kernel, hlowest.1, hlowest.2 hparts⟩

end BlockMachine.Fraction
