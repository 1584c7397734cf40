import BlockMachine.Proofs.Fraction.LowestTerms

/-!
# Exact arithmetic

On fractions of integers the arithmetic is that of the rational numbers, as long as no product of
their parts and no sum of such products is above `2^53` in magnitude.

* `Ratio r n d` — the fraction `r` has the integers `n` and `d` as its parts;
* `Exact r q` — the fraction `r` is the rational number `q` in lowest terms;
* `exact_reduce` — reducing a fraction of integers;
* `Counted`, `arithmetic_exact` — sum, difference, product, quotient and remainder.
-/

namespace BlockMachine.Fraction

open Decimal (Form IsInteger)

/-! ## Lowest terms -/

/-- A fraction that is a rational number in lowest terms, with a positive denominator. -/
structure Exact (r : Fraction) (q : ℚ) : Prop where
  numerator : IsInteger r.numerator q.num
  denominator : r.denominator = Float.ofNat q.den
  /-- Both parts are among the integers that are doubles without gaps. -/
  counted : q.num.natAbs ≤ 2 ^ 53 ∧ q.den ≤ 2 ^ 53

section

variable {x y : Float} {n d : Int}

/-- **Lowest terms.** Reducing a fraction of integers changes its parts only. -/
theorem exact_reduce (hx : Form n x.toModel.unpack) (hy : Form d y.toModel.unpack)
    (hn : n.natAbs ≤ 2 ^ 53) (hd : d.natAbs ≤ 2 ^ 53) (hne : d ≠ 0) :
    Exact (reduce ⟨x, y⟩) (n / d) := by
  obtain ⟨hnum, hden⟩ := form_reduce hx hy hne
  have hnumLe : ((n : ℚ) / d).num.natAbs ≤ 2 ^ 53 := by
    rw [← num_div_eq n hne, ← Int.sign_mul, Int.natAbs_mul, Int.natAbs_natCast, Int.natAbs_sign]
    calc n.natAbs / Int.gcd n d * (if n * d = 0 then 0 else 1) ≤ n.natAbs * 1 :=
          Nat.mul_le_mul (Nat.div_le_self _ _) (by split <;> decide)
      _ ≤ 2 ^ 53 := by rwa [Nat.mul_one]
  have hdenLe : ((n : ℚ) / d).den ≤ 2 ^ 53 := by
    rw [den_div_eq n hne]
    exact (Nat.div_le_self _ _).trans hd
  have hpos := ((n : ℚ) / d).den_pos
  exact ⟨hnum.isInteger hnumLe, (hden.isInteger hdenLe).resolve_right fun h => by omega,
    hnumLe, hdenLe⟩

theorem exact_make (hx : Form n x.toModel.unpack) (hy : Form d y.toModel.unpack)
    (hn : n.natAbs ≤ 2 ^ 53) (hd : d.natAbs ≤ 2 ^ 53) (hne : d ≠ 0) :
    Exact (make x y).reduce (n / d) := by
  rw [make, if_pos hy.isWhole]
  exact exact_reduce hx hy hn hd hne

end

/-! ## Operations -/

/-- A rational number without what is behind the point. -/
def cutOff (q : ℚ) : Int :=
  if 0 ≤ q then ⌊q⌋ else ⌈q⌉

theorem cutOff_div_natCast (p : Int) {n : Nat} (hn : 0 < n) : cutOff (p / n) = p.tdiv n := by
  have hpos : (0 : ℚ) < n := by exact_mod_cast hn
  rw [cutOff]
  rcases le_or_gt 0 p with hp | hp
  · rw [if_pos (div_nonneg (by exact_mod_cast hp) hpos.le), Rat.floor_intCast_div_natCast,
      Int.tdiv_eq_ediv_of_nonneg hp]
  · have hneg : (p / n : ℚ) < 0 := div_neg_of_neg_of_pos (by exact_mod_cast hp) hpos
    have hopposite : (p / n : ℚ) = -((-p : Int) / n) := by
      push_cast
      ring
    rw [if_neg (not_le.2 hneg), hopposite, Int.ceil_neg, Rat.floor_intCast_div_natCast,
      ← Int.tdiv_eq_ediv_of_nonneg (by omega), Int.neg_tdiv, Int.neg_neg]

/-- The quotient of integers, cut off. -/
theorem cutOff_div (p : Int) {q : Int} (hq : q ≠ 0) : cutOff (p / q) = p.tdiv q := by
  obtain ⟨n, rfl | rfl⟩ := Int.eq_nat_or_neg q
  · rw [Int.cast_natCast, cutOff_div_natCast p (by omega)]
  · have hopposite : (p / (-(n : Int) : Int) : ℚ) = (-p : Int) / n := by
      push_cast
      ring
    rw [hopposite, cutOff_div_natCast _ (by omega), Int.neg_tdiv, Int.tdiv_neg]

/-- A fraction that has the integers `n` and `d` as its parts. -/
structure Ratio (r : Fraction) (n d : Int) : Prop where
  numerator : IsInteger r.numerator n
  denominator : IsInteger r.denominator d

/-- The fraction of two integers. -/
theorem ratio_make (n : Int) {d : Int} (hd : d.natAbs ≤ 2 ^ 53) :
    (make (Float.ofInt n) (Float.ofInt d)).Ratio n d := by
  rw [make, if_pos (Decimal.form_ofInt hd).isWhole]
  exact ⟨.inl rfl, .inl rfl⟩

/-- What the arithmetic of `a / b` and `c / d` computes before it reduces is at most `2^53` in
magnitude. -/
structure Counted (a b c d : Int) : Prop where
  first : (a * d).natAbs ≤ 2 ^ 53
  second : (b * c).natAbs ≤ 2 ^ 53
  numerators : (a * c).natAbs ≤ 2 ^ 53
  denominators : (b * d).natAbs ≤ 2 ^ 53
  sum : (a * d + b * c).natAbs ≤ 2 ^ 53
  difference : (a * d - b * c).natAbs ≤ 2 ^ 53

theorem natAbs_le_of_mul_le {z w : Int} (hw : w ≠ 0) {n : Nat} (h : (z * w).natAbs ≤ n) :
    z.natAbs ≤ n := by
  rw [Int.natAbs_mul] at h
  exact (Nat.le_mul_of_pos_right _ (Int.natAbs_pos.2 hw)).trans h

/-- **Exact arithmetic.** Sum, difference, product, quotient and remainder of two fractions of
integers are those of the rational numbers, in lowest terms and with a positive denominator. -/
theorem arithmetic_exact {x y : Fraction} {a b c d : Int} (hx : x.Ratio a b) (hy : y.Ratio c d)
    (hb : b ≠ 0) (hd : d ≠ 0) (h : Counted a b c d) :
    Exact (x.plus y) (a / b + c / d) ∧ Exact (x.minus y) (a / b - c / d) ∧
      Exact (x.times y) (a / b * (c / d)) ∧
      (c ≠ 0 → Exact (x.dividedBy y) (a / b / (c / d)) ∧
        Exact (x.modulo y) (a / b - c / d * cutOff (a / b / (c / d)))) := by
  obtain ⟨had, hbc, hac, hbd, hsum, hdifference⟩ := h
  have hb' : (b : ℚ) ≠ 0 := Int.cast_ne_zero.2 hb
  have hd' : (d : ℚ) ≠ 0 := Int.cast_ne_zero.2 hd
  have ha := hx.numerator.form (natAbs_le_of_mul_le hd had)
  have hb₁ := hx.denominator.form (natAbs_le_of_mul_le hd hbd)
  have hc := hy.numerator.form (natAbs_le_of_mul_le hb (by rwa [Int.mul_comm]))
  have hd₁ := hy.denominator.form (natAbs_le_of_mul_le hb (by rwa [Int.mul_comm]))
  have hcb : (c * b).natAbs ≤ 2 ^ 53 := by rwa [Int.mul_comm]
  have hfirst := ha.mul hd₁ had
  have hsecond := hc.mul hb₁ hcb
  have hdenominator := hb₁.mul hd₁ hbd
  have hne := Int.mul_ne_zero hb hd
  rw [Int.mul_comm b c] at hsum hdifference
  refine ⟨?_, ?_, ?_, fun hc0 => ⟨?_, ?_⟩⟩
  · have hexact := exact_make (hfirst.add hsecond hsum) hdenominator hsum hbd hne
    have hvalue : (a / b + c / d : ℚ) = (a * d + c * b : Int) / (b * d : Int) := by
      push_cast
      rw [div_add_div _ _ hb' hd', mul_comm (b : ℚ) c]
    rwa [hvalue]
  · have hexact := exact_make (hfirst.sub hsecond hdifference) hdenominator hdifference hbd hne
    have hvalue : (a / b - c / d : ℚ) = (a * d - c * b : Int) / (b * d : Int) := by
      push_cast
      rw [div_sub_div _ _ hb' hd', mul_comm (b : ℚ) c]
    rwa [hvalue]
  · have hexact := exact_make (ha.mul hc hac) hdenominator hac hbd hne
    have hvalue : (a / b * (c / d) : ℚ) = (a * c : Int) / (b * d : Int) := by
      push_cast
      rw [div_mul_div_comm]
    rwa [hvalue]
  · have hexact := exact_make hfirst (hb₁.mul hc hbc) had hbc (Int.mul_ne_zero hb hc0)
    have hvalue : (a / b / (c / d) : ℚ) = (a * d : Int) / (b * c : Int) := by
      push_cast
      rw [div_div_div_eq]
    rwa [hvalue]
  · have hne' := Int.mul_ne_zero hc0 hb
    have hremainder := hfirst.remainder hsecond hne'
    have hle : ((a * d).tmod (c * b)).natAbs ≤ 2 ^ 53 := by
      rw [Int.natAbs_tmod]
      exact (Nat.mod_le _ _).trans had
    have hexact := exact_make hremainder hdenominator hle hbd hne
    have hquotient : cutOff (a / b / (c / d)) = (a * d).tdiv (c * b) := by
      rw [← cutOff_div _ hne', div_div_div_eq]
      push_cast
      rw [mul_comm (b : ℚ) c]
    have hvalue : (a / b - c / d * cutOff (a / b / (c / d)) : ℚ) =
        ((a * d).tmod (c * b) : Int) / (b * d : Int) := by
      rw [hquotient, Int.tmod_def]
      push_cast
      field_simp
    rwa [hvalue]

/-- With `-7/4` and `5/6`, of which the first has its sign below. -/
theorem arithmetic_exact_quarters :
    let x := make (Float.ofInt 7) (Float.ofInt (-4))
    let y := make (Float.ofInt 5) (Float.ofInt 6)
    Exact (x.plus y) (-(11 / 12)) ∧ Exact (x.minus y) (-(31 / 12)) ∧
      Exact (x.times y) (-(35 / 24)) ∧ Exact (x.dividedBy y) (-(21 / 10)) ∧
      Exact (x.modulo y) (-(1 / 12)) := by
  obtain ⟨hplus, hminus, htimes, hrest⟩ := arithmetic_exact (ratio_make 7 (d := -4) (by decide))
    (ratio_make 5 (d := 6) (by decide)) (by decide) (by decide)
    ⟨by decide, by decide, by decide, by decide, by decide, by decide⟩
  obtain ⟨hdividedBy, hmodulo⟩ := hrest (by decide)
  have hcut : cutOff ((7 : Int) / (-4 : Int) / ((5 : Int) / (6 : Int))) = -2 := by
    rw [div_div_div_eq]
    exact_mod_cast cutOff_div (7 * 6) (q := -4 * 5) (by decide)
  rw [hcut] at hmodulo
  norm_num at hplus hminus htimes hdividedBy hmodulo
  exact ⟨hplus, hminus, htimes, hdividedBy, hmodulo⟩

end BlockMachine.Fraction
