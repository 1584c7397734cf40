import BlockMachine.Decimal.Layout
import BlockMachine.Proofs.Decimal.Divisions

/-!
# The text of integers

Integers below `2^53` in magnitude are written with all their digits, in every layout that is not an
exponent form: the fewest digits that read back are those of the integer, and rounding to places
leaves nothing behind the point.

* `Binary.Nearest.eq_of_value` — only one integer is nearest to an integer below `2^53`;
* `positional_of_value` — filling up with zeros gives the digits of the value;
* `Form.plain`, `Form.compact` — an integer as it is, `Form.grouped` — in groups of three digits;
* `filter_groupThousands` — leaving out the commas gives the digits.
-/

namespace BlockMachine.Decimal

open Float.Model (Format UnpackedFloat)
open Float.Model.UnpackedFloat (Sign)

/-! ## Digits -/

theorem not_mem_toDigits {c : Char} (hc : isDigit c = false) (n : Nat) :
    c ∉ Nat.toDigits 10 n := by
  intro hmem
  rw [allDigits_toDigits n c hmem] at hc
  cases hc

theorem toList_withSign (negative : Bool) (s : String) :
    (withSign negative s).toList = (if negative then ['-'] else []) ++ s.toList := by
  cases negative <;> simp [withSign]

theorem toList_intText (z : Int) :
    (intText z).toList = (if z < 0 then ['-'] else []) ++ Nat.toDigits 10 z.natAbs := by
  rw [Json.toList_intText]
  split <;> rfl

theorem toList_intText_natCast (n : Nat) : (intText n).toList = Nat.toDigits 10 n := by
  rw [toList_intText, if_neg (by omega), Int.natAbs_natCast, List.nil_append]

/-- Zeros behind the digits multiply by ten. -/
theorem toDigits_mul_pow {n : Nat} (hn : 0 < n) (k : Nat) :
    Nat.toDigits 10 (n * 10 ^ k) = Nat.toDigits 10 n ++ List.replicate k '0' := by
  induction k with
  | zero => simp
  | succ k ih =>
    have hpos : 0 < n * 10 ^ k := Nat.mul_pos hn (Nat.pow_pos (by decide))
    have hzero : Nat.toDigits 10 0 = ['0'] := by decide
    have hstep := Nat.toDigits_append_toDigits (b := 10) (d := 0) (by decide) hpos (by decide)
    rw [hzero, ih, Nat.add_zero, List.append_assoc, ← List.replicate_succ'] at hstep
    rw [Nat.pow_succ, ← Nat.mul_assoc, Nat.mul_comm _ 10, ← hstep]

/-- The positional text of a natural number. -/
theorem positional_of_value {d : Digits} {n : Nat} (hn : 0 < n) (hexp : 0 ≤ d.exp)
    (hvalue : d.value = n) : d.positional = natText n := by
  obtain ⟨k, hk⟩ := Int.eq_ofNat_of_zero_le hexp
  rw [Digits.value, hk, zpow_natCast] at hvalue
  have hdigits : d.digits * 10 ^ k = n := by exact_mod_cast hvalue
  have hpos : 0 < d.digits := Nat.pos_of_mul_pos_right (hdigits ▸ hn)
  rw [Digits.positional, if_pos hexp, hk, Int.toNat_natCast, natText, ← hdigits,
    toDigits_mul_pow hpos]

/-- At most half a place away from an integer, no place being wider than a unit, there is no other
integer. -/
theorem Binary.Nearest.eq_of_value {x : Binary} {k n : Nat} (hv : x.Nearest k)
    (hx : x.value = n) (hq : x.q ≤ 0) : k = n := by
  have hunit : (0 : ℚ) < 2 ^ x.q := zpow_pos two_pos _
  have hone : (2 : ℚ) ^ x.q ≤ 1 := zpow_le_one_of_nonpos₀ one_le_two hq
  have hm : (x.m : ℚ) * 2 ^ x.q = n := hx
  have hlow : ((x.m : ℚ) - 1 / 2) * 2 ^ x.q ≤ k := by
    rw [← le_div_iff₀ hunit]
    rcases hv.half_low with h | ⟨-, h⟩
    · exact h.le
    · exact h.le
  have hhigh : (k : ℚ) ≤ (x.m + 1 / 2) * 2 ^ x.q := by
    rw [← div_le_iff₀ hunit]
    rcases hv.high with h | ⟨-, h⟩
    · exact h.le
    · exact h.le
  rw [sub_mul, hm] at hlow
  rw [add_mul, hm] at hhigh
  have hless : (k : ℚ) < n + 1 := by linarith
  have hmore : (n : ℚ) < k + 1 := by linarith
  have hless' : k < n + 1 := by exact_mod_cast hless
  have hmore' : n < k + 1 := by exact_mod_cast hmore
  omega

/-! ## Integers as they are -/

section

variable {x : Float} {z : Int}

/-- Only the zeros have a sign that does not show in the integer. -/
theorem Form.isNegative (hx : Form z x.toModel.unpack) (hz : z ≠ 0) :
    isNegative x = decide (z < 0) := by
  have hinteger := hx.integer
  rw [Decimal.integer, hx.wholePart] at hinteger
  cases hsign : Decimal.isNegative x with
  | false =>
    rw [hsign, if_neg Bool.false_ne_true] at hinteger
    exact (decide_eq_false (by omega)).symm
  | true =>
    rw [hsign, if_pos rfl] at hinteger
    exact (decide_eq_true (by omega)).symm

/-- **The fewest digits** of an integer are its own. -/
theorem Form.plain (hx : Form z x.toModel.unpack) (hz : z ≠ 0) (hlt : z.natAbs < 2 ^ 53) :
    plain x = intText z := by
  have hnan := hx.isNaN_isInf
  have hsign := hx.isNegative hz
  have hwhole := hx.isWhole
  have hagrees := agrees_unpack x
  rw [Decimal.plain, hnan.1, hnan.2, hsign, if_neg Bool.false_ne_true, if_neg Bool.false_ne_true]
  suffices hdigits : (Binary.ofFloat x).shortest.positional = natText z.natAbs by
    rw [hdigits, withSign, intText]
    split <;> split <;> simp_all
  rw [Decimal.isWhole, Bool.and_eq_true] at hwhole
  generalize x.toModel.unpack = u at hx hagrees
  cases hx with
  | zero s => exact absurd rfl hz
  | @finite s n m e h pos =>
    obtain ⟨hm, he, -⟩ := hagrees
    rw [natAbs_apply] at hlt ⊢
    have hpos : 0 < (Binary.ofFloat x).m := hm ▸ h.pos
    have hlog := (Nat.log2_lt pos.ne').2 hlt
    rw [h.log2_eq] at hlog
    have hvalue : (Binary.ofFloat x).value = n := by rw [Binary.value, hm, he, h.cast_value]
    have hexp := Binary.shortest_exp_nonneg (hm ▸ h.high) hwhole.2
    have hnearest := Binary.shortest_nearest hpos
    obtain ⟨k, hk⟩ : ∃ k : Nat, (Binary.ofFloat x).shortest.value = k := by
      obtain ⟨j, hj⟩ := Int.eq_ofNat_of_zero_le hexp
      refine ⟨(Binary.ofFloat x).shortest.digits * 10 ^ j, ?_⟩
      rw [Digits.value, hj, zpow_natCast]
      push_cast
      rfl
    rw [hk] at hnearest
    rw [hnearest.eq_of_value hvalue (by omega)] at hk
    exact positional_of_value pos hexp hk

/-- Integers up to `10^21` are not written with an exponent. -/
theorem Form.not_exponent (hx : Form z x.toModel.unpack) (hz : z ≠ 0) (hlt : z.natAbs < 10 ^ 21) :
    1e-6 ≤ x.abs ∧ x.abs < 1e21 := by
  have habs := hx.abs
  constructor
  · obtain ⟨m, h, hmin⟩ : ∃ m h, (1e-6 : Float).toModel.unpack = .finite .positive m (-72) h :=
      ⟨_, _, rfl⟩
    obtain ⟨m', e', hc, hu⟩ := habs.exists_counts (Int.natAbs_pos.2 hz)
    have hwhole := hc.whole
    rw [Decimal.le_iff, hmin, hu]
    simp only [UnpackedFloat.compare, Int.compare_eq_lt.2 (show -72 < e' by omega)]
    rfl
  · have htop : Float.ofNat (10 ^ 21) = 1e21 := by decide +kernel
    have hform : Form ((10 ^ 21 : Nat) : Int) (1e21 : Float).toModel.unpack := by
      rw [← htop]
      exact Representable.form_ofNat ⟨⟨5 ^ 21, 21, by decide, by decide⟩, by decide +kernel⟩
    rw [habs.lt_iff hform]
    exact_mod_cast hlt

theorem Form.compact (hx : Form z x.toModel.unpack) (hz : z ≠ 0) (hlt : z.natAbs < 2 ^ 53) :
    compact x = intText z := by
  have hnan := hx.isNaN_isInf
  have hrange := hx.not_exponent hz (hlt.trans (by decide))
  rw [Decimal.compact, hnan.1, hnan.2, if_neg Bool.false_ne_true, if_neg Bool.false_ne_true,
    if_neg (by simp [hrange]), hx.plain hz hlt]

/-! ## Integers in groups of digits -/

/-- Commas are put between digits, and nothing else. -/
theorem mem_groupThousands {s : List Char} {c : Char} (hc : c ∈ groupThousands s) :
    c = ',' ∨ c ∈ s := by
  rw [groupThousands, List.mem_flatten] at hc
  obtain ⟨part, hpart, hc⟩ := hc
  obtain ⟨⟨d, i⟩, hd, rfl⟩ := List.mem_map.1 hpart
  have hmem : d ∈ s := (List.mem_zipIdx' hd).2 ▸ List.getElem_mem _
  dsimp only at hc
  split at hc
  · rcases List.mem_cons.1 hc with rfl | hc
    · exact .inl rfl
    · exact .inr (List.mem_singleton.1 hc ▸ hmem)
  · exact .inr (List.mem_singleton.1 hc ▸ hmem)

theorem filter_groupThousands {s : List Char} (hs : ',' ∉ s) :
    (groupThousands s).filter (· != ',') = s := by
  have hpart : ∀ p ∈ s.zipIdx, ((if 0 < p.2 ∧ (s.length - p.2) % 3 = 0 then [',', p.1]
      else [p.1]).filter (· != ',')) = [p.1] := by
    intro p hp
    have hne : p.1 ≠ ',' := fun h => hs (h ▸ (List.mem_zipIdx' hp).2 ▸ List.getElem_mem _)
    split <;> simp [hne]
  rw [groupThousands, List.filter_flatten, List.map_map]
  calc ((s.zipIdx).map fun p => ((if 0 < p.2 ∧ (s.length - p.2) % 3 = 0 then [',', p.1]
          else [p.1]).filter (· != ','))).flatten
      = ((s.zipIdx).map fun p => [p.1]).flatten := by rw [List.map_congr_left hpart]
    _ = s := by
        rw [← List.flatMap_def, ← List.map_eq_flatMap]
        exact List.zipIdx_map_fst 0 s

theorem roundDiv_mul (k : Nat) {d : Nat} (hd : 0 < d) : roundDiv (k * d) d = k := by
  rw [roundDiv, Nat.mul_div_cancel k hd, Nat.mul_mod_left, Nat.compare_eq_lt.2 hd]

/-- Rounding an integer to places changes nothing. -/
theorem Form.toPlaces (hx : Form z x.toModel.unpack) (places : Nat) :
    (Binary.ofFloat x).toPlaces places = z.natAbs * 10 ^ places := by
  have hagrees := agrees_unpack x
  have hscaled : (Binary.ofFloat x).m * 2 ^ (Binary.ofFloat x).q.toNat =
      z.natAbs * 2 ^ (-(Binary.ofFloat x).q).toNat := by
    generalize x.toModel.unpack = u at hx hagrees
    cases hx with
    | zero s => rw [show (Binary.ofFloat x).m = 0 from hagrees, Nat.zero_mul, Int.natAbs_zero,
        Nat.zero_mul]
    | @finite s n m e h pos =>
      obtain ⟨hm, he, -⟩ := hagrees
      have hwhole := h.whole
      rw [hm, he, natAbs_apply]
      refine Nat.eq_of_mul_eq_mul_right (Nat.two_pow_pos ((-e).toNat + (e + 52).toNat)) ?_
      calc m * 2 ^ e.toNat * 2 ^ ((-e).toNat + (e + 52).toNat)
          = m * 2 ^ (e + 52).toNat * 2 ^ (e.toNat + (-e).toNat) := by ring
        _ = n * (2 ^ 52 * 2 ^ (e.toNat + (-e).toNat)) := by rw [h.value, Nat.mul_assoc]
        _ = n * (2 ^ (-e).toNat * 2 ^ ((-e).toNat + (e + 52).toNat)) := by
            rw [← Nat.pow_add, ← Nat.pow_add]
            congr 2
            omega
        _ = n * 2 ^ (-e).toNat * 2 ^ ((-e).toNat + (e + 52).toNat) := (Nat.mul_assoc _ _ _).symm
  rw [Binary.toPlaces, Binary.overGrid]
  simp only [Int.neg_neg, Int.toNat_natCast, Int.toNat_neg_natCast]
  change roundDiv ((Binary.ofFloat x).m * 2 ^ (Binary.ofFloat x).q.toNat * 10 ^ places)
    (2 ^ (-(Binary.ofFloat x).q).toNat * 10 ^ 0) = _
  rw [hscaled, Nat.pow_zero, Nat.mul_one, Nat.mul_right_comm]
  exact roundDiv_mul _ (Nat.two_pow_pos _)

/-- **Grouped integers** have no point. -/
theorem Form.grouped (hx : Form z x.toModel.unpack) : grouped x =
    withSign (z < 0) (String.ofList (groupThousands (Nat.toDigits 10 z.natAbs))) := by
  have hplaces : dropTrailingZeros (padLeft 3 (Nat.toDigits 10 0)) = [] := by decide
  have hsign : (decide (x < 0) && z.natAbs * 10 ^ 3 != 0) = decide (z < 0) := by
    rw [Bool.eq_iff_iff, Bool.and_eq_true, decide_eq_true_iff, decide_eq_true_iff, bne_iff_ne,
      hx.lt_iff form_zero]
    omega
  simp only [Decimal.grouped, hx.toPlaces]
  rw [hsign, show 10 ^ 3 = 1000 from rfl, Nat.mul_div_cancel _ (by decide), Nat.mul_mod_left,
    hplaces]
  simp

end

end BlockMachine.Decimal
