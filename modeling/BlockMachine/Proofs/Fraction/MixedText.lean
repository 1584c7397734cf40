import BlockMachine.Fraction.Text
import BlockMachine.Proofs.Decimal.Rounding
import BlockMachine.Proofs.Decimal.WholeText
import BlockMachine.Proofs.Fraction.Exact
import BlockMachine.Proofs.Grammar.TokenShape

/-!
# Mixed numbers

A fraction of integers is shown as a whole number and a fraction below one. Read as a signed mixed
number, the text is the value of the fraction, unless the denominator is negative and something is
left over: then its sign stays in the denominator, and the text is no mixed number.

* `readMixed?` — reading a signed mixed number;
* `mixedLayout` — a whole number and a fraction, `readMixed?_layout` — and how they are read;
* `mixedText_of_dvd`, `mixedText_of_not_dvd` — the text of a fraction of integers;
* `mixed_read` — which texts are read as the value of the fraction.
-/

namespace BlockMachine.Fraction

open Decimal (Form isDigit natOfDigits intText groupThousands withSign not_mem_toDigits
  toList_withSign toList_intText toList_intText_natCast)

/-! ## Reading mixed numbers -/

/-- The number that digits write, of which there is at least one. -/
def readNat? (s : List Char) : Option Nat :=
  if !s.isEmpty && s.all isDigit then some (natOfDigits s) else none

/-- A fraction below one: two numbers with a slash between them. -/
def readProper? (s : List Char) : Option ℚ :=
  match readNat? (s.takeWhile (· != '/')), readNat? ((s.dropWhile (· != '/')).drop 1) with
  | some p, some q => if 0 < p ∧ p < q then some (p / q) else none
  | _, _ => none

/-- A mixed number without its sign: a whole number, perhaps with commas, or a fraction below one, or
both with a blank between them. -/
def readParts? (s : List Char) : Option ℚ :=
  if s.contains ' ' then
    match readNat? (s.takeWhile (· != ' ')), readProper? ((s.dropWhile (· != ' ')).drop 1) with
    | some w, some v => if 0 < w then some (w + v) else none
    | _, _ => none
  else if s.contains '/' then readProper? s
  else (readNat? (s.filter (· != ','))).map fun w => (w : ℚ)

/-- A signed mixed number: the sign is that of the whole number and of the fraction. -/
def readMixed? (s : List Char) : Option ℚ :=
  if s.head? = some '-' then (readParts? s.tail).map fun v => -v else readParts? s

/-- The sign is read off. -/
theorem readMixed?_sign (negative : Bool) {s : List Char} (hs : s.head? ≠ some '-') :
    readMixed? ((if negative then ['-'] else []) ++ s) =
      (readParts? s).map fun v => if negative then -v else v := by
  cases negative with
  | true => rfl
  | false =>
    rw [if_neg Bool.false_ne_true, List.nil_append, readMixed?, if_neg hs]
    cases readParts? s <;> rfl

theorem readNat?_toDigits (n : Nat) : readNat? (Nat.toDigits 10 n) = some n := by
  have hne : (Nat.toDigits 10 n).isEmpty = false := by simp
  have hall : (Nat.toDigits 10 n).all isDigit = true :=
    List.all_eq_true.2 (Decimal.allDigits_toDigits n)
  have hvalue : natOfDigits (Nat.toDigits 10 n) = n := Nat.ofDigitChars_ten_toDigits
  rw [readNat?, hne, hall, hvalue]
  rfl

theorem readNat?_minus (s : List Char) : readNat? ('-' :: s) = none := by
  have hminus : isDigit '-' = false := by decide
  simp [readNat?, hminus]

theorem bne_of_mem_toDigits {c : Char} (hc : isDigit c = false) (n : Nat) :
    ∀ d ∈ Nat.toDigits 10 n, (d != c) = true := by
  intro d hd
  rw [bne_iff_ne]
  rintro rfl
  exact not_mem_toDigits hc n hd

/-- What begins with a digit has no sign. -/
theorem head?_toDigits_append (n : Nat) (rest : List Char) :
    (Nat.toDigits 10 n ++ rest).head? ≠ some '-' := by
  rw [List.head?_append_of_ne_nil _ (Json.toDigits_ne_nil n)]
  exact fun h => not_mem_toDigits (by decide) n (List.mem_of_mem_head? h)

/-! ## How mixed numbers are laid out -/

/-- A sign, a whole number unless it is zero, and a fraction. -/
def mixedLayout (negative : Bool) (w p : Nat) (below : List Char) : List Char :=
  (if negative then ['-'] else []) ++ ((if w = 0 then [] else Nat.toDigits 10 w ++ [' ']) ++
    (Nat.toDigits 10 p ++ '/' :: below))

section

variable {w p : Nat} {below : List Char}

theorem readProper?_layout (p : Nat) (below : List Char) :
    readProper? (Nat.toDigits 10 p ++ '/' :: below) =
      (readNat? below).bind fun q => if 0 < p ∧ p < q then some ((p : ℚ) / q) else none := by
  have hfront := bne_of_mem_toDigits (c := '/') (by decide) p
  rw [readProper?, takeWhile_stop hfront (by decide), dropWhile_stop hfront (by decide),
    readNat?_toDigits, List.drop_succ_cons, List.drop_zero]
  cases readNat? below <;> rfl

theorem readParts?_layout (hbelow : ' ' ∉ below) :
    readParts? ((if w = 0 then [] else Nat.toDigits 10 w ++ [' ']) ++
        (Nat.toDigits 10 p ++ '/' :: below)) =
      (readProper? (Nat.toDigits 10 p ++ '/' :: below)).map fun v => (w : ℚ) + v := by
  rcases Nat.eq_zero_or_pos w with rfl | hw
  · have hblank : (Nat.toDigits 10 p ++ '/' :: below).contains ' ' = false := by
      rw [← Bool.not_eq_true, List.contains_iff_mem, List.mem_append, List.mem_cons]
      rintro (h | h | h)
      · exact not_mem_toDigits (by decide) p h
      · cases h
      · exact hbelow h
    have hslash : (Nat.toDigits 10 p ++ '/' :: below).contains '/' = true := by simp
    rw [if_pos rfl, List.nil_append, readParts?, hblank, hslash]
    simp
  · have hfront := bne_of_mem_toDigits (c := ' ') (by decide) w
    rw [if_neg hw.ne', List.append_assoc, List.singleton_append, readParts?,
      if_pos (by simp), takeWhile_stop hfront (by decide), dropWhile_stop hfront (by decide),
      readNat?_toDigits, List.drop_succ_cons, List.drop_zero]
    cases readProper? (Nat.toDigits 10 p ++ '/' :: below) with
    | none => rfl
    | some v => exact if_pos hw

/-- **Reading.** The text of a mixed number is read as its value if a number is below the slash. -/
theorem readMixed?_layout (negative : Bool) (hbelow : ' ' ∉ below) :
    readMixed? (mixedLayout negative w p below) = (readNat? below).bind fun q =>
      if 0 < p ∧ p < q then some (if negative then -(w + p / q : ℚ) else w + p / q) else none := by
  have hhead : ((if w = 0 then [] else Nat.toDigits 10 w ++ [' ']) ++
      (Nat.toDigits 10 p ++ '/' :: below)).head? ≠ some '-' := by
    split
    · exact head?_toDigits_append p _
    · rw [List.append_assoc]
      exact head?_toDigits_append w _
  rw [mixedLayout, readMixed?_sign negative hhead, readParts?_layout hbelow, readProper?_layout]
  cases readNat? below with
  | none => rfl
  | some q => by_cases hq : 0 < p ∧ p < q <;> simp [hq]

end

/-- A whole number in groups of three digits is read as it is. -/
theorem readMixed?_grouped (z : Int) : readMixed? (withSign (z < 0)
    (String.ofList (groupThousands (Nat.toDigits 10 z.natAbs)))).toList = some (z : ℚ) := by
  have hmem : ∀ {c}, isDigit c = false → c ≠ ',' → c ∉ groupThousands (Nat.toDigits 10 z.natAbs) := by
    intro c hc hne h
    exact (Decimal.mem_groupThousands h).elim hne (not_mem_toDigits hc _)
  have hhead : (groupThousands (Nat.toDigits 10 z.natAbs)).head? ≠ some '-' := fun h =>
    hmem (by decide) (by decide) (List.mem_of_mem_head? h)
  have hparts : readParts? (groupThousands (Nat.toDigits 10 z.natAbs)) = some (z.natAbs : ℚ) := by
    rw [readParts?, if_neg (by simpa using hmem (by decide) (by decide)),
      if_neg (by simpa using hmem (by decide) (by decide)),
      Decimal.filter_groupThousands (not_mem_toDigits (by decide) _), readNat?_toDigits]
    rfl
  rw [toList_withSign, String.toList_ofList, readMixed?_sign _ hhead, hparts, Option.map_some,
    Option.some.injEq]
  by_cases hz : z < 0
  · rw [if_pos (by simpa using hz), Nat.cast_natAbs, abs_of_neg hz, Int.cast_neg, neg_neg]
  · rw [if_neg (by simpa using hz), Nat.cast_natAbs, abs_of_nonneg (not_lt.1 hz)]

/-! ## Fractions of integers -/

section

variable {r : Fraction} {n d : Int}

/-- What is computed for the text is exact: the whole part, and the magnitude of what is left. -/
theorem form_mixed (hx : Form n r.numerator.toModel.unpack) (hy : Form d r.denominator.toModel.unpack)
    (hn : n.natAbs < 2 ^ 26) (hd : d.natAbs < 2 ^ 26) (hne : d ≠ 0) :
    Form (n.tdiv d) (Decimal.trunc (r.numerator / r.denominator)).toModel.unpack ∧
      Form ((n.natAbs % d.natAbs : Nat) : Int)
        (Decimal.remainder (r.numerator - r.denominator *
          Decimal.trunc (r.numerator / r.denominator)) r.denominator).abs.toModel.unpack := by
  have hwhole := hx.trunc_div hy hn hd hne
  have hproduct := hy.mul hwhole (by
    rw [Int.natAbs_mul, Int.natAbs_tdiv]
    exact (Nat.mul_div_le _ _).trans (by omega))
  have hleft : n - d * n.tdiv d = n.tmod d := (Int.tmod_def n d).symm
  have hdifference := hx.sub hproduct (by
    rw [hleft, Int.natAbs_tmod]
    exact (Nat.mod_le _ _).trans (by omega))
  rw [hleft] at hdifference
  have hpart := (hdifference.remainder hy hne).abs
  rw [Int.natAbs_tmod, Int.natAbs_tmod, Nat.mod_mod] at hpart
  exact ⟨hwhole, hpart⟩

/-- Nothing is left over: the text is a whole number. -/
theorem mixedText_of_dvd {l : Localizer} (hx : Form n r.numerator.toModel.unpack)
    (hy : Form d r.denominator.toModel.unpack) (hn : n.natAbs < 2 ^ 26) (hd : d.natAbs < 2 ^ 26)
    (hne : d ≠ 0) (hdvd : d ∣ n) : mixedText (.shown l) r = withSign (n.tdiv d < 0)
      (String.ofList (groupThousands (Nat.toDigits 10 (n.tdiv d).natAbs))) := by
  obtain ⟨hwhole, hpart⟩ := form_mixed hx hy hn hd hne
  have hzero : n.natAbs % d.natAbs = 0 :=
    Nat.mod_eq_zero_of_dvd (Int.natAbs_dvd_natAbs.2 hdvd)
  rw [hzero] at hpart
  simp only [mixedText]
  rw [if_pos ((hpart.beq_iff Decimal.form_zero).2 rfl), if_neg (by simp [Style.isWritten]),
    hwhole.grouped]

theorem mod_pos_of_not_dvd (hdvd : ¬ d ∣ n) : 0 < n.natAbs % d.natAbs :=
  Nat.pos_of_ne_zero fun h => hdvd (Int.natAbs_dvd_natAbs.1 (Nat.dvd_of_mod_eq_zero h))

/-- Something is left over: the sign is that of the whole number or, without one, that of the
numerator, and the denominator keeps its own. -/
theorem mixedText_of_not_dvd {style : Style} (hx : Form n r.numerator.toModel.unpack)
    (hy : Form d r.denominator.toModel.unpack) (hn : n.natAbs < 2 ^ 26) (hd : d.natAbs < 2 ^ 26)
    (hne : d ≠ 0) (hdvd : ¬ d ∣ n) : (mixedText style r).toList =
      mixedLayout (if n.tdiv d = 0 then n < 0 else n.tdiv d < 0) (n.natAbs / d.natAbs)
        (n.natAbs % d.natAbs) (intText d).toList := by
  obtain ⟨hwhole, hpart⟩ := form_mixed hx hy hn hd hne
  have hpos := mod_pos_of_not_dvd hdvd
  have hmod := Nat.mod_lt n.natAbs (Int.natAbs_pos.2 hne)
  have hdiv : (n.tdiv d).natAbs = n.natAbs / d.natAbs := Int.natAbs_tdiv n d
  have hsmall := Nat.div_le_self n.natAbs d.natAbs
  have hleft : ((n.natAbs % d.natAbs : Nat) : Int) ≠ 0 := by omega
  simp only [mixedText]
  rw [if_neg (mt (hpart.beq_iff Decimal.form_zero).1 hleft), hpart.compact hleft (by omega),
    hy.compact hne (by omega), mixedLayout, ← hdiv]
  simp only [String.toList_append, toList_intText_natCast]
  by_cases hzero : n.tdiv d = 0
  · have hnone : (Decimal.trunc (r.numerator / r.denominator) != 0) = false := by
      rw [bne, (hwhole.beq_iff Decimal.form_zero).2 hzero]
      rfl
    rw [hnone, if_neg Bool.false_ne_true, hzero]
    by_cases hneg : n < 0
    · rw [if_pos ((hx.lt_iff Decimal.form_zero).2 hneg)]
      simp [hneg]
    · rw [if_neg (mt (hx.lt_iff Decimal.form_zero).1 hneg)]
      simp [hneg]
  · have hsome : (Decimal.trunc (r.numerator / r.denominator) != 0) = true := by
      rw [bne, Bool.eq_false_iff.2 (mt (hwhole.beq_iff Decimal.form_zero).1 hzero)]
      rfl
    rw [hsome, if_pos rfl, hwhole.compact hzero (by omega), String.toList_append, toList_intText,
      if_neg hzero, if_neg (show (n.tdiv d).natAbs ≠ 0 by omega)]
    simp [-Int.natAbs_tdiv]

/-- What a mixed number stands for: the whole part and what is left make up the magnitude. -/
theorem mixed_value (n : Int) {d : Int} (hd : 0 < d) :
    (if n < 0 then -((n.natAbs / d.natAbs : Nat) + (n.natAbs % d.natAbs : Nat) / (d.natAbs : ℚ))
      else (n.natAbs / d.natAbs : Nat) + (n.natAbs % d.natAbs : Nat) / (d.natAbs : ℚ)) =
        (n / d : ℚ) := by
  have hne : (d : ℚ) ≠ 0 := Int.cast_ne_zero.2 hd.ne'
  have hbelow : (d.natAbs : ℚ) = d := by rw [Nat.cast_natAbs, abs_of_pos hd]
  have hsum : ((n.natAbs / d.natAbs : Nat) : ℚ) + (n.natAbs % d.natAbs : Nat) / (d : ℚ) =
      n.natAbs / d := by
    rw [eq_div_iff hne, add_mul, div_mul_cancel₀ _ hne, mul_comm, ← hbelow]
    exact_mod_cast Nat.div_add_mod n.natAbs d.natAbs
  rw [hbelow, hsum, Nat.cast_natAbs]
  split
  case isTrue hneg => rw [abs_of_neg hneg, Int.cast_neg, neg_div, neg_neg]
  case isFalse hneg => rw [abs_of_nonneg (not_lt.1 hneg)]

/-- Over a positive denominator the whole part has the sign of the numerator. -/
theorem tdiv_sign (n : Int) {d : Int} (hd : 0 < d) :
    (if n.tdiv d = 0 then decide (n < 0) else decide (n.tdiv d < 0)) = decide (n < 0) := by
  split
  case isTrue _ => rfl
  case isFalse hne =>
    rcases lt_or_ge n 0 with hneg | hpos
    · have hopposite : n.tdiv d = -(-n).tdiv d := by rw [Int.neg_tdiv, Int.neg_neg]
      have := Int.tdiv_nonneg (a := -n) (b := d) (by omega) hd.le
      rw [decide_eq_true hneg, decide_eq_true (by omega)]
    · have := Int.tdiv_nonneg hpos hd.le
      rw [decide_eq_false (by omega), decide_eq_false (by omega)]

/-- Only over a positive denominator is the layout a mixed number. -/
theorem readMixed?_of_not_dvd (hne : d ≠ 0) (hdvd : ¬ d ∣ n) :
    readMixed? (mixedLayout (if n.tdiv d = 0 then n < 0 else n.tdiv d < 0)
      (n.natAbs / d.natAbs) (n.natAbs % d.natAbs) (intText d).toList) =
        if 0 < d then some (n / d : ℚ) else none := by
  have hleft := mod_pos_of_not_dvd hdvd
  have hmod := Nat.mod_lt n.natAbs (Int.natAbs_pos.2 hne)
  have hblank : ' ' ∉ (intText d).toList := by
    rw [toList_intText, List.mem_append]
    rintro (h | h)
    · split at h <;> simp at h
    · exact not_mem_toDigits (by decide) _ h
  rw [readMixed?_layout _ hblank, toList_intText]
  by_cases hpos : 0 < d
  · rw [if_neg (show ¬ d < 0 by omega), List.nil_append, readNat?_toDigits, tdiv_sign n hpos,
      if_pos hpos, ← mixed_value n hpos]
    simp [hleft, hmod]
  · rw [if_pos (show d < 0 by omega), List.singleton_append, readNat?_minus, if_neg hpos]
    rfl

/-- **Mixed numbers denote the fraction.** The text that a fraction of two integers below `2^26` is
shown as, unless the denominator is one, is read as its value, if the denominator is positive or
nothing is left over; and else it is no mixed number. -/
theorem mixed_read (hr : r.Ratio n d) (hn : n.natAbs < 2 ^ 26) (hd : d.natAbs < 2 ^ 26)
    (hne : d ≠ 0) (hone : d ≠ 1) (rounded : Bool) :
    readMixed? (text .mixed rounded (.shown Localizer.plain) r).toList =
      if 0 < d ∨ d ∣ n then some (n / d : ℚ) else none := by
  have hx := hr.numerator.form (by omega)
  have hy := hr.denominator.form (by omega)
  have hover : (r.denominator == 1) = false :=
    Bool.eq_false_iff.2 (mt (hy.beq_iff Decimal.form_one).1 hone)
  have hbelow : (r.denominator == 0) = false :=
    Bool.eq_false_iff.2 (mt (hy.beq_iff Decimal.form_zero).1 hne)
  rcases eq_or_ne n 0 with rfl | hzero
  · have hnone : (r.numerator == 0) = true := (hx.beq_iff Decimal.form_zero).2 rfl
    have htext : text .mixed rounded (.shown Localizer.plain) r = "0" := by
      rw [text, hnone, hbelow, if_neg (by decide), if_pos rfl]
      decide +kernel
    rw [htext, if_pos (Or.inr (Int.dvd_zero d)), Int.cast_zero, zero_div]
    decide +kernel
  · have hsome : (r.numerator == 0) = false :=
      Bool.eq_false_iff.2 (mt (hx.beq_iff Decimal.form_zero).1 hzero)
    have htext : text .mixed rounded (.shown Localizer.plain) r =
        mixedText (.shown Localizer.plain) r := by
      rw [text, hsome, hover]
      rfl
    rw [htext]
    by_cases hdvd : d ∣ n
    · rw [mixedText_of_dvd hx hy hn hd hne hdvd, readMixed?_grouped, if_pos (Or.inr hdvd),
        Int.tdiv_eq_ediv_of_dvd hdvd, Int.cast_div hdvd (Int.cast_ne_zero.2 hne)]
    · rw [mixedText_of_not_dvd hx hy hn hd hne hdvd, readMixed?_of_not_dvd hne hdvd]
      simp [hdvd]

/-- With the sign above, below, on both sides, and with nothing left over. -/
theorem mixed_read_signs :
    let shown := fun n d : Int =>
      text .mixed true (.shown Localizer.plain) (make (Float.ofInt n) (Float.ofInt d))
    shown (-7) 2 = "-3 1/2" ∧ readMixed? (shown (-7) 2).toList = some (-(7 / 2)) ∧
      shown 7 (-2) = "-3 1/-2" ∧ readMixed? (shown 7 (-2)).toList = none ∧
      shown (-7) (-2) = "3 1/-2" ∧ readMixed? (shown (-7) (-2)).toList = none ∧
      shown 3702 (-3) = "-1,234" ∧ readMixed? (shown 3702 (-3)).toList = some (-1234) := by
  have habove := mixed_read (ratio_make (-7) (d := 2) (by decide)) (by decide) (by decide)
    (by decide) (by decide) true
  have hbelow := mixed_read (ratio_make 7 (d := -2) (by decide)) (by decide) (by decide)
    (by decide) (by decide) true
  have hboth := mixed_read (ratio_make (-7) (d := -2) (by decide)) (by decide) (by decide)
    (by decide) (by decide) true
  have hwhole := mixed_read (ratio_make 3702 (d := -3) (by decide)) (by decide) (by decide)
    (by decide) (by decide) true
  rw [if_pos (by decide)] at habove hwhole
  rw [if_neg (by decide)] at hbelow hboth
  norm_num at habove hwhole
  exact ⟨by decide +kernel, habove, by decide +kernel, hbelow, by decide +kernel, hboth,
    by decide +kernel, hwhole⟩

end

end BlockMachine.Fraction
