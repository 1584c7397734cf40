import BlockMachine.Proofs.Decimal.Quotients
import BlockMachine.Proofs.Grammar.NumberText

/-!
# Numbers that are read again

A number is written as one of a few words, as a plain double, or as a numerator and a denominator,
whichever its parts and its value ask for. What is written is read as a number of the same value,
but for NaN over a denominator other than one: the text of its numerator is a word, and no number
token has a word in front of a slash.

* `Fraction.SameNumber` — having the same value, `Fraction.ReadsAs` — being read as that value;
* `Fraction.readsAs_plain`, `readsAs_quotient` — doubles and pairs of doubles are read again;
* `Fraction.readsAs_written_iff` — which written fractions are read again;
* `Environment.number_reread_iff` — which numbers survive being read, written and read again.
-/

namespace BlockMachine

/-! ## What written numbers are read as -/

namespace Fraction

open Decimal (plain isWhole)

/-- The same number, where NaN is the same as NaN and the zeros are the same. -/
def SameNumber (x y : Float) : Prop :=
  (x == y) = true ∨ x.isNaN = true ∧ y.isNaN = true

theorem SameNumber.refl (x : Float) : SameNumber x x := by
  cases hx : x.isNaN with
  | false => exact .inl (Decimal.beq_self_iff.2 hx)
  | true => exact .inr ⟨hx, hx⟩

theorem SameNumber.symm {x y : Float} (h : SameNumber x y) : SameNumber y x := by
  refine h.imp (fun heq => ?_) And.symm
  rw [Decimal.beq_iff_compared] at heq ⊢
  rw [← Decimal.compared_swap, heq]
  rfl

/-- A text is read as a number of this value. -/
def ReadsAs (text : String) (x : Float) : Prop :=
  Kind.number.pattern.Matches text.toList ∧
    SameNumber (Literal.readFraction text.toList).value x

/-- A number over one has the value of the number. -/
theorem value_ofFloat (x : Float) : (ofFloat x).value = x := by
  have hone : isWhole 1 = true := by decide
  rw [ofFloat, make, if_pos hone, value, Decimal.float_div_one]

variable {x : Float}

theorem readsAs_pi (hx : (x == pi) = true) : ReadsAs "π" x := by
  have hread : Literal.readFraction "π".toList = ofFloat pi := rfl
  refine ⟨Pattern.matchesAll_iff.1 (by decide), ?_⟩
  rw [hread, value_ofFloat]
  exact SameNumber.symm (.inl hx)

theorem readsAs_euler (hx : (x == euler) = true) : ReadsAs "e" x := by
  have hread : Literal.readFraction "e".toList = ofFloat euler := rfl
  refine ⟨Pattern.matchesAll_iff.1 (by decide), ?_⟩
  rw [hread, value_ofFloat]
  exact SameNumber.symm (.inl hx)

theorem readsAs_infinity (hx : x.isInf = true) :
    ReadsAs (Decimal.withSign (Decimal.isNegative x) "Infinity") x := by
  obtain ⟨s, rfl⟩ := Decimal.exists_infinity hx
  have hread : Literal.readFraction (Decimal.withSign
      (Decimal.isNegative (.ofModel (.pack (.infinity s)))) "Infinity").toList =
        ofFloat (.ofModel (.pack (.infinity s))) := by
    cases s <;> decide
  refine ⟨Pattern.matchesAll_iff.1 (by cases s <;> decide), ?_⟩
  rw [hread, value_ofFloat]
  exact SameNumber.refl _

theorem readsAs_nan (hx : x.isNaN = true) : ReadsAs "NaN" x := by
  refine ⟨Pattern.matchesAll_iff.1 (by decide), .inr ⟨by decide +kernel, hx⟩⟩

theorem readsAs_zero (hx : (x == 0) = true) : ReadsAs "0" x := by
  have hread : Literal.readFraction "0".toList = ofFloat 0 := by decide
  refine ⟨Pattern.matchesAll_iff.1 (by decide), ?_⟩
  rw [hread, value_ofFloat]
  exact SameNumber.symm (.inl hx)

/-- Characters of plain texts do not get in the way of a fraction. -/
theorem filter_comma_plain (hx : x.isFinite = true) :
    (plain x).toList.filter (· != ',') = (plain x).toList := by
  rw [List.filter_eq_self]
  intro c hc
  rcases mem_plain hx hc with hdigit | rfl | rfl
  · rw [bne_iff_ne]
    rintro rfl
    revert hdigit
    decide
  · decide
  · decide

/-- A plain double is read as itself, over one. -/
theorem readFraction_plain (hx : x.isFinite = true) :
    Literal.readFraction (plain x).toList = ofFloat x := by
  have hname : ∀ c, c ∉ ['-', '.'] → Decimal.isDigit c = false → (plain x).toList ≠ [c] := by
    intro c hc hdigit heq
    rcases mem_plain hx (heq ▸ List.mem_singleton_self c) with h | rfl | rfl
    · rw [hdigit] at h
      cases h
    · exact hc (by decide)
    · exact hc (by decide)
  have hslash : '/' ∉ (plain x).toList :=
    Pattern.not_mem_of_matches (by decide) (Pattern.matches_decimalNumber_plain hx)
  rw [Literal.readFraction, filter_comma_plain hx,
    if_neg (hname _ (by decide) (by decide)), if_neg (hname _ (by decide) (by decide)),
    if_neg (by simpa using hslash), Literal.readFloat_plain hx]

theorem readsAs_plain (hx : x.isFinite = true) : ReadsAs (plain x) x := by
  have hmatch : Kind.number.pattern.Matches (plain x).toList :=
    .inl ⟨_, [], (List.append_nil _).symm, Pattern.matches_decimalNumber_plain hx, .inr rfl⟩
  refine ⟨hmatch, ?_⟩
  rw [readFraction_plain hx, value_ofFloat]
  exact SameNumber.refl x

theorem readsAs_quotient {y : Float} (hx : x.isFinite = true) (hy : isWhole y = true) :
    ReadsAs (plain x ++ "/" ++ plain y) (x / y) := by
  have hy' : y.isFinite = true := (Bool.and_eq_true_iff.1 hy).1
  have hslash : '/' ∉ (plain x).toList :=
    Pattern.not_mem_of_matches (by decide) (Pattern.matches_decimalNumber_plain hx)
  have htext : (plain x ++ "/" ++ plain y).toList =
      (plain x).toList ++ '/' :: (plain y).toList := by
    simp
  have hmatch : Kind.number.pattern.Matches (plain x ++ "/" ++ plain y).toList := by
    obtain ⟨_, _, hplain, hsign, hdigits⟩ := Pattern.matches_integer_plain hy
    rw [htext]
    exact .inl ⟨_, '/' :: (plain y).toList, rfl, Pattern.matches_decimalNumber_plain hx,
      .inl ⟨['/'], _, rfl, rfl, _, _, hplain, hsign, hdigits⟩⟩
  have hfilter : ((plain x).toList ++ '/' :: (plain y).toList).filter (· != ',') =
      (plain x).toList ++ '/' :: (plain y).toList := by
    rw [List.filter_append, filter_comma_plain hx, List.filter_cons_of_pos (by decide),
      filter_comma_plain hy']
  have hread : Literal.readFraction (plain x ++ "/" ++ plain y).toList = ⟨x, y⟩ := by
    have hfront : ((plain x).toList ++ '/' :: (plain y).toList).takeWhile (· != '/') =
        (plain x).toList := takeWhile_stop (fun c hc => by
          rw [bne_iff_ne]
          rintro rfl
          exact hslash hc) (by decide)
    have hback : ((plain x).toList ++ '/' :: (plain y).toList).dropWhile (· != '/') =
        '/' :: (plain y).toList := dropWhile_stop (fun c hc => by
          rw [bne_iff_ne]
          rintro rfl
          exact hslash hc) (by decide)
    have htrunc : Decimal.trunc y = y := by
      rw [Decimal.trunc, Decimal.roundBy, hy, Bool.or_true, if_pos rfl]
    rw [htext, Literal.readFraction, hfilter, if_neg, if_neg, if_pos, hfront, hback,
      List.drop_one, List.tail_cons, Literal.readFloat_plain hx, Literal.readFloat_plain hy',
      htrunc, make, if_pos hy]
    · simp
    · intro heq
      exact absurd (heq ▸ List.mem_append_right _ List.mem_cons_self : '/' ∈ ['e']) (by decide)
    · intro heq
      exact absurd (heq ▸ List.mem_append_right _ List.mem_cons_self : '/' ∈ ['π']) (by decide)
  refine ⟨hmatch, ?_⟩
  rw [hread]
  exact SameNumber.refl _

/-- **Written fractions** with a whole denominator are read again, unless NaN stands over another
number than one. -/
theorem readsAs_written {r : Fraction} (hd : isWhole r.denominator = true)
    (hn : r.numerator.isNaN = false ∨ (r.denominator == 1) = true) : ReadsAs r.written r.value := by
  have hfinite : r.denominator.isFinite = true := (Bool.and_eq_true_iff.1 hd).1
  rw [written]
  split
  case isTrue hpi => exact readsAs_pi hpi
  case isFalse hpi =>
  split
  case isTrue he => exact readsAs_euler he
  case isFalse he =>
  split
  case isTrue hinf => exact readsAs_infinity hinf
  case isFalse hinf =>
  rw [text]
  split
  case isTrue hzeros =>
    obtain ⟨h, h'⟩ := Bool.and_eq_true_iff.1 hzeros
    exact readsAs_nan (Decimal.isNaN_zero_div h h')
  case isFalse hzeros =>
  split
  case isTrue hzero =>
    have hd' : (r.denominator == 0) = false := by simpa [hzero] using hzeros
    exact readsAs_zero (Decimal.zero_div_finite hzero hfinite hd')
  case isFalse hzero =>
  cases hone : r.denominator == 1 with
  | true =>
    have hname : properName .written false r.value =
        if r.value.isNaN then some "NaN" else none := by
      rw [properName, if_neg hpi, if_neg he, Bool.and_false, if_neg Bool.false_ne_true, if_neg hinf]
      rfl
    rw [if_pos (by rw [Bool.true_or]), decimalText, hname]
    cases hnan : r.value.isNaN with
    | true => exact readsAs_nan hnan
    | false => exact readsAs_plain (Decimal.isFinite_of hnan (by simpa using hinf))
  | false =>
    have hnumerator : r.numerator.isFinite = true := by
      have hnan : r.numerator.isNaN = false := hn.resolve_right (by rw [hone]; decide)
      refine Decimal.isFinite_of hnan ?_
      rw [← Bool.not_eq_true]
      exact fun h => hinf (Decimal.isInf_div h hfinite)
    exact readsAs_quotient hnumerator hd

/-- NaN over a number has no value, and no text that could be read as a number. -/
theorem written_nan_over {r : Fraction} (hn : r.numerator.isNaN = true)
    (hone : (r.denominator == 1) = false) : r.written = "NaN/" ++ plain r.denominator := by
  have hvalue : r.value.isNaN = true := Decimal.isNaN_div hn _
  have hnone : ∀ {x : Float}, x.isNaN = true → ∀ y, (x == y) = false := by
    intro x hx y
    rw [← Bool.not_eq_true, Decimal.beq_iff_compared, Decimal.compared_of_isNaN hx]
    simp
  have hinf : r.value.isInf = false := by
    change r.value.toModel.unpack.isInf = false
    rw [Decimal.unpack_of_isNaN hvalue]
    rfl
  have hplain : plain r.numerator = "NaN" := by rw [plain, if_pos hn]
  rw [written, hnone hvalue, hnone hvalue, hinf, text, hnone hn, hone, Bool.false_and]
  simp only [Bool.false_eq_true, if_false]
  change plain r.numerator ++ "/" ++ plain r.denominator = _
  rw [hplain]
  rfl

theorem not_matches_nan_over (s : List Char) :
    ¬ Kind.number.pattern.Matches ("NaN/".toList ++ s) := by
  have hslash : '/' ∈ "NaN/".toList ++ s := List.mem_append_left _ (by decide)
  have hletter : 'N' ∈ "NaN/".toList ++ s := List.mem_append_left _ (by decide)
  rintro (h | h | h | h | h)
  · exact Pattern.not_mem_of_matches (d := 'N') (by decide) h hletter
  · exact Pattern.not_mem_of_matches (d := '/') (by decide) h hslash
  · exact Pattern.not_mem_of_matches (d := '/') (by decide) h hslash
  · exact Pattern.not_mem_of_matches (d := '/') (by decide) h hslash
  · exact Pattern.not_mem_of_matches (d := '/') (by decide) h hslash

/-- **Which written fractions are read again.** -/
theorem readsAs_written_iff {r : Fraction} (hd : isWhole r.denominator = true) :
    ReadsAs r.written r.value ↔
      ¬ (r.numerator.isNaN = true ∧ (r.denominator == 1) = false) := by
  constructor
  · rintro ⟨hmatch, -⟩ ⟨hn, hone⟩
    rw [written_nan_over hn hone, String.toList_append] at hmatch
    exact not_matches_nan_over _ hmatch
  · intro h
    refine readsAs_written hd ?_
    cases hn : r.numerator.isNaN with
    | false => exact .inl rfl
    | true =>
      right
      by_contra hone
      exact h ⟨hn, by simpa using hone⟩

/-- The denominator of a number that is read is whole. -/
theorem isWhole_denominator_readFraction (s : List Char) :
    isWhole (Literal.readFraction s).denominator = true := by
  have hone : isWhole 1 = true := by decide
  have hmake : ∀ n d, isWhole (make n d).denominator = true := by
    intro n d
    rw [make]
    split
    case isTrue h => exact h
    case isFalse h =>
      rw [reduce, if_pos (by simp [h])]
      exact hone
  rw [Literal.readFraction]
  split
  · exact hmake _ _
  · split
    · exact hmake _ _
    · split
      · exact hmake _ _
      · exact hmake _ _

end Fraction

namespace Environment

variable {l : Localizer} {text : String} {st st' : Store} {r : Fraction} {rounded : Bool}

/-- **Numbers that survive.** A number that is read from a text is written as a text that is read as
a number of the same value if and only if it is not NaN over a denominator other than one. -/
theorem number_reread_iff (l : Localizer)
    (hread : (mk l .core).block text st = (.number r rounded, st')) (st₁ : Store) :
    (∃ r', (mk l .core).block (st'.heap.written (.number r rounded)) st₁ = (.ofFraction r', st₁) ∧
        Fraction.SameNumber r'.value r.value) ↔
      ¬ (r.numerator.isNaN = true ∧ (r.denominator == 1) = false) := by
  obtain ⟨-, rfl, -, -⟩ := block_number_iff.1 hread
  have hwritten : st'.heap.written (.number (Literal.readFraction text.toList) rounded) =
      (Literal.readFraction text.toList).written := rfl
  rw [hwritten,
    ← Fraction.readsAs_written_iff (Fraction.isWhole_denominator_readFraction text.toList)]
  constructor
  · rintro ⟨r', hr', hsame⟩
    obtain ⟨hmatch, rfl, -, -⟩ := block_number_iff.1 hr'
    exact ⟨hmatch, hsame⟩
  · rintro ⟨hmatch, hsame⟩
    exact ⟨_, block_number_iff.2 ⟨hmatch, rfl, rfl, rfl⟩, hsame⟩

/-- Commas alone are no number, so `,/5` is NaN over five: it is written `NaN/5`, which is read as
a call. -/
theorem number_reread_iff_commas :
    (mk .plain .core).block ",/5" (Store.ofSeed 0) =
        (.ofFraction (Literal.readFraction [',', '/', '5']), Store.ofSeed 0) ∧
      ¬ ∃ r', (mk .plain .core).block ((Store.ofSeed 0).heap.written
          (.ofFraction (Literal.readFraction [',', '/', '5']))) (Store.ofSeed 0) =
            (.ofFraction r', Store.ofSeed 0) ∧
          Fraction.SameNumber r'.value (Literal.readFraction [',', '/', '5']).value := by
  have hread : (mk .plain .core).block ",/5" (Store.ofSeed 0) =
      (.ofFraction (Literal.readFraction [',', '/', '5']), Store.ofSeed 0) :=
    block_number_iff.2 ⟨Pattern.matchesAll_iff.1 (by decide +kernel), rfl, rfl, rfl⟩
  refine ⟨hread, fun hsame => ?_⟩
  exact (number_reread_iff .plain hread (Store.ofSeed 0)).1 hsame
    ⟨by decide +kernel, by decide +kernel⟩

end Environment

end BlockMachine
