import BlockMachine.Operator.Arithmetic
import BlockMachine.Proofs.Decimal.Whole

/-!
# Numbers are less, equal or greater

Two doubles are in one of three relations, unless one of them is NaN. Fractions are too, only that
nearly equal ones count as equal. This one relation is all that the comparisons of this library
tell, each in its own way.

* `Decimal.compared` — the relation of two doubles, with the doubles exchanged: `compared_swap`;
* `Decimal.abs_sub_comm` — how far two doubles are apart does not depend on their order;
* `Fraction.compared` — the relation of two fractions;
* `Fraction.less_of_compared` and those behind it — what each comparison says of it;
* `Fraction.fuzzyEq_comm`, `Fraction.fuzzyEq_self` — being equal.
-/

namespace BlockMachine

namespace Decimal

open Float.Model (Format UnpackedFloat)
open Float.Model.UnpackedFloat (Sign)

/-! ## The order of doubles -/

/-- How two doubles compare; NaN compares with nothing. -/
def compared (x y : Float) : Option Ordering :=
  x.toModel.compare y.toModel

theorem compare_swap (u v : UnpackedFloat) : (u.compare v).map Ordering.swap = v.compare u := by
  cases u with
  | notANumber => cases v <;> rfl
  | infinity s =>
    cases s <;> cases v with
    | infinity s' => cases s' <;> rfl
    | _ => rfl
  | zero s =>
    cases v with
    | infinity s' => cases s' <;> rfl
    | finite s' => cases s' <;> rfl
    | _ => rfl
  | finite s m e hm =>
    cases v with
    | finite s' m' e' hm' =>
      have horder : ((compare e e').then (compare m m')).swap
          = (compare e' e).then (compare m' m) := by
        rw [Ordering.swap_then, Int.compare_swap, Nat.compare_swap]
      cases s <;> cases s' <;> simp [UnpackedFloat.compare, ← horder]
    | infinity s' => cases s' <;> cases s <;> rfl
    | zero s' => cases s <;> rfl
    | notANumber => cases s <;> rfl

/-- Exchanging the doubles turns their relation around. -/
theorem compared_swap (x y : Float) : (compared x y).map Ordering.swap = compared y x :=
  compare_swap _ _

theorem lt_iff_compared {x y : Float} : x < y ↔ compared x y = some .lt :=
  lt_iff x y

theorem gt_iff_compared {x y : Float} : y < x ↔ compared x y = some .gt := by
  rw [lt_iff_compared, ← compared_swap x y]
  cases compared x y with
  | none => simp
  | some o => cases o <;> simp

theorem le_iff_compared {x y : Float} : x ≤ y ↔ (compared x y).any (·.isLE) = true :=
  le_iff x y

theorem ge_iff_compared {x y : Float} : y ≤ x ↔ (compared x y).any (·.isGE) = true := by
  rw [le_iff_compared, ← compared_swap x y]
  cases compared x y with
  | none => simp
  | some o => cases o <;> simp

theorem beq_iff_compared {x y : Float} : (x == y) = true ↔ compared x y = some .eq := by
  change (compared x y == some .eq) = true ↔ _
  exact beq_iff_eq

/-- Doubles that are not NaN compare. -/
theorem exists_compared {x y : Float} (hx : x.isNaN = false) (hy : y.isNaN = false) :
    ∃ o, compared x y = some o := by
  replace hx : x.toModel.unpack.isNaN = false := hx
  replace hy : y.toModel.unpack.isNaN = false := hy
  change ∃ o, x.toModel.unpack.compare y.toModel.unpack = some o
  generalize x.toModel.unpack = u at hx ⊢
  generalize y.toModel.unpack = v at hy ⊢
  cases u with
  | notANumber => cases hx
  | infinity s =>
    cases s <;> cases v with
    | notANumber => cases hy
    | infinity s' => cases s' <;> exact ⟨_, rfl⟩
    | _ => exact ⟨_, rfl⟩
  | zero s =>
    cases v with
    | notANumber => cases hy
    | zero s' => exact ⟨_, rfl⟩
    | infinity s' | finite s' => cases s' <;> exact ⟨_, rfl⟩
  | finite s =>
    cases s <;> cases v with
    | notANumber => cases hy
    | zero s' => exact ⟨_, rfl⟩
    | infinity s' | finite s' => cases s' <;> exact ⟨_, rfl⟩

theorem unpack_of_isNaN {x : Float} (hx : x.isNaN = true) : x.toModel.unpack = .notANumber := by
  replace hx : x.toModel.unpack.isNaN = true := hx
  cases hu : x.toModel.unpack with
  | notANumber => rfl
  | _ =>
    rw [hu] at hx
    cases hx

theorem compared_of_isNaN {x : Float} (hx : x.isNaN = true) (y : Float) : compared x y = none := by
  change x.toModel.unpack.compare y.toModel.unpack = none
  rw [unpack_of_isNaN hx]
  rfl

/-- A double is itself, unless it is NaN. -/
theorem beq_self_iff {x : Float} : (x == x) = true ↔ x.isNaN = false := by
  rw [beq_iff_compared]
  constructor
  · intro hself
    rw [← Bool.not_eq_true]
    intro hx
    rw [compared_of_isNaN hx] at hself
    cases hself
  · intro hx
    obtain ⟨o, ho⟩ := exists_compared hx hx
    have hswap := compared_swap x x
    rw [ho, Option.map_some, Option.some.injEq] at hswap
    cases o with
    | eq => exact ho
    | lt | gt => cases hswap

/-! ## Distances

A double is the same as another one but for the sign if the two have the same absolute value. -/

/-- The sign does not go into the other parts of a double. -/
theorem abs_unpack {b b' : BitVec Format.binary64.numBits}
    (hexponent : UnpackedFloat.unpackExponent b = UnpackedFloat.unpackExponent b')
    (hmantissa : UnpackedFloat.unpackMantissa b = UnpackedFloat.unpackMantissa b') :
    (UnpackedFloat.unpack Format.binary64 b).abs =
      (UnpackedFloat.unpack Format.binary64 b').abs := by
  simp only [UnpackedFloat.unpack, hexponent, hmantissa]
  split
  · split <;> rfl
  · split
    · split <;> rfl
    · rfl

/-- What differs in its sign alone does so after packing. -/
theorem abs_unpack_pack {u v : UnpackedFloat} (h : u.abs = v.abs) :
    (Float.Model.pack u).unpack.abs = (Float.Model.pack v).unpack.abs := by
  have hpacked : ∀ (s s' : Sign) (e : BitVec Format.binary64.exponentBits)
      (m : BitVec Format.binary64.mantissaBitsWithoutImplicit),
      (UnpackedFloat.unpack Format.binary64 (UnpackedFloat.packComponents _ s e m)).abs =
        (UnpackedFloat.unpack Format.binary64 (UnpackedFloat.packComponents _ s' e m)).abs := by
    intro s s' e m
    apply abs_unpack <;> simp
  change (UnpackedFloat.unpack Format.binary64 (UnpackedFloat.pack _ u)).abs =
    (UnpackedFloat.unpack Format.binary64 (UnpackedFloat.pack _ v)).abs
  cases u <;> cases v <;> cases h
  case infinity => exact hpacked _ _ _ _
  case notANumber => rfl
  case zero => exact hpacked _ _ _ _
  case finite =>
    simp only [UnpackedFloat.pack]
    split
    · exact hpacked _ _ _ _
    · split
      · exact hpacked _ _ _ _
      · exact hpacked _ _ _ _

/-- Rounding does not look at the sign. -/
theorem abs_round (s s' : Sign) (m : Nat) (e : Int) :
    (UnpackedFloat.round Format.binary64 s m e).abs =
      (UnpackedFloat.round Format.binary64 s' m e).abs := by
  simp only [UnpackedFloat.round, UnpackedFloat.roundWithAccuracy]
  split <;> rfl

theorem abs_normalize_neg (z e : Int) (s : Sign) :
    (UnpackedFloat.normalize Format.binary64 (-z) e s).abs =
      (UnpackedFloat.normalize Format.binary64 z e s).abs := by
  simp only [UnpackedFloat.normalize]
  rcases Int.lt_trichotomy z 0 with hneg | rfl | hpos
  · rw [Int.compare_eq_gt.2 (by omega : 0 < -z), Int.compare_eq_lt.2 hneg]
    exact abs_round _ _ _ _
  · rfl
  · rw [Int.compare_eq_lt.2 (by omega : -z < 0), Int.compare_eq_gt.2 hpos, neg_neg]
    exact abs_round _ _ _ _

theorem abs_unpacked_sub_comm (u v : UnpackedFloat) :
    (UnpackedFloat.sub Format.binary64 u v).abs = (UnpackedFloat.sub Format.binary64 v u).abs := by
  cases u with
  | notANumber => cases v <;> rfl
  | infinity s =>
    cases v with
    | infinity s' => cases s <;> cases s' <;> rfl
    | _ => rfl
  | zero s =>
    cases v with
    | zero s' => cases s <;> cases s' <;> rfl
    | _ => rfl
  | finite s m e hm =>
    cases v with
    | finite s' m' e' hm' =>
      simp only [UnpackedFloat.sub, Int.min_comm e' e]
      rw [← abs_normalize_neg, Int.neg_sub]
    | _ => rfl

/-- **The distance of two doubles** does not depend on their order. -/
theorem abs_sub_comm (x y : Float) : (x - y).abs = (y - x).abs := by
  have hmodel : (x - y).abs.toModel = (y - x).abs.toModel :=
    congrArg Float.Model.pack (abs_unpack_pack (abs_unpacked_sub_comm _ _))
  exact congrArg Float.ofModel hmodel

/-- NaN is not near to anything. -/
theorem isNaN_abs_sub {x : Float} (hx : x.isNaN = true) (y : Float) :
    (x - y).abs.isNaN = true := by
  have hsub : (x - y).toModel = Float.Model.pack .notANumber := by
    change Float.Model.pack (UnpackedFloat.sub _ x.toModel.unpack y.toModel.unpack) = _
    rw [unpack_of_isNaN hx]
    rfl
  change (Float.Model.pack (x - y).toModel.unpack.abs).unpack.isNaN = true
  rw [hsub]
  decide

end Decimal

/-! ## The order of fractions -/

namespace Fraction

open Decimal (compared_swap)

/-- How two fractions compare, where nearly equal ones are equal. -/
def compared (a b : Fraction) : Option Ordering :=
  if a.fuzzyEq b then some .eq else Decimal.compared a.value b.value

/-- Which of two fractions comes first does not matter for being equal. -/
theorem fuzzyEq_comm (a b : Fraction) : a.fuzzyEq b = b.fuzzyEq a := by
  have hvalue : (a.value == b.value) = (b.value == a.value) := by
    rw [Bool.eq_iff_iff, Decimal.beq_iff_compared, Decimal.beq_iff_compared,
      ← compared_swap a.value b.value]
    cases Decimal.compared a.value b.value with
    | none => simp
    | some o => cases o <;> simp
  rw [fuzzyEq, fuzzyEq, hvalue, Decimal.abs_sub_comm, Bool.or_comm (a.denominator == 1)]

/-- A fraction is equal to itself, unless its value is NaN. -/
theorem fuzzyEq_self {a : Fraction} : a.fuzzyEq a = true ↔ a.value.isNaN = false := by
  constructor
  · intro hself
    rw [← Bool.not_eq_true]
    intro hnan
    have hvalue : (a.value == a.value) = false := by
      rw [← Bool.not_eq_true, Decimal.beq_self_iff, hnan]
      simp
    have hnear : ¬ (a.value - a.value).abs < tolerance := by
      rw [Decimal.lt_iff_compared, Decimal.compared_of_isNaN (Decimal.isNaN_abs_sub hnan _)]
      simp
    simp [fuzzyEq, hvalue, hnear] at hself
  · intro hnan
    rw [fuzzyEq, Decimal.beq_self_iff.2 hnan, Bool.true_or]

theorem compared_swap (a b : Fraction) : (a.compared b).map Ordering.swap = b.compared a := by
  rw [compared, compared, fuzzyEq_comm b a]
  split
  · rfl
  · exact Decimal.compared_swap _ _

/-- Fractions whose values are not NaN compare. -/
theorem exists_compared {a b : Fraction} (ha : a.value.isNaN = false) (hb : b.value.isNaN = false) :
    ∃ o, a.compared b = some o := by
  rw [compared]
  split
  · exact ⟨.eq, rfl⟩
  · exact Decimal.exists_compared ha hb

section

variable {a b : Fraction} {o : Ordering}

/-- The order of the values, as far as it can be seen in the order of the fractions. -/
theorem compared_cases (h : a.compared b = some o) :
    a.fuzzyEq b = true ∧ o = .eq ∨
      a.fuzzyEq b = false ∧ o ≠ .eq ∧ Decimal.compared a.value b.value = some o := by
  rw [compared] at h
  split at h
  case isTrue hfuzzy => exact .inl ⟨hfuzzy, (Option.some.inj h).symm⟩
  case isFalse hfuzzy =>
    refine .inr ⟨by simpa using hfuzzy, ?_, h⟩
    rintro rfl
    rw [fuzzyEq, Decimal.beq_iff_compared.2 h, Bool.true_or] at hfuzzy
    exact hfuzzy rfl

theorem fuzzyEq_of_compared (h : a.compared b = some o) : a.fuzzyEq b = (o == .eq) := by
  rcases compared_cases h with ⟨hfuzzy, rfl⟩ | ⟨hfuzzy, hne, -⟩
  · exact hfuzzy
  · rw [hfuzzy, beq_eq_false_iff_ne.2 hne]

theorem less_of_compared (h : a.compared b = some o) : a.less b = (o == .lt) := by
  rcases compared_cases h with ⟨hfuzzy, rfl⟩ | ⟨hfuzzy, hne, hvalue⟩
  · simp [less, hfuzzy]
  · cases o <;> simp_all [less, Decimal.lt_iff_compared]

theorem greater_of_compared (h : a.compared b = some o) : a.greater b = (o == .gt) := by
  rcases compared_cases h with ⟨hfuzzy, rfl⟩ | ⟨hfuzzy, hne, hvalue⟩
  · simp [greater, hfuzzy]
  · cases o <;> simp_all [greater, Decimal.gt_iff_compared]

theorem lessOrEqual_of_compared (h : a.compared b = some o) : a.lessOrEqual b = o.isLE := by
  rcases compared_cases h with ⟨hfuzzy, rfl⟩ | ⟨hfuzzy, -, hvalue⟩
  · simp [lessOrEqual, hfuzzy]
  · simp [lessOrEqual, hfuzzy, Decimal.le_iff_compared, hvalue]

theorem greaterOrEqual_of_compared (h : a.compared b = some o) :
    a.greaterOrEqual b = o.isGE := by
  rcases compared_cases h with ⟨hfuzzy, rfl⟩ | ⟨hfuzzy, -, hvalue⟩
  · simp [greaterOrEqual, hfuzzy]
  · simp [greaterOrEqual, hfuzzy, Decimal.ge_iff_compared, hvalue]

end

end Fraction

end BlockMachine
