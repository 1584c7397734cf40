import BlockMachine.Proofs.Decimal.Sums
import BlockMachine.Proofs.Machine.Loops
import BlockMachine.Proofs.Machine.SampleTraces
import Mathlib.Algebra.BigOperators.Group.Finset.Basic
import Mathlib.Data.Int.Interval

/-!
# Sums and products over integers

The operators for sums and products count the distance from their first bound in doubles, sample a
function at each integer on the way to the second one, and fold what it gives in fractions. As long
as doubles count the integers that come up, the result is the sum or the product over the range.

* `walk A B` — the integers of a range, in either direction; `image_point` — the first of them;
* `Series` — the two operators, `Series.total` — what they are about; `Series.foldl_overOne` —
  folding integers over one is exact;
* `accumulate_drawn` — the loop draws its samples and folds what they give, `series_drawn` — it does
  so at the integers of the range;
* `Folds` — this on the value stack of a machine, `Folds.exact` — then the result is exact;
* `series_exact` — all of it.
-/

namespace BlockMachine

open Decimal (Form IsInteger form_ofInt form_ofNat)
open Finset (uIcc)

namespace Machine

/-! ## The integers of a range -/

section Range

variable {A B : Int} {k : Nat}

/-- The `j`th integer on the way from `A` to `B`. -/
def point (A B : Int) (j : Nat) : Int :=
  if B < A then A - j else A + j

/-- The integers from `A` to `B`, both included, in either direction. -/
def walk (A B : Int) : List Int :=
  (List.range ((A - B).natAbs + 1)).map (point A B)

theorem point_injective (A B : Int) : Function.Injective (point A B) := by
  intro i j hij
  simp only [point] at hij
  split at hij <;> omega

/-- The first integers on the way are a range themselves. -/
theorem image_point (A B : Int) (k : Nat) :
    (Finset.range (k + 1)).image (point A B) = uIcc A (point A B k) := by
  ext t
  simp only [Finset.mem_image, Finset.mem_range, Finset.mem_uIcc, point]
  split
  · constructor
    · rintro ⟨j, hj, rfl⟩
      omega
    · intro ht
      exact ⟨(A - t).toNat, by omega, by omega⟩
  · constructor
    · rintro ⟨j, hj, rfl⟩
      omega
    · intro ht
      exact ⟨(t - A).toNat, by omega, by omega⟩

theorem point_last (A B : Int) : point A B (A - B).natAbs = B := by
  rw [point]
  split <;> omega

theorem point_mem (hk : k ≤ (A - B).natAbs) : point A B k ∈ uIcc A B := by
  rw [Finset.mem_uIcc, point]
  split <;> omega

theorem mem_of_mem_walk {t : Int} (ht : t ∈ walk A B) : t ∈ uIcc A B := by
  obtain ⟨j, hj, rfl⟩ := List.mem_map.1 ht
  exact point_mem (Nat.le_of_lt_succ (List.mem_range.1 hj))

end Range

/-! ## The operators -/

/-- The operators that fold what a function gives at the integers of a range. -/
inductive Series where
  | sum
  | product

namespace Series

/-- The operator of the language. -/
def operator : Series → Operator
  | sum => .sum
  | product => .product

/-- Its complaint about bounds that are not whole. -/
def bounds : Series → Message
  | sum => Message.bounds "summation" "summation"
  | product => Message.bounds "product" "product"

/-- Its complaint about a function. -/
def message : Series → Message
  | sum => sumMessage
  | product => productMessage

/-- How it takes a number in. -/
def combine : Series → Fraction → Fraction → Fraction
  | sum => Fraction.plus
  | product => Fraction.times

/-- What it starts from. -/
def start : Series → Float
  | sum => 0
  | product => 1

/-- The sum or the product of integers. -/
def total (s : Series) (g : Int → Int) (T : Finset Int) : Int :=
  match s with
  | sum => ∑ t ∈ T, g t
  | product => ∏ t ∈ T, g t

/-- All partial results on the way from `A` to `B` are integers that doubles count. -/
def Bounded (s : Series) (g : Int → Int) (A B : Int) : Prop :=
  ∀ c ∈ uIcc A B, (s.total g (uIcc A c)).natAbs < 2 ^ 53

instance (s : Series) (g : Int → Int) (A B : Int) : Decidable (s.Bounded g A B) :=
  inferInstanceAs (Decidable (∀ c ∈ uIcc A B, (s.total g (uIcc A c)).natAbs < 2 ^ 53))

/-- What it answers to the numbers that the function gives. -/
def answer (s : Series) (l : Localizer) : Option (List Fraction) → Block
  | some rs => .ofFraction (rs.foldl s.combine (.ofFloat s.start))
  | none => s.message.block l

variable {s : Series} {g : Int → Int} {A B : Int} {r q : Fraction} {k : Nat}

theorem overOne_start (s : Series) (g : Int → Int) :
    (Fraction.ofFloat s.start).OverOne (s.total g ∅) := by
  cases s with
  | sum => exact Fraction.overOne_ofFloat (form_ofInt (z := 0) (by decide))
  | product => exact Fraction.overOne_ofFloat Decimal.form_one

/-- One more integer. -/
theorem overOne_combine (hr : r.OverOne (s.total g ((Finset.range k).image (point A B))))
    (hq : q.OverOne (g (point A B k)))
    (hbound : (s.total g ((Finset.range (k + 1)).image (point A B))).natAbs < 2 ^ 53) :
    (s.combine r q).OverOne (s.total g ((Finset.range (k + 1)).image (point A B))) := by
  have hnew : point A B k ∉ (Finset.range k).image (point A B) := by
    rw [Finset.mem_image]
    rintro ⟨j, hj, hjk⟩
    obtain rfl := point_injective A B hjk
    exact Finset.notMem_range_self hj
  rw [Finset.range_add_one, Finset.image_insert] at hbound ⊢
  cases s with
  | sum =>
    simp only [total, Finset.sum_insert hnew] at hr hbound ⊢
    rw [Int.add_comm] at hbound ⊢
    exact hr.plus hq hbound.le
  | product =>
    simp only [total, Finset.prod_insert hnew] at hr hbound ⊢
    rw [Int.mul_comm] at hbound ⊢
    exact hr.times hq hbound.le

/-- **Folding integers is exact** as long as the partial results are. -/
theorem foldl_overOne (hbounded : s.Bounded g A B) (left : Nat) :
    ∀ {k : Nat} {r : Fraction} {rs : List Fraction}, k + left = (A - B).natAbs + 1 →
      r.OverOne (s.total g ((Finset.range k).image (point A B))) →
      List.Forall₂ (fun q j => q.OverOne (g (point A B j))) rs (List.range' k left) →
      (rs.foldl s.combine r).OverOne (s.total g (uIcc A B)) := by
  induction left with
  | zero =>
    intro k r rs hk hr hrs
    cases hrs
    rwa [show k = (A - B).natAbs + 1 by omega, image_point, point_last] at hr
  | succ left ih =>
    intro k r rs hk hr hrs
    rw [List.range'_succ] at hrs
    obtain ⟨q, qs, hq, hqs, rfl⟩ := List.forall₂_cons_right_iff.1 hrs
    have hbound := hbounded _ (point_mem (A := A) (B := B) (k := k) (by omega))
    rw [← image_point] at hbound
    exact ih (k := k + 1) (r := s.combine r q) (by omega) (overOne_combine hr hq hbound) hqs

end Series

/-! ## The loop -/

section Loop

variable {env : Environment} {m n : Machine} {loc : Loc} {x y : Float} {A B : Int}

theorem reading_cases (complaint : Block) (bs : List Block) :
    (∃ r, reading complaint bs = .ok r) ∨ reading complaint bs = .error complaint := by
  match bs with
  | [] | _ :: _ :: _ => exact .inr rfl
  | [b] =>
    rw [reading]
    cases b.fraction? with
    | none => exact .inr rfl
    | some r => exact .inl ⟨r, rfl⟩

/-- From the `k`th sample on, the loop draws the samples that are left, and folds what they give. -/
theorem accumulate_drawn (env : Environment) (n : Machine) (loc : Loc) (message : Message)
    (x sign : Float) {interval : Float} {N : Nat} (hN : N < 2 ^ 53)
    (hle : ∀ j ≤ N + 1, Float.ofNat j ≤ interval ↔ j ≤ N) (op : Fraction → Fraction → Fraction)
    (left : Nat) : ∀ (k fuel : Nat) (total : Fraction) (w : World), k + left = N + 1 → left ≤ fuel →
      ∃ rs w', Drawn env n loc ((List.range' k left).map fun j => Float.ofNat j * sign + x) w rs w' ∧
        Calculus.accumulate (n.probe (run env) env loc message) x sign interval op fuel
            (Float.ofNat k) total w =
          (rs.elim (.error (message.block env.localizer)) fun rs =>
            .ok (.ofFraction (rs.foldl op total)), w') := by
  induction left with
  | zero =>
    intro k fuel total w hk hfuel
    refine ⟨some [], w, .nil w, ?_⟩
    cases fuel with
    | zero => rfl
    | succ fuel =>
      rw [Calculus.accumulate, if_neg (by rw [hle k (by omega)]; omega)]
      rfl
  | succ left ih =>
    intro k fuel total w hk hfuel
    obtain ⟨fuel, rfl⟩ := Nat.exists_eq_add_one.2 (Nat.lt_of_lt_of_le (Nat.succ_pos left) hfuel)
    rw [Calculus.accumulate, if_pos ((hle k (by omega)).2 (by omega)), List.range'_succ,
      List.map_cons]
    simp only [Bind.bind, Sampling.bind, sampleFraction_sampled]
    rcases reading_cases (message.block env.localizer)
      (sampled env n loc (Float.ofNat k * sign + x) w).1 with ⟨r, hr⟩ | hnone
    · obtain ⟨rs, w', hdrawn, hloop⟩ := ih (k + 1) fuel (op total r)
        (sampled env n loc (Float.ofNat k * sign + x) w).2 (by omega) (by omega)
      refine ⟨rs.map (r :: ·), w', .cons (reading_eq_ok_iff.1 hr) hdrawn, ?_⟩
      rw [hr, Decimal.ofNat_add_one (by omega)]
      refine hloop.trans ?_
      cases rs <;> rfl
    · refine ⟨none, _, .failed fun r hr => ?_, ?_⟩
      · rw [reading_eq_ok_iff.2 hr] at hnone
        cases hnone
      · rw [hnone]
        rfl

/-- How far the loop has gone before its `j`th sample. -/
theorem form_distance {j : Nat} (hj : j < 2 ^ 53) :
    Form (point A B j - A) (Float.ofNat j * (if B < A then -1 else 1)).toModel.unpack := by
  have hform := form_ofNat (n := j) hj.le
  rw [point]
  split
  · rw [show A - j - A = j * -1 by omega]
    exact hform.mul (form_ofInt (z := -1) (by decide)) (by omega)
  · rw [show A + j - A = j by omega]
    exact hform.mul_one

/-- The points at which the function is sampled are the integers on the way; only a sample at the
first bound can be a negative zero. -/
theorem isInteger_point (hx : IsInteger x A) (hA : A.natAbs < 2 ^ 53) (hB : B.natAbs < 2 ^ 53)
    (hAB : (A - B).natAbs < 2 ^ 53) {j : Nat} (hj : j ≤ (A - B).natAbs) :
    IsInteger (Float.ofNat j * (if B < A then -1 else 1) + x) (point A B j) ∧
      (x = Float.ofInt A → Float.ofNat j * (if B < A then -1 else 1) + x =
        Float.ofInt (point A B j)) := by
  have hdistance : Form (point A B j - A) _ := form_distance (j := j) (by omega)
  have hmem := Finset.mem_uIcc.1 (point_mem hj)
  have hsum := hdistance.add (hx.form hA.le) (by omega)
  rw [Int.sub_add_cancel] at hsum
  refine ⟨hsum.isInteger (by omega), ?_⟩
  rintro rfl
  rw [hdistance.add_ofInt hA.le (by omega), Int.sub_add_cancel]

/-- **The loop samples the function once at each integer**, in turn. -/
theorem series_drawn (hx : IsInteger x A) (hy : IsInteger y B) (hA : A.natAbs < 2 ^ 53)
    (hB : B.natAbs < 2 ^ 53) (hAB : (A - B).natAbs < 2 ^ 53) (env : Environment) (n : Machine)
    (loc : Loc) (message : Message) (op : Fraction → Fraction → Fraction) (start : Float)
    (w : World) :
    ∃ xs rs w', List.Forall₂ IsInteger xs (walk A B) ∧
      (x = Float.ofInt A → xs = (walk A B).map Float.ofInt) ∧ Drawn env n loc xs w rs w' ∧
      Calculus.series (n.probe (run env) env loc message) x y op start w =
        (rs.elim (.error (message.block env.localizer)) fun rs =>
          .ok (.ofFraction (rs.foldl op (.ofFloat start))), w') := by
  have hinterval := ((hx.form hA.le).sub (hy.form hB.le) hAB.le).abs
  have hle : ∀ j ≤ (A - B).natAbs + 1, Float.ofNat j ≤ (x - y).abs ↔ j ≤ (A - B).natAbs := by
    intro j hj
    rw [(form_ofNat (by omega)).le_iff hinterval]
    omega
  obtain ⟨rs, w', hdrawn, hloop⟩ := accumulate_drawn env n loc message x (if y < x then -1 else 1)
    hAB hle op ((A - B).natAbs + 1) 0 ((A - B).natAbs + 2) (.ofFloat start) w (Nat.zero_add _)
    (Nat.le_succ _)
  have hpoint : ∀ j ∈ List.range' 0 ((A - B).natAbs + 1),
      IsInteger (Float.ofNat j * (if y < x then -1 else 1) + x) (point A B j) ∧
        (x = Float.ofInt A → Float.ofNat j * (if y < x then -1 else 1) + x =
          Float.ofInt (point A B j)) := by
    intro j hj
    rw [List.mem_range'_1] at hj
    simp only [(hy.form hB.le).lt_iff (hx.form hA.le)]
    exact isInteger_point hx hA hB hAB (by omega)
  refine ⟨_, rs, w', ?_, fun hplain => ?_, hdrawn, ?_⟩
  · rw [walk, List.range_eq_range', List.forall₂_map_left_iff, List.forall₂_map_right_iff,
      List.forall₂_same]
    exact fun j hj => (hpoint j hj).1
  · rw [walk, List.range_eq_range', List.map_map]
    exact List.map_congr_left fun j hj => (hpoint j hj).2 hplain
  · rw [Calculus.series, hinterval.wholePart, Int.natAbs_natCast]
    exact hloop

end Loop

/-! ## The operators on a machine -/

section Operators

variable {env : Environment} {m n : Machine} {s : Series} {loc : Loc} {f a b : Block}
  {vals : List Block} {A B : Int} {x y : Float} {xs : List Float} {rs : Option (List Fraction)}

/-- The machine after one of the operators. -/
def Series.after (s : Series) (env : Environment) (m : Machine) : Machine :=
  m.evaluate (splicing env (run env)) env (.operator s.operator)

/-- With the first bound in the block `a`, the operator has drawn samples at the doubles `xs`, which
are the integers from `A` to `B`, in turn, and has pushed one block: the fold of what the samples
give, or a complaint if one of them does not give exactly one number. -/
structure Folds (env : Environment) (m : Machine) (s : Series) (loc : Loc) (vals : List Block)
    (a : Block) (A B : Int) (xs : List Float) (rs : Option (List Fraction)) : Prop where
  points : List.Forall₂ IsInteger xs (walk A B)
  /-- Unless the bound is a negative zero, these are the integers as literals give them. -/
  plain : a.float? = some (Float.ofInt A) → xs = (walk A B).map Float.ofInt
  count : xs.length = (A - B).natAbs + 1
  drawn : ∃ log w', Drawn env m loc xs { m.world with log := log } rs w' ∧
    (s.after env m).world.store = w'.store ∧ (s.after env m).world.memory = w'.memory
  pushed : (s.after env m).values = s.answer env.localizer rs :: vals

theorem isA_data_of_dataLoc? (h : m.dataLoc? f = some loc) : f.isA .data = true := by
  cases f with
  | null | data | package => rfl
  | code name target => cases target <;> cases h
  | _ => cases h

/-- The operator answers what its loop comes to. -/
theorem operate_series (hloc : n.dataLoc? f = some loc) (hx : a.float? = some x)
    (hy : b.float? = some y) (hwhole : Decimal.isWhole x = true ∧ Decimal.isWhole y = true)
    {w' : World} (d : Discipline)
    (hloop : Calculus.series (n.probe d.run env loc s.message) x y s.combine s.start n.world =
      (rs.elim (.error (s.message.block env.localizer)) fun rs =>
        .ok (.ofFraction (rs.foldl s.combine (.ofFloat s.start))), w')) :
    n.operate d env (.operator s.operator) s.operator 0 [f, a, b] =
      (some (s.answer env.localizer rs), { n with world := w' }) := by
  have hoperate : n.operate d env (.operator s.operator) s.operator 0 [f, a, b] =
      n.series d.run env s.bounds s.message s.combine s.start f a b := by
    cases s <;> rfl
  rw [hoperate]
  simp only [Machine.series, hloc, hx, hy, hwhole, Bool.not_true, Bool.or_self, Bool.false_eq_true,
    if_false]
  refine Prod.ext ?_ ?_
  · rw [sampling_fst, hloop]
    cases rs <;> rfl
  · rw [sampling_eq, hloop]

/-- **The operators sample and fold**, whatever the function does. -/
theorem exists_folds (s : Series) (hf : m.dataLoc? f = some loc) (ha : a.Denotes A)
    (hb : b.Denotes B) (hA : A.natAbs < 2 ^ 53) (hB : B.natAbs < 2 ^ 53)
    (hAB : (A - B).natAbs < 2 ^ 53) (hv : m.values = b :: a :: f :: vals) (env : Environment) :
    ∃ xs rs, Folds env m s loc vals a A B xs rs := by
  obtain ⟨x, hx, hxA⟩ := ha
  obtain ⟨y, hy, hyB⟩ := hb
  have hfit : fits [.data, .number, .number] [f, a, b] = true :=
    fits_iff.2 (.cons (isA_data_of_dataLoc? hf)
      (.cons (Block.isA_number hx).1 (.cons (Block.isA_number hy).1 .nil)))
  obtain ⟨n, hmoved, hpaced, hvalues, hstore, hmemory⟩ := evaluate_calculus s.operator
    [f, a, b] (by cases s <;> rfl) (by cases s <;> rfl) hfit hv (splicing env (run env)) env
  obtain ⟨xs, rs, w', hpoints, hplain, hdrawn, hloop⟩ := series_drawn hxA hyB hA hB hAB env n loc s.message
    s.combine s.start n.world
  -- the samples are those of the machine that still has its operands
  have hworkspace : n.workspace = m.workspace := hpaced.workspace
  have hsampled : sampled env n loc = sampled env m loc :=
    sampled_congr env loc hworkspace hmoved.heap (by rw [hmoved.active]) hpaced.nestedBudget
  have hworld : n.world = { m.world with log := n.world.log } :=
    congrArg₂ (fun store memory => World.mk store memory n.world.log) hmoved.same.store.symm
      hmoved.same.memory.symm
  have hloc : n.dataLoc? f = some loc := by
    rw [← hf, dataLoc?, dataLoc?, resolve, resolve, hworkspace, hmoved.heap]
  have hoperate := operate_series hloc hx hy ⟨(hxA.form hA.le).isWhole, (hyB.form hB.le).isWhole⟩
    (splicing env (run env)) hloop
  rw [hoperate] at hvalues hstore hmemory
  refine ⟨xs, rs, hpoints, fun hfloat => ?_, ?_, ⟨n.world.log, w', ?_, hstore, hmemory⟩, hvalues⟩
  · exact hplain (Option.some.inj (hx.symm.trans hfloat))
  · rw [hpoints.length_eq, walk, List.length_map, List.length_range]
  · rw [← hworld]
    exact hdrawn.congr hsampled

/-- For the double `x` the function gives the integer `z` over one. It rolls no dice, and leaves the
memory as it was. -/
structure Computes (env : Environment) (m : Machine) (loc : Loc) (x : Float) (z : Int) : Prop where
  traceless : Traceless env m loc x
  gives : ∃ r, Gives env m loc m.world x r ∧ r.OverOne z

theorem overOne_of_computes {g : Int → Int} {ts : List Int} {qs : List Fraction}
    (h : List.Forall₂ (fun x t => Computes env m loc x (g t)) xs ts)
    (hgives : List.Forall₂ (Gives env m loc m.world) xs qs) :
    List.Forall₂ (fun q t => q.OverOne (g t)) qs ts := by
  induction h generalizing qs with
  | nil =>
    cases hgives
    exact .nil
  | cons hx _ ih =>
    obtain ⟨q, qs, hq, hqs, rfl⟩ := List.forall₂_cons_left_iff.1 hgives
    obtain ⟨r, hr, hinteger⟩ := hx.gives
    obtain rfl := hr.unique hq
    exact .cons hinteger (ih hqs)

/-- **Exact sums and products.** -/
theorem Folds.exact {g : Int → Int} (he : env.Impartial) (hm : m.Sound)
    (h : Folds env m s loc vals a A B xs rs)
    (hg : ∀ x ∈ xs, ∀ t ∈ uIcc A B, IsInteger x t → Computes env m loc x (g t))
    (hbounded : s.Bounded g A B) :
    ∃ qs r, rs = some qs ∧ (s.after env m).values = .ofFraction r :: vals ∧
      r.OverOne (s.total g (uIcc A B)) := by
  have hinside : List.Forall₂ (fun t x => t ∈ uIcc A B ∧ IsInteger x t) (walk A B) xs :=
    (List.forall₂_and_left _ _).2 ⟨fun t ht => mem_of_mem_walk ht, h.points.flip⟩
  have hall : List.Forall₂ (fun x t => Computes env m loc x (g t)) xs (walk A B) :=
    ((List.forall₂_and_left _ _).2 ⟨hg, hinside.flip⟩).imp fun x t hx => hx.1 t hx.2.1 hx.2.2
  have hcomputes : ∀ x ∈ xs, ∃ z, Computes env m loc x z :=
    ((List.forall₂_and_left _ _).1 (hall.imp fun x t hx => ⟨⟨g t, hx⟩, hx⟩)).1
  obtain ⟨log, w', hdrawn, -⟩ := h.drawn
  have htraceless : ∀ x ∈ xs, Traceless env m loc x := by
    intro x hx
    obtain ⟨z, hz⟩ := hcomputes x hx
    exact hz.traceless
  have halone := hdrawn.alone he hm htraceless ⟨.refl _, rfl⟩
  cases rs with
  | none =>
    obtain ⟨x, hx, hnone⟩ := halone
    obtain ⟨z, hz⟩ := hcomputes x hx
    obtain ⟨r, hr, -⟩ := hz.gives
    exact absurd hr (hnone r)
  | some qs =>
    have hnumbers := overOne_of_computes hall halone
    rw [walk, List.range_eq_range', List.forall₂_map_right_iff] at hnumbers
    exact ⟨qs, _, rfl, h.pushed,
      Series.foldl_overOne hbounded _ (Nat.zero_add _) (s.overOne_start g) hnumbers⟩

/-- **Sums and products are exact**, in either direction. With two integers as bounds, less than
`2^53` in magnitude and apart, the operator samples the function once at each integer between them,
the bounds included, one after the other; it pushes the fold of what the samples give, or an error as
soon as one of them does not leave exactly one number. A function that rolls no dice and writes no
memory gives in each sample what it gives when it is sampled alone. If it gives an integer over one
at each of them, and no partial result comes to `2^53`, the number that is pushed is their sum or
product; and so it is when the bounds change places, with the same number, up to the sign of zero. -/
theorem series_exact (he : env.Impartial) (hm : m.Sound) (s : Series)
    (hf : m.dataLoc? f = some loc) (ha : a.Denotes A) (hb : b.Denotes B) (hA : A.natAbs < 2 ^ 53)
    (hB : B.natAbs < 2 ^ 53) (hAB : (A - B).natAbs < 2 ^ 53) (hv : m.values = b :: a :: f :: vals) :
    ∃ xs rs ys rs', Folds env m s loc vals a A B xs rs ∧
      Folds env { m with values := a :: b :: f :: vals } s loc vals b B A ys rs' ∧
      ((∀ x ∈ xs, Traceless env m loc x) → GiveAlone env m loc xs rs) ∧
      ∀ g : Int → Int, (∀ x ∈ xs, ∀ t ∈ uIcc A B, IsInteger x t → Computes env m loc x (g t)) →
        s.Bounded g A B →
          ∃ qs r, rs = some qs ∧ (s.after env m).values = .ofFraction r :: vals ∧
            r.OverOne (s.total g (uIcc A B)) ∧
            ((∀ y ∈ ys, ∀ t ∈ uIcc A B, IsInteger y t → Computes env m loc y (g t)) →
              s.Bounded g B A → ∃ r',
                (s.after env { m with values := a :: b :: f :: vals }).values =
                  .ofFraction r' :: vals ∧
                r'.OverOne (s.total g (uIcc A B)) ∧ (r' = r ∨ s.total g (uIcc A B) = 0)) := by
  obtain ⟨xs, rs, hfolds⟩ := exists_folds s hf ha hb hA hB hAB hv env
  obtain ⟨ys, rs', hswapped⟩ := exists_folds (m := { m with values := a :: b :: f :: vals }) s hf
    hb ha hB hA (by omega) rfl env
  refine ⟨xs, rs, ys, rs', hfolds, hswapped, fun htraceless => ?_, fun g hg hbounded => ?_⟩
  · obtain ⟨log, w', hdrawn, -⟩ := hfolds.drawn
    exact hdrawn.alone he hm htraceless ⟨.refl _, rfl⟩
  · obtain ⟨qs, r, hqs, hvalues, hr⟩ := hfolds.exact he hm hg hbounded
    refine ⟨qs, r, hqs, hvalues, hr, fun hg' hbounded' => ?_⟩
    have hsound : Sound { m with values := a :: b :: f :: vals } := by
      refine hm.of_eq rfl rfl rfl (fun c hc => ?_) fun _ hf => hf
      rw [hv]
      exact (List.Perm.swap b a (f :: vals)).mem_iff.1 hc
    -- samples do not see the values of the caller
    have hsamples : ∀ y ∈ ys, ∀ t ∈ uIcc B A, IsInteger y t →
        Computes env { m with values := a :: b :: f :: vals } loc y (g t) := by
      intro y hy t ht hinteger
      rw [Finset.uIcc_comm] at ht
      obtain ⟨⟨hrolled, hmemory⟩, hgives⟩ := hg' y hy t ht hinteger
      exact ⟨⟨hrolled, hmemory⟩, hgives⟩
    obtain ⟨-, r', -, hvalues', hr'⟩ := hswapped.exact he hsound hsamples hbounded'
    rw [Finset.uIcc_comm] at hr'
    refine ⟨r', hvalues', hr', ?_⟩
    by_cases hzero : s.total g (uIcc A B) = 0
    · exact .inr hzero
    · exact .inl (hr'.unique hr hzero)

end Operators

/-- A machine that is about to sum up a function that leaves its number as it is. -/
def summing : Machine :=
  { make 9 ⟨[0], 0⟩ ⟨⟨⟨#[Stack.make "f" []]⟩, Dice.ofSeed 0⟩, [], []⟩ with
    values := [.ofFloat 1, .ofFloat 3, .data 0 true] }

theorem sampled_summing (x : Float) :
    sampled .standard summing 0 x summing.world = ([.ofFloat x], summing.world) := by
  have hfin : (sampler .standard 4 summing 0 (Fraction.ofFloat x) summing.world).started.step
      (splicing .standard (run .standard)) .standard =
        (.finished, (sampler .standard 4 summing 0 (Fraction.ofFloat x) summing.world).started) := rfl
  have hrun := run_of_finishes ⟨0, _, rfl, .start, hfin⟩ (by rw [sampler_maxSteps]; decide)
  exact congrArg (fun p => (p.1, p.2.world)) hrun

theorem computes_summing {x : Float} {z : Int} (hx : IsInteger x z) (hz : z.natAbs ≤ 2 ^ 53) :
    Computes .standard summing 0 x z := by
  refine ⟨⟨?_, ?_⟩, .ofFloat x, ⟨.ofFloat x, ?_, rfl⟩, Fraction.overOne_ofFloat (hx.form hz)⟩
  all_goals rw [sampled_summing]

theorem sound_summing : summing.Sound := by
  refine ⟨⟨?_, ?_, fun p hp => absurd hp List.not_mem_nil⟩, ?_, ?_⟩
  · intro loc hloc
    obtain rfl := List.mem_singleton.1 hloc
    exact Nat.zero_lt_one
  · intro loc b hb
    rcases loc with _ | loc
    · cases hb
    · cases hb
  · intro b hb
    rcases List.mem_cons.1 hb with rfl | hb
    · exact knows_of_none _ rfl
    · rcases List.mem_cons.1 hb with rfl | hb
      · exact knows_of_none _ rfl
      · obtain rfl := List.mem_singleton.1 hb
        rintro _ ⟨⟩
        exact Nat.zero_lt_one
  · intro f hf
    obtain rfl := List.mem_singleton.1 hf
    exact ⟨fun b hb => absurd hb List.not_mem_nil, fun p hp => absurd hp List.not_mem_nil⟩

/-- From three down to one this gives six, and from one up to three. -/
theorem series_exact_summing :
    summing.Sound ∧ (∀ t ∈ uIcc 3 1, ∀ x, IsInteger x t → Computes .standard summing 0 x t) ∧
      ∃ r, r.OverOne 6 ∧ (Series.sum.after .standard summing).values = [.ofFraction r] ∧
        (Series.sum.after .standard
          { summing with values := [.ofFloat 3, .ofFloat 1, .data 0 true] }).values =
            [.ofFraction r] := by
  have hquiet : Environment.standard.Quiet := fun e he => absurd he List.not_mem_nil
  have he : Environment.standard.Impartial := fun σ _ => hquiet.uniform σ
  have hcomputes : ∀ t ∈ uIcc 3 1, ∀ x, IsInteger x t → Computes .standard summing 0 x t := by
    intro t ht x hx
    rw [Finset.mem_uIcc] at ht
    exact computes_summing hx (by omega)
  have hthree : (Block.ofFloat 3).Denotes 3 :=
    ⟨_, Block.float?_ofFloat 3, .inl (Decimal.ofInt_div_one (z := 3) (by decide))⟩
  have hone : (Block.ofFloat 1).Denotes 1 :=
    ⟨_, Block.float?_ofFloat 1, .inl (Decimal.ofInt_div_one (z := 1) (by decide))⟩
  obtain ⟨xs, rs, ys, rs', -, -, -, hexact⟩ := series_exact he sound_summing .sum
    (show summing.dataLoc? (.data 0 true) = some 0 from rfl) hthree hone (by decide) (by decide)
    (by decide) rfl
  obtain ⟨qs, r, -, hvalues, hr, hswap⟩ := hexact id (fun x _ t ht => hcomputes t ht x) (by decide)
  obtain ⟨r', hvalues', -, hsame⟩ := hswap (fun x _ t ht => hcomputes t ht x) (by decide)
  obtain rfl := hsame.resolve_right (by decide)
  exact ⟨sound_summing, hcomputes, r', hr, hvalues, hvalues'⟩

end Machine

end BlockMachine
