import BlockMachine.Proofs.Heap.Equality
import BlockMachine.Proofs.Machine.Loops

/-!
# Comparisons

The operators that compare take two blocks and push a truth value. On numbers all five can be read
off one order, except that blocks of different kinds are never equal: an integer that was rolled is
neither less than the number of the same value, nor equal to it, nor greater.

Equality takes its operands as they are, without looking up what they refer to. A reference that is
not bound yet is compared by its empty placeholder.

* `Pushes` — what an operator pushes for two operands; `values_of_calculate`,
  `pushes_of_compareBy` — it is what it calculates from them;
* `Verdicts`, `verdicts_of_compared` — the five comparisons of two numbers;
* `comparisons_agree` — how they go together; `comparisons_differ_across_kinds` — a case in which
  none of less, equal and greater holds;
* `Denotes` — a reference to the first stack of a name, bound or not;
* `equal_references_iff` — which references to one stack are equal.
-/

namespace BlockMachine

/-! ## Numbers -/

namespace Block

variable {x y : Block} {a b : Fraction}

/-- Numbers are equal if they are of one kind and their values are nearly the same. -/
theorem equals_of_fraction? (hx : x.fraction? = some a) (hy : y.fraction? = some b) (h : Heap) :
    h.equals x y = (a.fuzzyEq b && x.sameKind y) := by
  cases x with
  | number | randomInt | randomReal =>
    obtain rfl := Option.some.inj hx
    rw [Heap.equals_eq_plainEquals rfl (by simp)]
    cases y with
    | number | randomInt | randomReal =>
      obtain rfl := Option.some.inj hy
      simp [plainEquals, sameKind, kind]
    | _ => cases hy
  | _ => cases hx

end Block

/-- A stack is equal to one without blocks if it has none either. -/
theorem Heap.stackEquals_empty_iff {h : Heap} {a b : Loc} (hb : h.blocks b = []) :
    h.stackEquals a b = true ↔ h.blocks a = [] := by
  rw [stackEquals, matchStacks]
  cases hblocks : h.blocks a <;> simp [hb, matchBlocks]

namespace Machine

variable {d : Discipline} {env : Environment} {x y : Block}

/-! ## Pushing a truth value -/

/-- Evaluating an operator on two operands leaves a truth value in their place. -/
def Pushes (d : Discipline) (env : Environment) (op : Operator) (x y : Block) (v : Bool) : Prop :=
  ∀ (m : Machine) (rest : List Block), m.values = y :: x :: rest →
    (m.evaluate d env (.operator op)).values = .boolean v :: rest

/-- An operator that needs only the heap pushes what it calculates. -/
theorem values_of_calculate {op : Operator} {s t : Tag} {m : Machine} {v : Bool}
    {rest : List Block} (hsig : op.info.signature = .fixed [s, t]) (hx : x.isA s = true)
    (hy : y.isA t = true) (hv : m.values = y :: x :: rest)
    (hoperate : ∀ n : Machine, n.operate d env (.operator op) op 0 [x, y] =
      (op.calculate env.localizer n.heap [x, y], n))
    (hcalc : op.calculate env.localizer m.heap [x, y] = some (.boolean v)) :
    (m.evaluate d env (.operator op)).values = .boolean v :: rest := by
  have hfit : fits [s, t] [x, y] = true := fits_iff.2 (.cons hx (.cons hy .nil))
  obtain ⟨n, hn, heval⟩ := evaluate_fixed hsig hfit hv d env
  rw [hoperate, hn.heap, hcalc] at heval
  rw [heval, (moved_push _ _).values, hn.values]

/-- The comparisons other than equality compare the numbers in two blocks. -/
theorem pushes_of_compareBy {op : Operator} {compare : Fraction → Fraction → Bool}
    {a b : Fraction} (hsig : op.info.signature = .fixed [.number, .number])
    (hoperate : ∀ n : Machine, n.operate d env (.operator op) op 0 [x, y] =
      (op.calculate env.localizer n.heap [x, y], n))
    (hcalc : ∀ h, op.calculate env.localizer h [x, y] = Block.compareBy compare x y)
    (hx : x.fraction? = some a) (hy : y.fraction? = some b) :
    Pushes d env op x y (compare a b) := by
  have hnumber : ∀ {z : Block} {r : Fraction}, z.fraction? = some r → z.isA .number = true :=
    fun hz => (Block.isA_number (congrArg (Option.map Fraction.value) hz)).1
  intro m rest hv
  refine values_of_calculate hsig (hnumber hx) (hnumber hy) hv hoperate ?_
  rw [hcalc, Block.compareBy, hx, hy]
  rfl

theorem values_evaluate_equal {m : Machine} {rest : List Block} (hv : m.values = y :: x :: rest) :
    (m.evaluate d env (.operator .equal)).values = .boolean (m.heap.equals x y) :: rest :=
  values_of_calculate rfl rfl rfl hv (fun _ => rfl) rfl

/-! ## The five comparisons -/

/-- What the comparisons push: whether the first operand is less than the second one, equal to it,
greater than it. -/
structure Verdicts (d : Discipline) (env : Environment) (x y : Block) (lt eq gt : Bool) : Prop where
  less : Pushes d env .lessThan x y lt
  equal : Pushes d env .equal x y eq
  greater : Pushes d env .greaterThan x y gt
  lessOrEqual : Pushes d env .lessOrEqual x y !gt
  greaterOrEqual : Pushes d env .greaterOrEqual x y !lt

/-- **One order** decides all comparisons, together with the kinds of the operands. -/
theorem verdicts_of_compared {a b : Fraction} {o : Ordering} (hx : x.fraction? = some a)
    (hy : y.fraction? = some b) (ho : a.compared b = some o) :
    Verdicts d env x y (o == .lt) (o == .eq && x.sameKind y) (o == .gt) where
  less := by
    rw [← Fraction.less_of_compared ho]
    exact pushes_of_compareBy rfl (fun _ => rfl) (fun _ => rfl) hx hy
  equal := by
    intro m rest hv
    rw [values_evaluate_equal hv, Block.equals_of_fraction? hx hy, Fraction.fuzzyEq_of_compared ho]
  greater := by
    rw [← Fraction.greater_of_compared ho]
    exact pushes_of_compareBy rfl (fun _ => rfl) (fun _ => rfl) hx hy
  lessOrEqual := by
    rw [show (!(o == .gt)) = o.isLE by cases o <;> rfl, ← Fraction.lessOrEqual_of_compared ho]
    exact pushes_of_compareBy rfl (fun _ => rfl) (fun _ => rfl) hx hy
  greaterOrEqual := by
    rw [show (!(o == .lt)) = o.isGE by cases o <;> rfl, ← Fraction.greaterOrEqual_of_compared ho]
    exact pushes_of_compareBy rfl (fun _ => rfl) (fun _ => rfl) hx hy

/-- **The comparisons agree** on numbers that are not NaN. Exchanging the operands exchanges less
and greater and leaves equality as it is, and not both of less and greater hold. Of operands of one
kind exactly one of the three holds; less or equal, and greater or equal, are what they say.
Operands of different kinds are not equal. -/
theorem comparisons_agree (d : Discipline) (env : Environment) {a b : Fraction}
    (hx : x.fraction? = some a) (hy : y.fraction? = some b) (ha : a.value.isNaN = false)
    (hb : b.value.isNaN = false) :
    ∃ lt eq gt : Bool, Verdicts d env x y lt eq gt ∧ Verdicts d env y x gt eq lt ∧
      (lt && gt) = false ∧
      (x.kind = y.kind →
        [lt, eq, gt].count true = 1 ∧ (!gt) = (lt || eq) ∧ (!lt) = (gt || eq)) ∧
      (x.kind ≠ y.kind → eq = false) := by
  obtain ⟨o, ho⟩ := Fraction.exists_compared ha hb
  have hswap : b.compared a = some o.swap := by
    rw [← Fraction.compared_swap, ho]
    rfl
  have hforth : Verdicts d env x y (o == .lt) (o == .eq && x.sameKind y) (o == .gt) :=
    verdicts_of_compared hx hy ho
  have hback : Verdicts d env y x (o == .gt) (o == .eq && x.sameKind y) (o == .lt) := by
    have hverdicts : Verdicts d env y x _ _ _ := verdicts_of_compared hy hx hswap
    rw [show y.sameKind x = x.sameKind y from BEq.comm] at hverdicts
    cases o <;> exact hverdicts
  refine ⟨_, _, _, hforth, hback, by cases o <;> rfl, fun hkind => ?_, fun hkind => ?_⟩
  · have hsame : x.sameKind y = true := by rw [Block.sameKind, hkind, beq_self_eq_true]
    rw [hsame, Bool.and_true]
    cases o <;> decide
  · have hother : x.sameKind y = false := by rwa [Block.sameKind, beq_eq_false_iff_ne]
    rw [hother, Bool.and_false]

/-- One and a number that is slightly greater count as equal. -/
theorem comparisons_agree_near :
    ∃ lt eq gt : Bool,
      Verdicts (splicing .standard idle) .standard (.ofFloat 1) (.ofFloat 1.00000000001) lt eq gt ∧
        [lt, eq, gt].count true = 1 := by
  obtain ⟨lt, eq, gt, hverdicts, -, -, hone, -⟩ :=
    comparisons_agree (splicing .standard idle) .standard (x := .ofFloat 1)
      (y := .ofFloat 1.00000000001) rfl rfl (by decide +kernel) (by decide +kernel)
  exact ⟨lt, eq, gt, hverdicts, (hone rfl).1⟩

/-- A rolled five and the number five: neither is less, and they are not equal. -/
theorem comparisons_differ_across_kinds :
    (Fraction.ofFloat 5).value.isNaN = false ∧
      Verdicts (splicing .standard idle) .standard
        (.randomInt (Fraction.ofFloat 5) (some (5, 5))) (.ofFloat 5) false false false :=
  ⟨by decide +kernel, verdicts_of_compared (o := .eq) rfl rfl (by decide +kernel)⟩

/-! ## References -/

section References

variable {m : Machine} {name : String}

/-- A reference to the first stack of a name, and whether it is bound: to that stack, or not yet,
and still an empty placeholder that carries the name. -/
inductive Denotes (m : Machine) (name : String) : Bool → Block → Prop
  | bound {loc : Loc} (found : m.workspace.find? m.heap name = some loc) :
    Denotes m name true (.data loc true)
  | placeholder {loc : Loc} (named : m.heap.nameOf loc = name) (empty : m.heap.blocks loc = []) :
    Denotes m name false (.data loc false)

theorem Denotes.resolve {p : Bool} {loc : Loc} (hx : m.Denotes name p x)
    (hloc : m.workspace.find? m.heap name = some loc) : m.resolve x = .data loc true := by
  cases hx with
  | bound found =>
    obtain rfl := Option.some.inj (found.symm.trans hloc)
    rfl
  | placeholder named empty =>
    rw [Machine.resolve, Workspace.resolve, named, hloc]

/-- Equality of two references to one stack, as they are held. -/
theorem Denotes.equals_iff {p q : Bool} {loc : Loc} (hx : m.Denotes name p x)
    (hy : m.Denotes name q y) (hloc : m.workspace.find? m.heap name = some loc)
    (hself : m.heap.stackEquals loc loc = true) :
    m.heap.equals x y = true ↔ p = q ∨ m.heap.blocks loc = [] := by
  cases hx with
  | @bound l found =>
    obtain rfl := Option.some.inj (found.symm.trans hloc)
    cases hy with
    | @bound k found' =>
      obtain rfl := Option.some.inj (found.symm.trans found')
      exact iff_of_true hself (.inl rfl)
    | @placeholder k named empty =>
      refine (Heap.stackEquals_empty_iff empty).trans ?_
      simp
  | @placeholder l named empty =>
    cases hy with
    | @bound k found =>
      obtain rfl := Option.some.inj (found.symm.trans hloc)
      rw [Heap.equals_comm]
      refine (Heap.stackEquals_empty_iff empty).trans ?_
      simp
    | @placeholder k named' empty' =>
      exact iff_of_true ((Heap.stackEquals_empty_iff empty').2 empty) (.inl rfl)

/-- **References to one stack** from which no NaN can be reached are equal if both are bound or
neither is, and otherwise only if the stack is empty. Bound to the stack that they refer to, they
would be equal always. -/
theorem equal_references_iff (d : Discipline) (env : Environment) {rest : List Block} {p q : Bool}
    {loc : Loc} (hloc : m.workspace.find? m.heap name = some loc)
    (hnan : ∀ z, m.heap.Contains (.data loc true) z → z.isNaN = false) (hx : m.Denotes name p x)
    (hy : m.Denotes name q y) (hv : m.values = y :: x :: rest) :
    ∃ v, (m.evaluate d env (.operator .equal)).values = .boolean v :: rest ∧
      (v = true ↔ p = q ∨ m.heap.blocks loc = []) ∧
      m.heap.equals (m.resolve x) (m.resolve y) = true := by
  have hself : m.heap.equals (.data loc true) (.data loc true) = true := Heap.equals_self_iff.2 hnan
  refine ⟨_, values_evaluate_equal hv, hx.equals_iff hy hloc hself, ?_⟩
  rw [hx.resolve hloc, hy.resolve hloc]
  exact hself

/-- A stack `b` that holds a string, in a reference that is bound and in one that is not. -/
theorem equal_references_iff_mixed :
    let m := shelf [.data 0 true, .data 1 false] [Stack.make "b" [.string "x"], Stack.make "b" []]
    (m.evaluate (splicing .standard idle) .standard (.operator .equal)).values =
      [.boolean false] := by
  intro m
  have hloc : m.workspace.find? m.heap "b" = some 0 := by decide +kernel
  have hnan : ∀ z, m.heap.Contains (.data 0 true) z → z.isNaN = false :=
    Heap.equals_self_iff.1 (by decide +kernel)
  have hx : m.Denotes "b" false (.data 1 false) := .placeholder rfl rfl
  have hy : m.Denotes "b" true (.data 0 true) := .bound hloc
  obtain ⟨v, hvalues, hv, -⟩ :=
    equal_references_iff (splicing .standard idle) .standard hloc hnan hx hy rfl
  have hfalse : v = false := by
    rw [← Bool.not_eq_true, hv]
    decide +kernel
  rw [hvalues, hfalse]

end References

end Machine

end BlockMachine
