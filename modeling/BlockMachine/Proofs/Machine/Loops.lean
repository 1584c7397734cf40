import BlockMachine.Proofs.Decimal.Integers
import BlockMachine.Proofs.Machine.Rounds
import BlockMachine.Proofs.Machine.Splicing

/-!
# The loop operators mean their unrolling

`fold` runs a function behind each element of an array, `compose` runs it so many times, `iterate`
runs it behind each number of a range. In front of another block each of them does what the straight
list does: the elements or numbers, each with a call behind it.

* `foldLoop`, `composeLoop`, `iterateLoop` — the three loops; `starts_fold`, `starts_compose`,
  `starts_iterate` — their operators start them;
* `unrolled_fold`, `unrolled_compose`, `unrolled_iterate` — their unrollings; an array that is too
  long to be counted in doubles has none: `not_unrolled_fold`;
* `loops_unroll` — the straight list does what the loop does, `loops_unroll_differs` — where it does
  not: with a module that notes finished frames, and beyond the integers that doubles count.
-/

namespace BlockMachine

open Decimal (Form IsInteger form_ofInt form_ofNat)

/-- A block that holds an integer. -/
def Block.Denotes (b : Block) (z : Int) : Prop :=
  ∃ x, b.float? = some x ∧ IsInteger x z

theorem Block.float?_ofFloat (x : Float) : (Block.ofFloat x).float? = some (x / 1) := by
  have hone : Decimal.isWhole 1 = true := by decide +kernel
  rw [Block.ofFloat, Block.ofFraction, Block.float?, Block.fraction?, Option.map_some,
    Fraction.ofFloat, Fraction.make, if_pos hone, Fraction.value]

/-- Blocks that hold numbers are numbers. -/
theorem Block.isA_number {b : Block} {x : Float} (h : b.float? = some x) :
    b.isA .number = true ∧ b.isValue = true ∧ ∀ m : Machine, m.resolve b = b := by
  cases b with
  | number | randomInt | randomReal => exact ⟨rfl, rfl, fun _ => rfl⟩
  | _ => cases h

namespace Machine

/-! ## The loops -/

/-- A call of the stack at a location. -/
def callTo (h : Heap) (loc : Loc) : Block :=
  .code (h.nameOf loc) (some loc)

/-- A fold, which counts the elements. -/
def foldLoop (h : Heap) (array f : Loc) : Loop where
  driver := .foldHelper
  operands i := [.data array true, .data f true, .ofFloat i]
  turn i := (elementAt? (h.blocks array) (i / 1)).map fun e => ([e, callTo h f], i / 1 + 1)

/-- A repetition, which counts down. -/
def composeLoop (h : Heap) (f : Loc) : Loop where
  driver := .compose
  operands i := [.data f true, .ofFloat i]
  turn i := if i / 1 ≤ 0 then none else some ([callTo h f], i / 1 - 1)

/-- An iteration up to a number, which the block `last` holds. -/
def iterateLoop (h : Heap) (f : Loc) (last : Block) (y : Float) : Loop where
  driver := .iterate
  operands i := [.data f true, .ofFloat i, last]
  turn i := if y < i / 1 then none else some ([.ofFloat i, callTo h f], i / 1 + 1)

section Starts

variable {workspace : Workspace} {h : Heap} {array f : Loc} {m : Machine}

theorem Holds.blocks (hm : Holds workspace h m) {loc : Loc} (hloc : loc < h.size) :
    m.heap.blocks loc = h.blocks loc := by
  rw [Heap.blocks, Heap.blocks, hm.2.get hloc]

theorem Holds.callOf? (hm : Holds workspace h m) {loc : Loc} (hloc : loc < h.size) :
    m.callOf? (.data loc true) = some (callTo h loc) := by
  change some (Block.code (m.heap.nameOf loc) (some loc)) = _
  rw [Heap.nameOf, hm.2.get hloc]
  rfl

theorem starts_fold (harray : array < h.size) (hf : f < h.size) :
    Starts (foldLoop h array f) workspace h .fold [.data array true, .data f true]
      ((h.blocks array).head?.map fun e => ([e, callTo h f], 2)) := by
  refine ⟨⟨_, rfl, rfl⟩, rfl, "fold", ?_⟩
  intro d env m hm
  change (none, m.foldArray d.insert (.data array true) (.data f true)) = _
  congr 1
  rw [foldArray, show m.dataLoc? (.data array true) = some array from rfl, Option.bind_some,
    hm.blocks harray]
  cases (h.blocks array).head? with
  | none => rfl
  | some e =>
    simp only [Machine.round, hm.callOf? hf]
    rfl

theorem starts_foldHelper (harray : array < h.size) (hf : f < h.size) (i : Float) :
    Starts (foldLoop h array f) workspace h .foldHelper ((foldLoop h array f).operands i)
      ((foldLoop h array f).turn i) := by
  refine ⟨⟨_, rfl, rfl⟩, rfl, "fold`", ?_⟩
  intro d env m hm
  change (none, m.foldFrom d.insert (.data array true) (.data f true) (.ofFloat i)) = _
  congr 1
  simp only [foldFrom, Block.float?_ofFloat, foldLoop, Option.bind_eq_bind, Option.bind_some,
    show m.dataLoc? (.data array true) = some array from rfl, hm.blocks harray]
  cases elementAt? (h.blocks array) (i / 1) with
  | none => rfl
  | some e =>
    simp only [Machine.round, hm.callOf? hf]
    rfl

theorem starts_compose (hf : f < h.size) {b : Block} {x : Float} (hb : b.float? = some x) :
    Starts (composeLoop h f) workspace h .compose [.data f true, b]
      (if x ≤ 0 then none else some ([callTo h f], x - 1)) := by
  have hnumber := (Block.isA_number hb).1
  refine ⟨⟨_, rfl, fits_iff.2 (.cons rfl (.cons hnumber .nil))⟩, rfl, "repeat", ?_⟩
  intro d env m hm
  change (none, m.repeatTimes d.insert (.data f true) b) = _
  congr 1
  simp only [repeatTimes, hb, hm.callOf? hf]
  split
  · rfl
  · rfl

theorem starts_iterate (hf : f < h.size) {b last : Block} {x y : Float} (hb : b.float? = some x)
    (hlast : last.float? = some y) :
    Starts (iterateLoop h f last y) workspace h .iterate [.data f true, b, last]
      (if y < x then none else some ([b, callTo h f], x + 1)) := by
  have hnumber := (Block.isA_number hb).1
  have hnumber' := (Block.isA_number hlast).1
  refine ⟨⟨_, rfl, fits_iff.2 (.cons rfl (.cons hnumber (.cons hnumber' .nil)))⟩, rfl, "iter", ?_⟩
  intro d env m hm
  change (none, m.iterate d.insert (.data f true) b last) = _
  congr 1
  simp only [Machine.iterate, hb, hlast, hm.callOf? hf]
  split
  · rfl
  · rfl

theorem foldLoop_sound (harray : array < h.size) (hf : f < h.size) :
    (foldLoop h array f).Sound workspace h where
  starts i := starts_foldHelper harray hf i
  value i b hb := by
    simp only [foldLoop, List.mem_cons, List.not_mem_nil, or_false] at hb
    rcases hb with rfl | rfl | rfl <;> rfl
  resolved i b hb m := by
    simp only [foldLoop, List.mem_cons, List.not_mem_nil, or_false] at hb
    rcases hb with rfl | rfl | rfl <;> rfl

theorem composeLoop_sound (hf : f < h.size) : (composeLoop h f).Sound workspace h where
  starts i := starts_compose hf (Block.float?_ofFloat i)
  value i b hb := by
    simp only [composeLoop, List.mem_cons, List.not_mem_nil, or_false] at hb
    rcases hb with rfl | rfl <;> rfl
  resolved i b hb m := by
    simp only [composeLoop, List.mem_cons, List.not_mem_nil, or_false] at hb
    rcases hb with rfl | rfl <;> rfl

theorem iterateLoop_sound (hf : f < h.size) {last : Block} {y : Float}
    (hlast : last.float? = some y) : (iterateLoop h f last y).Sound workspace h where
  starts i := starts_iterate hf (Block.float?_ofFloat i) hlast
  value i b hb := by
    simp only [iterateLoop, List.mem_cons, List.not_mem_nil, or_false] at hb
    rcases hb with rfl | rfl | rfl
    · rfl
    · rfl
    · exact (Block.isA_number hlast).2.1
  resolved i b hb m := by
    simp only [iterateLoop, List.mem_cons, List.not_mem_nil, or_false] at hb
    rcases hb with rfl | rfl | rfl
    · rfl
    · rfl
    · exact (Block.isA_number hlast).2.2 m

end Starts

/-! ## The unrollings -/

/-- A list of blocks, with a call behind each of them. -/
def withCalls (call : Block) (bs : List Block) : List Block :=
  bs.flatMap fun b => [b, call]

theorem withCalls_cons (call b : Block) (bs : List Block) :
    withCalls call (b :: bs) = b :: call :: withCalls call bs := rfl

/-- The integers from the one that a block holds up to another one. -/
def upTo (b : Block) (i n : Int) : List Block :=
  if n < i then []
  else b :: (List.range (n - i).toNat).map fun j : Nat => .ofFloat (Float.ofInt (i + 1 + j))

theorem upTo_cons {i n : Int} (h : i ≤ n) (b : Block) :
    upTo b i n = b :: upTo (.ofFloat (Float.ofInt (i + 1))) (i + 1) n := by
  rw [upTo, if_neg (by omega), upTo]
  split
  · rw [show n - i = 0 by omega]
    rfl
  · rw [show (n - i).toNat = (n - (i + 1)).toNat + 1 by omega, List.range_succ_eq_map,
      List.map_cons, List.map_map]
    congr 2
    · simp
    · apply List.map_congr_left
      intro j _
      rw [Function.comp, show i + 1 + (j.succ : Int) = i + 1 + 1 + j by omega]

section Unrollings

variable {h : Heap} {array f : Loc}

theorem elementAt?_ofNat (es : List Block) {j : Nat} (hj : j + 1 ≤ 2 ^ 53) :
    elementAt? es (Float.ofNat (j + 1)) = es[j]? := by
  have hform := form_ofNat hj
  have hone : ¬ Float.ofNat (j + 1) < 1 := by
    rw [show (1 : Float) = Float.ofNat 1 from rfl, hform.lt_iff (form_ofNat (by decide))]
    omega
  rw [elementAt?, hform.wholePart]
  by_cases hlen : es.length < j + 1
  · have hlt : Float.ofNat es.length < Float.ofNat (j + 1) :=
      ((form_ofNat (by omega)).lt_iff hform).2 (by omega)
    rw [if_pos (by simp [hlt]), List.getElem?_eq_none (by omega)]
  · have hlt := Decimal.not_ofNat_lt (Nat.le_of_not_lt hlen) hj
    rw [if_neg (by simp [hlt, hone])]
    rfl

theorem foldLoop_turn {j : Nat} (hj : j + 1 ≤ 2 ^ 53) :
    (foldLoop h array f).turn (Float.ofNat (j + 1)) =
      (h.blocks array)[j]?.map fun e => ([e, callTo h f], Float.ofNat (j + 1) + 1) := by
  have hdiv : Float.ofNat (j + 1) / 1 = Float.ofNat (j + 1) :=
    Decimal.ofInt_div_one (z := (j + 1 : Nat)) (by omega)
  change (elementAt? (h.blocks array) (Float.ofNat (j + 1) / 1)).map _ = _
  rw [hdiv, elementAt?_ofNat _ hj]

theorem unrolled_foldFrom (hlen : (h.blocks array).length < 2 ^ 53) (c : Nat) :
    ∀ {j : Nat}, j + c = (h.blocks array).length →
      Unrolled (foldLoop h array f) ((foldLoop h array f).turn (Float.ofNat (j + 1)))
        (withCalls (callTo h f) ((h.blocks array).drop j)) := by
  induction c with
  | zero =>
    intro j hj
    rw [foldLoop_turn (by omega), List.getElem?_eq_none (by omega),
      List.drop_eq_nil_of_le (by omega)]
    exact .done
  | succ c ih =>
    intro j hj
    rw [foldLoop_turn (by omega), List.getElem?_eq_getElem (by omega),
      List.drop_eq_getElem_cons (by omega), Decimal.ofNat_add_one (by omega)]
    exact .round (ih (by omega))

/-- The start of a fold is its turn at the first element. -/
theorem foldLoop_turn_one : (foldLoop h array f).turn (Float.ofNat 1) =
    (h.blocks array).head?.map fun e => ([e, callTo h f], 2) := by
  rw [foldLoop_turn (j := 0) (by decide), ← List.head?_eq_getElem?,
    Decimal.ofNat_add_one (by decide)]
  rfl

/-- The elements, each with a call behind it. -/
theorem unrolled_fold (hlen : (h.blocks array).length < 2 ^ 53) :
    Unrolled (foldLoop h array f) ((h.blocks array).head?.map fun e => ([e, callTo h f], 2))
      (withCalls (callTo h f) (h.blocks array)) := by
  have hfrom := unrolled_foldFrom (f := f) hlen _ (Nat.zero_add _)
  rwa [foldLoop_turn_one, List.drop_zero] at hfrom

/-- Doubles cannot count further than `2^53`, so a longer fold stays at that element. -/
theorem not_unrolled_fold (hlen : 2 ^ 53 ≤ (h.blocks array).length)
    {turn : Option (List Block × Float)} {bs : List Block}
    (hbs : Unrolled (foldLoop h array f) turn bs) :
    ∀ j, j + 1 ≤ 2 ^ 53 → turn ≠ (foldLoop h array f).turn (Float.ofNat (j + 1)) := by
  have hstuck : Float.ofNat (2 ^ 53) + 1 = Float.ofNat (2 ^ 53) := by decide +kernel
  induction hbs with
  | done =>
    intro j hj
    rw [foldLoop_turn hj, List.getElem?_eq_getElem (by omega)]
    simp
  | @round body next bs _ ih =>
    intro j hj hturn
    rw [foldLoop_turn hj, List.getElem?_eq_getElem (by omega), Option.map_some, Option.some.injEq,
      Prod.mk.injEq] at hturn
    obtain ⟨-, rfl⟩ := hturn
    by_cases hlast : j + 1 = 2 ^ 53
    · apply ih j hj
      rw [hlast, hstuck]
    · apply ih (j + 1) (by omega)
      rw [Decimal.ofNat_add_one (by omega)]

/-- As many calls as the number says. -/
theorem unrolled_compose (n : Nat) :
    ∀ {x : Float}, n ≤ 2 ^ 53 → Form n x.toModel.unpack →
      Unrolled (composeLoop h f) (if x ≤ 0 then none else some ([callTo h f], x - 1))
        (List.replicate n (callTo h f)) := by
  have hzero : Form 0 (0 : Float).toModel.unpack := form_ofInt (z := 0) (by decide)
  induction n with
  | zero =>
    intro x _ hx
    rw [if_pos ((hx.le_iff hzero).2 (Int.le_refl _))]
    exact .done
  | succ n ih =>
    intro x hn hx
    have hnext : x - 1 = Float.ofInt n := by
      rw [Decimal.sub_one hx (by omega), show ((n + 1 : Nat) : Int) - 1 = n by omega]
    have hturn : (composeLoop h f).turn (Float.ofInt n) =
        if Float.ofInt n ≤ 0 then none else some ([callTo h f], Float.ofInt n - 1) := by
      dsimp only [composeLoop]
      rw [Decimal.ofInt_div_one (by omega)]
    rw [if_neg (by rw [hx.le_iff hzero]; omega), hnext]
    refine .round ?_
    rw [hturn]
    exact ih (by omega) (form_ofInt (by omega))

/-- The numbers up to the last one, each with a call behind it. -/
theorem unrolled_iterate {last : Block} {y : Float} {n : Int} (hy : Form n y.toModel.unpack)
    (hn : n < 2 ^ 53) (c : Nat) :
    ∀ {i : Int} {x : Float} {b : Block}, Form i x.toModel.unpack → -(2 ^ 53) ≤ i →
      (n + 1 - i).toNat = c →
      Unrolled (iterateLoop h f last y) (if y < x then none else some ([b, callTo h f], x + 1))
        (withCalls (callTo h f) (upTo b i n)) := by
  induction c with
  | zero =>
    intro i x b hx _ hc
    rw [if_pos ((hy.lt_iff hx).2 (by omega)), upTo, if_pos (by omega)]
    exact .done
  | succ c ih =>
    intro i x b hx hi hc
    have hbound : (i + 1).natAbs ≤ 2 ^ 53 := by omega
    have hturn : (iterateLoop h f last y).turn (Float.ofInt (i + 1)) =
        if y < Float.ofInt (i + 1) then none
        else some ([.ofFloat (Float.ofInt (i + 1)), callTo h f], Float.ofInt (i + 1) + 1) := by
      dsimp only [iterateLoop]
      rw [Decimal.ofInt_div_one hbound]
    rw [if_neg (by rw [hy.lt_iff hx]; omega), Decimal.add_one hx hbound, upTo_cons (by omega)]
    refine .round ?_
    rw [hturn]
    exact ih (form_ofInt hbound) (by omega) (by omega)

end Unrollings

/-! ## Loops and straight lists -/

/-- The same value stack, memory and heap, and the same visible variables. -/
structure SameOutcome (m n : Machine) : Prop where
  values : m.values = n.values
  memory : m.world.memory = n.world.memory
  heap : m.heap = n.heap
  visible : ∀ name, m.fetch name = n.fetch name

/-- If a list of blocks, run in front of the program of a machine, comes to its end, then the
straight list does, and with the same outcome. -/
def Unrolls (env : Environment) (run : Runner) (m : Machine) (loop straight : List Block) : Prop :=
  ∀ x, Reaches (splicing env run) env m.outer.length m.active.program.length (m.running loop) x →
    ∃ y, Reaches (splicing env run) env m.outer.length m.active.program.length
      (m.running straight) y ∧ SameOutcome x y

theorem isValue_of_resolve {m : Machine} {b : Block} {loc : Loc}
    (h : m.resolve b = .data loc true) : b.isValue = true := by
  cases b with
  | operator | assign | fetch | getSymbol | setSymbol | extension => cases h
  | code name target => cases target <;> cases h
  | _ => rfl

/-- The operator of a loop, if the loop can only be unrolled to a given list. -/
theorem Starts.unrolls_to {L : Loop} {op : Operator} {turn : Option (List Block × Float)}
    {operands straight : List Block} {env : Environment} {m : Machine} (entry : List Block)
    (hL : L.Sound m.workspace m.heap) (hS : Starts L m.workspace m.heap op operands turn)
    (hoperands : entry.map m.resolve = operands) (hentry : ∀ b ∈ entry, b.isValue = true)
    (hquiet : env.Quiet) (hm : Chained m) (hrest : m.active.program ≠ [])
    (hstraight : ∀ bs, Unrolled L turn bs → bs = straight) (run : Runner) :
    Unrolls env run m (entry ++ [.operator op]) straight := by
  intro x hx
  rw [← hoperands] at hS
  obtain ⟨bs, y, hbs, hy, hsame, hframes⟩ :=
    hS.unrolls hL hentry hquiet hm ⟨rfl, Heap.Grows.refl _⟩ hrest hx
  rw [hstraight bs hbs] at hy
  refine ⟨y, hy, hsame.values, hsame.memory, alike_congruent.heap hsame, ?_⟩
  intro name
  rw [fetch, fetch, hframes]

/-- **The loop operators mean their unrolling**, in front of another block and where no module
interferes when a frame has finished. If they come to their end without sampling a function or
calling a marked one, the straight list does, with the same outcome: `fold` the elements with a call
behind each of them, `compose` so many calls, `iterate` the numbers with a call behind each of them.
-/
theorem loops_unroll (env : Environment) (hquiet : env.Quiet) (run : Runner) (m : Machine)
    (hm : Chained m) (hrest : m.active.program ≠ []) (f : Block) (loc : Loc)
    (hf : m.resolve f = .data loc true) (hloc : loc < m.heap.size) :
    (∀ a array, m.resolve a = .data array true → array < m.heap.size →
      Unrolls env run m [a, f, .operator .fold]
        (withCalls (callTo m.heap loc) (m.heap.blocks array))) ∧
    (∀ (b : Block) (n : Nat), b.Denotes n → n ≤ 2 ^ 53 →
      Unrolls env run m [f, b, .operator .compose] (List.replicate n (callTo m.heap loc))) ∧
    (∀ (b last : Block) (i n : Int), b.Denotes i → last.Denotes n → i.natAbs < 2 ^ 53 →
      n.natAbs < 2 ^ 53 →
      Unrolls env run m [f, b, last, .operator .iterate]
        (withCalls (callTo m.heap loc) (upTo b i n))) := by
  have hvalue := isValue_of_resolve hf
  refine ⟨?_, ?_, ?_⟩
  · intro a array ha harray
    refine (starts_fold harray hloc).unrolls_to [a, f] (foldLoop_sound harray hloc)
      (by rw [← ha, ← hf]; rfl) (by simp [isValue_of_resolve ha, hvalue]) hquiet hm hrest ?_ run
    intro bs hbs
    rcases Nat.lt_or_ge (m.heap.blocks array).length (2 ^ 53) with hlen | hlen
    · exact hbs.unique (unrolled_fold hlen)
    · exact absurd foldLoop_turn_one.symm (not_unrolled_fold hlen hbs 0 (by decide))
  · rintro b n ⟨x, hb, hx⟩ hn
    obtain ⟨-, hvalue', hresolve⟩ := Block.isA_number hb
    refine (starts_compose hloc hb).unrolls_to [f, b] (composeLoop_sound hloc)
      (by rw [← hf, List.map_cons, List.map_cons, hresolve]; rfl) (by simp [hvalue, hvalue']) hquiet
      hm hrest ?_ run
    intro bs hbs
    exact hbs.unique (unrolled_compose n hn (hx.form (by omega)))
  · rintro b last i n ⟨x, hb, hx⟩ ⟨y, hlast, hy⟩ hi hn
    obtain ⟨-, hvalue', hresolve⟩ := Block.isA_number hb
    obtain ⟨-, hvalue'', hresolve'⟩ := Block.isA_number hlast
    refine (starts_iterate hloc hb hlast).unrolls_to [f, b, last]
      (iterateLoop_sound hloc hlast)
      (by rw [← hf, List.map_cons, List.map_cons, List.map_cons, hresolve, hresolve']; rfl)
      (by simp [hvalue, hvalue', hvalue'']) hquiet hm hrest ?_ run
    intro bs hbs
    exact hbs.unique (unrolled_iterate (hy.form (by omega)) (by omega) _ (hx.form (by omega))
      (by omega) rfl)

/-- A machine with some values and stacks, and a block left to run. -/
def shelf (values : List Block) (shelved : List Stack) : Machine :=
  { (make defaultMaxSteps ⟨[0], 0⟩ ⟨⟨⟨shelved.toArray⟩, Dice.ofSeed 0⟩, [], []⟩).withProgram
      [.block (.string "end")] with
    values := values }

theorem chained_shelf (values : List Block) (shelved : List Stack) :
    Chained (shelf values shelved) :=
  ⟨child_not_mem_blocks [.string "end"], fun _ hf => absurd hf List.not_mem_nil⟩

theorem standard_quiet : Environment.standard.Quiet :=
  fun _ he => absurd he List.not_mem_nil

theorem exists_reaches {α : Type} {d : Discipline} {env : Environment} {k r : Nat} {m : Machine}
    {f : Machine → α} {v : α} (left : Nat) (h : (m.reach? d env k r left).map f = some v) :
    ∃ x, Reaches d env k r m x ∧ f x = v := by
  obtain ⟨x, hx, hv⟩ := Option.map_eq_some_iff.1 h
  exact ⟨x, reaches_of_reach? left hx, hv⟩

/-- The three loops, with a function that binds a name and recalls it twice. -/
theorem loops_unroll_recalls :
    let f := Stack.make "f" [.assign "x", .fetch "x", .fetch "x"]
    let m := shelf [.boolean true] [Stack.make "a" [.boolean false, .string "b"], f]
    let call := Block.code "f" (some 1)
    (∃ x y, Reaches (splicing .standard idle) .standard 0 1
        (m.running [.data 0 true, .data 1 true, .operator .fold]) x ∧
      Reaches (splicing .standard idle) .standard 0 1
        (m.running [.boolean false, call, .string "b", call]) y ∧
      SameOutcome x y ∧ x.fetch "x" = some (.string "b")) ∧
    (∃ x y, Reaches (splicing .standard idle) .standard 0 1
        (m.running [.data 1 true, .ofFloat 2, .operator .compose]) x ∧
      Reaches (splicing .standard idle) .standard 0 1 (m.running [call, call]) y ∧
      SameOutcome x y ∧ x.values = [.boolean true, .boolean true, .boolean true]) ∧
    (∃ x y, Reaches (splicing .standard idle) .standard 0 1
        (m.running [.data 1 true, .ofFloat 2, .ofFloat 3, .operator .iterate]) x ∧
      Reaches (splicing .standard idle) .standard 0 1
        (m.running [.ofFloat 2, call, .ofFloat 3, call]) y ∧
      SameOutcome x y ∧ x.fetch "x" = some (.ofFloat 3)) := by
  intro f m call
  have htwo : (Block.ofFloat 2).Denotes 2 := ⟨_, rfl, .inl (by decide +kernel)⟩
  have hthree : (Block.ofFloat 3).Denotes 3 := ⟨_, rfl, .inl (by decide +kernel)⟩
  obtain ⟨hfold, hcompose, hiterate⟩ := loops_unroll .standard standard_quiet idle m
    (chained_shelf _ _) (List.cons_ne_nil _ _) (.data 1 true) 1 rfl (by decide)
  refine ⟨?_, ?_, ?_⟩
  · obtain ⟨x, hx, hv⟩ := exists_reaches 40 (show ((m.running [.data 0 true, .data 1 true,
      .operator .fold]).reach? (splicing .standard idle) .standard 0 1 40).map (·.fetch "x") =
        some (some (.string "b")) by decide +kernel)
    obtain ⟨y, hy, hxy⟩ := hfold (.data 0 true) 0 rfl (by decide) x hx
    exact ⟨x, y, hx, hy, hxy, hv⟩
  · obtain ⟨x, hx, hv⟩ := exists_reaches 40 (show ((m.running [.data 1 true, .ofFloat 2,
      .operator .compose]).reach? (splicing .standard idle) .standard 0 1 40).map (·.values) =
        some [.boolean true, .boolean true, .boolean true] by decide +kernel)
    obtain ⟨y, hy, hxy⟩ := hcompose (.ofFloat 2) 2 htwo (by decide) x hx
    exact ⟨x, y, hx, hy, hxy, hv⟩
  · obtain ⟨x, hx, hv⟩ := exists_reaches 40 (show ((m.running [.data 1 true, .ofFloat 2, .ofFloat 3,
      .operator .iterate]).reach? (splicing .standard idle) .standard 0 1 40).map (·.fetch "x") =
        some (some (.ofFloat 3)) by decide +kernel)
    obtain ⟨y, hy, hxy⟩ :=
      hiterate (.ofFloat 2) (.ofFloat 3) 2 3 htwo hthree (by decide) (by decide)
      x hx
    exact ⟨x, y, hx, hy, hxy, hv⟩

/-! ## Where they differ

A module that notes every finished frame sees the helpers of a fold. And beyond `2^53`, doubles
leave out numbers, so a repetition that counts down from there leaves out calls. -/

section Constants

variable {env : Environment} {h : Heap} {loc : Loc} {name text : String} {k r : Nat}
  {rest : List Pending} {m : Machine}

/-- A call of a function that pushes a string. -/
theorem leads_constant (hquiet : env.Quiet) (run : Runner)
    (hstack : m.heap.get loc = Stack.make name [.string text])
    (hm : Chained m) (hp : m.active.program = .block (callTo h loc) :: rest) (hrest : rest ≠ [])
    (hpast : m.isPast k r = false) :
    ∃ c n, Leads (splicing env run) env k r c m n ∧ Moved m (.string text :: m.values) rest n := by
  obtain ⟨n, hn, hsame, hactive, houter⟩ := leads_call env run (by rw [hstack]; rfl)
    (by rw [hstack]; exact List.cons_ne_nil _ _) (by rw [hstack]; rfl) hm hp hrest hpast
  rw [hstack] at hactive
  have hpushed : Moved n (.string text :: n.values) []
      ((n.withProgram []).evaluate (splicing env run) env (.string text)) :=
    (moved_withProgram [] n).trans (moved_push _ _)
  obtain ⟨x, hx, hsame', hactive', houter'⟩ := leads_close env run (k := k) (r := r) hquiet
    (hm.leads hn) (by rw [hactive]; rfl) rfl
    (by rw [not_isPast_iff] at hpast ⊢; rw [houter, List.length_cons]; omega)
    (hpushed.outer.trans houter) (by rw [houter]) (by rw [hpushed.active]; rfl)
  refine ⟨_, x, hn.trans hx, ?_, hactive', houter'⟩
  rw [hsame.values]
  exact (hsame.withValues _).trans (hpushed.same.trans hsame')

/-- So many calls of it. -/
theorem leads_constants (hquiet : env.Quiet) (run : Runner) (hrest : rest ≠ []) (n : Nat) :
    ∀ {m : Machine}, m.heap.get loc = Stack.make name [.string text] → Chained m →
      m.active.program = (List.replicate n (callTo h loc)).map .block ++ rest →
      m.outer.length = k → r ≤ rest.length →
      ∃ c x, Leads (splicing env run) env k r c m x ∧ x.values.length = n + m.values.length ∧
        x.active.program = rest ∧ x.outer = m.outer := by
  induction n with
  | zero =>
    intro m _ _ hp _ _
    exact ⟨0, m, rfl, (Nat.zero_add _).symm, hp, rfl⟩
  | succ n ih =>
    intro m hstack hm hp hk hr
    obtain ⟨c, x, hx, hmoved⟩ := leads_constant (k := k) (r := r) hquiet run hstack hm hp
      (by simp [hrest]) (by
        rw [not_isPast_iff, hp]
        simp only [List.length_map, List.length_append, List.length_replicate]
        omega)
    obtain ⟨c', y, hy, hvalues, hprogram, houter⟩ := ih (hmoved.heap ▸ hstack) (hm.leads hx)
      (by rw [hmoved.active]; rfl) (by rw [hmoved.outer, hk]) hr
    refine ⟨_, y, hx.trans hy, ?_, hprogram, houter.trans hmoved.outer⟩
    rw [hvalues, hmoved.values, List.length_cons]
    omega

theorem reaches_replicate (hquiet : env.Quiet) (run : Runner) (hm : Chained m)
    (hrest : m.active.program ≠ []) (hstack : m.heap.get loc = Stack.make name [.string text])
    (n : Nat) :
    ∃ x, Reaches (splicing env run) env m.outer.length m.active.program.length
        (m.running (List.replicate n (callTo m.heap loc))) x ∧
      x.values.length = n + m.values.length := by
  obtain ⟨c, x, hx, hvalues, hprogram, houter⟩ := leads_constants hquiet run hrest n
    (m := m.running (List.replicate n (callTo m.heap loc))) hstack (hm.running _) rfl rfl
    (Nat.le_refl _)
  refine ⟨x, ⟨c, hx, ?_⟩, hvalues⟩
  rw [isPast_iff, hprogram, houter]
  exact .inr ⟨rfl, Nat.le_refl _⟩

/-- What a repetition of it keeps: the values and the calls that are left make up a total. -/
theorem keeps_constant (hquiet : env.Quiet) (run : Runner) {workspace : Workspace}
    (hloc : loc < h.size) (hstack : h.get loc = Stack.make name [.string text]) (total : Nat)
    {outer : List Frame} (hk : k < outer.length) :
    (composeLoop h loc).Keeps workspace h env run k r fun bs m =>
      m.values.length + bs.length = total ∧ m.outer = outer where
  stable hm hsame _ houter := by
    rw [houter, ← hsame.values]
    exact hm
  before hm := .inl (hm.2 ▸ hk)
  body {i next body bs m} hturn hm hchain hholds hp := by
    obtain ⟨htotal, rfl⟩ := hm
    dsimp only [composeLoop] at hturn
    split at hturn
    · cases hturn
    · obtain ⟨rfl, -⟩ := Prod.mk.inj (Option.some.inj hturn)
      obtain ⟨c, n, hn, hmoved⟩ := leads_constant (k := k) (r := r) hquiet run
        ((hholds.2.get hloc).trans hstack) hchain hp (Loop.after_ne_nil _ next)
        (not_isPast_iff.2 (.inl hk))
      refine ⟨c, n, hn, ⟨?_, hmoved.outer⟩, congrArg Frame.program hmoved.active⟩
      rw [hmoved.values]
      simp only [List.length_cons, List.length_append, List.length_nil] at htotal ⊢
      omega

/-- A repetition of it, with as many values as calls. -/
theorem reaches_constants (hquiet : env.Quiet) (run : Runner) (hm : Chained m)
    (hrest : m.active.program ≠ []) (hloc : loc < m.heap.size)
    (hstack : m.heap.get loc = Stack.make name [.string text]) {i next : Float} {n : Nat}
    (hturn : (composeLoop m.heap loc).turn i = some ([callTo m.heap loc], next))
    (hbs : Unrolled (composeLoop m.heap loc) ((composeLoop m.heap loc).turn next)
      (List.replicate n (callTo m.heap loc))) :
    ∃ x, Reaches (splicing env run) env m.outer.length m.active.program.length
        (m.running [.data loc true, .ofFloat i, .operator .compose]) x ∧
      x.values.length = n + 1 + m.values.length := by
  have hL : (composeLoop m.heap loc).Sound m.workspace m.heap := composeLoop_sound hloc
  have hP : (composeLoop m.heap loc).Keeps m.workspace m.heap env run m.outer.length
      m.active.program.length _ := keeps_constant hquiet run hloc hstack (n + 1 + m.values.length)
        (show m.outer.length < (waiting m.active :: m.outer).length from Nat.lt_succ_self _)
  have hchain := hm.running [.data loc true, .ofFloat i, .operator .compose]
  have hholds : Holds m.workspace m.heap (m.running [.data loc true, .ofFloat i,
    .operator .compose]) := ⟨rfl, .refl _⟩
  obtain ⟨z, hz, hmoved⟩ := leads_values env run (k := m.outer.length)
    (r := m.active.program.length) [.data loc true, .ofFloat i] (hL.value i)
    (List.cons_ne_nil (.block (.operator .compose)) m.active.program) hchain rfl
    (.inr ⟨rfl, Nat.le_succ _⟩)
  have hvalues : z.values = ((composeLoop m.heap loc).operands i).reverse ++ m.values :=
    hmoved.values
  have hprogram : z.active.program = .block (.operator .compose) :: m.active.program :=
    congrArg Frame.program hmoved.active
  have houter : z.outer = m.outer := hmoved.outer
  -- the first round runs in a child
  have hfirst := hL.starts i
  rw [hturn] at hfirst
  obtain ⟨u, hu, hsame, hround, -, huo⟩ := hfirst.leads_first (k := m.outer.length)
    (r := m.active.program.length) (hchain.leads hz) (hholds.leads hz) hprogram hrest hvalues
    (by rw [not_isPast_iff, houter, hprogram, List.length_cons]; omega) env run
  have hchain₁ := (hchain.leads hz).leads hu
  have hholds₁ := (hholds.leads hz).leads hu
  have hPu :
      u.values.length + ([callTo m.heap loc] ++ List.replicate n (callTo m.heap loc)).length =
      n + 1 + m.values.length ∧ u.outer = waiting m.active :: m.outer := by
    refine ⟨?_, ?_⟩
    · rw [show u.values = m.values from hsame.values.symm, List.length_append,
        List.length_singleton, List.length_replicate]
      omega
    · rw [huo, hmoved.active, houter]
      rfl
  obtain ⟨c, y, hy, hPy, hafter⟩ := hP.body hturn hPu hchain₁ hholds₁ hround
  -- and the others take its place
  obtain ⟨w, hw, hmoved'⟩ := hL.leads_operands (hchain₁.leads hy) hafter (hP.before hPy) env run
  have hdue : Due (composeLoop m.heap loc) m.workspace m.heap ((composeLoop m.heap loc).turn next) w
      .compose ((composeLoop m.heap loc).operands next) y.values :=
    ⟨hL.starts next, (hchain₁.leads hy).leads hw, (hholds₁.leads hy).leads hw,
      congrArg Frame.program hmoved'.active, hmoved'.values⟩
  have hPw := hP.stable hPy (hmoved'.restore (Alike.refl _))
    (by change w.active.bindings = _; rw [hmoved'.active]) hmoved'.outer
  obtain ⟨c', v, op, operands, vals, hv, hlast, htotal, hvo⟩ := hP.leads hL hbs hdue hPw
  obtain ⟨x, hx, hsame', hactive', houter'⟩ := hlast.starts.leads_last (k := m.outer.length)
    (r := m.active.program.length) hquiet hlast.chained hlast.holds hlast.program hlast.values hvo
    (not_isPast_iff.2 (.inl (by rw [show v.outer = _ from hvo]; exact Nat.lt_succ_self _))) run
  refine ⟨x, ⟨_, ((((hz.trans hu).trans hy).trans hw).trans hv).trans hx, ?_⟩, ?_⟩
  · rw [isPast_iff, hactive', houter']
    exact .inr ⟨rfl, Nat.le_refl _⟩
  · rw [← hsame'.values]
    exact htotal

end Constants

/-- Beyond `2^53` there is no double for the number before. -/
theorem composeLoop_turn_past (h : Heap) (f : Loc) :
    (composeLoop h f).turn (Float.ofNat (2 ^ 53 + 2)) =
      some ([callTo h f], Float.ofNat (2 ^ 53)) := by
  have hpos : ¬ Float.ofNat (2 ^ 53 + 2) / 1 ≤ 0 := by decide +kernel
  have hnext : Float.ofNat (2 ^ 53 + 2) / 1 - 1 = Float.ofNat (2 ^ 53) := by decide +kernel
  dsimp only [composeLoop]
  rw [if_neg hpos, hnext]

theorem unrolled_compose_last (h : Heap) (f : Loc) :
    Unrolled (composeLoop h f) ((composeLoop h f).turn (Float.ofNat (2 ^ 53)))
      (List.replicate (2 ^ 53) (callTo h f)) := by
  have hturn : (composeLoop h f).turn (Float.ofNat (2 ^ 53)) =
      if Float.ofNat (2 ^ 53) ≤ 0 then none
      else some ([callTo h f], Float.ofNat (2 ^ 53) - 1) := by
    have hdiv : Float.ofNat (2 ^ 53) / 1 = Float.ofNat (2 ^ 53) := by decide +kernel
    dsimp only [composeLoop]
    rw [hdiv]
  rw [hturn]
  exact unrolled_compose _ (Nat.le_refl _) (form_ofNat (Nat.le_refl _))

/-- With a module that notes every finished frame, a fold differs from the straight list, and so
does a repetition of `2^53 + 2` times. -/
theorem loops_unroll_differs :
    let hooked : Environment := ⟨Localizer.plain, ⟨[Module.hooks], []⟩⟩
    let m := shelf [] [Stack.make "a" [.boolean true], Stack.make "f" []]
    let m' := shelf [] [Stack.make "f" [.string "a"]]
    let b := Block.ofFloat (Float.ofNat (2 ^ 53 + 2))
    (∃ x y, Reaches (splicing hooked idle) hooked 0 1
        (m.running [.data 0 true, .data 1 true, .operator .fold]) x ∧
      Reaches (splicing hooked idle) hooked 0 1
        (m.running (withCalls (callTo m.heap 1) (m.heap.blocks 0))) y ∧
      x.values ≠ y.values) ∧
    b.Denotes (2 ^ 53 + 2) ∧
    ∃ x y, Reaches (splicing .standard idle) .standard 0 1
        (m'.running [.data 0 true, b, .operator .compose]) x ∧
      Reaches (splicing .standard idle) .standard 0 1
        (m'.running (List.replicate (2 ^ 53 + 2) (callTo m'.heap 0))) y ∧
      x.values ≠ y.values := by
  intro hooked m m' b
  refine ⟨?_, ⟨_, Block.float?_ofFloat _, .inl (by decide +kernel)⟩, ?_⟩
  · obtain ⟨x, hx, hv⟩ := exists_reaches 20 (show ((m.running [.data 0 true, .data 1 true,
      .operator .fold]).reach? (splicing hooked idle) hooked 0 1 20).map (·.values) =
        some [.string "fold#1", .boolean true] by decide +kernel)
    obtain ⟨y, hy, hv'⟩ := exists_reaches 20 (show ((m.running (withCalls (callTo m.heap 1)
      (m.heap.blocks 0))).reach? (splicing hooked idle) hooked 0 1 20).map (·.values) =
        some [.boolean true] by decide +kernel)
    refine ⟨x, y, hx, hy, ?_⟩
    rw [hv, hv']
    decide
  · have hm : Chained m' := chained_shelf [] _
    have hstack : m'.heap.get 0 = Stack.make "f" [.string "a"] := rfl
    obtain ⟨x, hx, hv⟩ := reaches_constants standard_quiet idle hm (List.cons_ne_nil _ _)
      (by decide) hstack (composeLoop_turn_past m'.heap 0) (unrolled_compose_last m'.heap 0)
    obtain ⟨y, hy, hv'⟩ := reaches_replicate standard_quiet idle hm (List.cons_ne_nil _ _) hstack
      (2 ^ 53 + 2)
    refine ⟨x, y, hx, hy, ?_⟩
    intro hxy
    rw [hxy, hv'] at hv
    exact absurd hv (by omega)

end Machine

end BlockMachine
