import BlockMachine.Machine.Control

/-!
# Calculus on functions

A function is a data block whose stack turns one number on the value stack into one number. Each
sample runs the stack on a new nested machine with the variables of the active frame and the limit
for samples; only the world comes back. One machine that is cleared before each sample gives the
same (`Reuses.agrees`).

* `Probe`, `Probe.sample` — a function to be sampled, and a sample;
* `integral`, `derivative`, `series`, `oneSidedLimit`, `limit` — the operators.

A sample that is no number ends an operator with an error block, or whatever block explains it.
-/

namespace BlockMachine

/-- The key and the text of a message. -/
abbrev Message := String × String

/-- The error with a message. -/
def Message.block (l : Localizer) (msg : Message) : Block :=
  .error (l.word msg.1 msg.2)

/-- The message that a function is not of one number to one number. -/
def Message.oneToOne (key purpose : String) : Message :=
  ("Errors." ++ key ++ "OneToOne",
    "The function " ++ purpose
      ++ " must take one number as input and produce one number as output.")

/-- The message that bounds are not whole. -/
def Message.bounds (key noun : String) : Message :=
  ("Errors." ++ key ++ "Bounds",
    "The upper and lower bounds of the " ++ noun ++ " must be integers.")

/-- A function to be sampled. -/
structure Probe where
  run : Runner
  env : Environment
  workspace : Workspace
  function : Stack
  bindings : Keyed Binding
  budget : Nat
  message : Message

/-- A computation on the world that may end early with a block. -/
abbrev Sampling (α : Type) := World → Except Block α × World

namespace Sampling

/-- The computation that does nothing. -/
def pure {α : Type} (a : α) : Sampling α :=
  fun w => (.ok a, w)

/-- Ends early. -/
def fail {α : Type} (b : Block) : Sampling α :=
  fun w => (.error b, w)

/-- One computation after the other. -/
def bind {α β : Type} (x : Sampling α) (f : α → Sampling β) : Sampling β :=
  fun w =>
    match x w with
    | (.ok a, w) => f a w
    | (.error b, w) => (.error b, w)

/-- The first failure ends the rest. -/
instance : Monad Sampling where
  pure := Sampling.pure
  bind := Sampling.bind

end Sampling

namespace Probe

/-- The value of the function at `t`: the program has to leave exactly one number. -/
def sampleFraction (p : Probe) (t : Fraction) : Sampling Fraction := fun w =>
  let m := (Machine.make p.budget p.workspace w).push (.ofFraction t)
  let m := (m.assignEach true p.bindings).insert p.env p.function
  let (result, m) := p.run m
  match result with
  | [b] =>
    match b.fraction? with
    | some r => (.ok r, m.world)
    | none => (.error (p.message.block p.env.localizer), m.world)
  | _ => (.error (p.message.block p.env.localizer), m.world)

/-- The value of the function at a double. -/
def sample (p : Probe) (t : Float) : Sampling Float := do
  let r ← p.sampleFraction (Fraction.ofFloat t)
  return r.value

/-- The same function without the variables of the caller. -/
def detached (p : Probe) (message : Message) : Probe :=
  { p with bindings := [], message := message }

end Probe

namespace Calculus

/-! ## Integrals and derivatives -/

/-- The number of steps for an interval: 64, doubled while it is below four to the unit and below
4096. -/
def stepCount (interval : Float) : Nat :=
  ([64, 128, 256, 512, 1024, 2048].find? fun n => !(Float.ofNat n < interval * 4)).getD 4096

/-- The steps of the fourth-order rule from the `i`th on: `k` is the slope at its start. For a
function of place alone both slopes in the middle agree. -/
def integrate (p : Probe) (start h : Float) : Nat → Nat → Float → Float → Sampling Float
  | 0, _, _, total => pure total
  | left + 1, i, k, total => do
    let t := start + Float.ofNat i * h
    let middle ← p.sample (t + h / 2)
    let k₂ := h * middle
    let atEnd ← p.sample (t + h)
    let k₄ := h * atEnd
    integrate p start h left (i + 1) k₄ (total + (k + 2 * k₂ + 2 * k₂ + k₄) / 6)

/-- The integral from `a` to `b`. -/
def integral (p : Probe) (a b : Fraction) : Sampling Block := do
  let interval := (b.minus a).value
  let n := stepCount interval
  let h := interval / Float.ofNat n
  let first ← p.sample a.value
  let total ← integrate p a.value h n 0 (h * first) 0
  return .ofFloat total

/-- A power of two. -/
def twoTo (e : Int) : Float :=
  Decimal.compose false 1 e

/-- The derivative as a central difference. -/
def derivative (p : Probe) (t : Float) : Sampling Block := do
  let h := twoTo (-12)
  let f₁ ← p.sample (t - h)
  let f₂ ← p.sample (t + h)
  return .ofFloat ((f₂ - f₁) / (2 * h))

/-! ## Sums and products -/

/-- Folds the values at `a`, `a + sign`, `a + 2 · sign` and so on into a total, as long as the
distance is at most `interval`. When the fuel runs out before, the total so far is the answer. -/
def accumulate (p : Probe) (a sign interval : Float) (op : Fraction → Fraction → Fraction) :
    Nat → Float → Fraction → Sampling Block
  | 0, _, total => pure (.ofFraction total)
  | fuel + 1, i, total =>
    if i ≤ interval then do
      let y ← p.sampleFraction (Fraction.ofFloat (i * sign + a))
      accumulate p a sign interval op fuel (i + 1) (op total y)
    else pure (.ofFraction total)

/-- Folds the values at the whole numbers from `a` to `b`, both included, in either direction. With
bounds less than `2^53` apart the loop ends by itself (`series_accumulates`). From there on doubles
no longer count its rounds, and unless a sample fails it would have no end: here the fuel runs out,
and the answer is a total that the loop never gives. -/
def series (p : Probe) (a b : Float) (op : Fraction → Fraction → Fraction) (start : Float) :
    Sampling Block :=
  let interval := (a - b).abs
  accumulate p a (if b < a then -1 else 1) interval op (Decimal.wholePart interval + 2) 0
    (Fraction.ofFloat start)

/-! ## Limits -/

/-- The side from which a limit is approached. -/
inductive Side where
  | left
  | right
deriving Repr, DecidableEq

/-- The `n`th one-sided difference quotient at `a`. -/
def difference (p : Probe) (side : Side) : Nat → Float → Sampling Float
  | 0, a => p.sample a
  | n + 1, a => do
    let h := twoTo ((n : Int) - 15)
    let (x₀, x₁) := match side with
      | .right => (a, a + h)
      | .left => (a - h, a)
    let f₀ ← difference p side n x₀
    let f₁ ← difference p side n x₁
    return (f₁ - f₀) / h

/-- `r · x^n`, by squaring from the lowest binary digit of `n` up. -/
def powFrom : Nat → Float → Float → Nat → Float
  | 0, r, _, _ => r
  | fuel + 1, r, x, n =>
    let r := if n % 2 = 1 then r * x else r
    if n / 2 = 0 then r else powFrom fuel r (x * x) (n / 2)

/-- A whole power. -/
def powNat (x : Float) (n : Nat) : Float :=
  powFrom (n + 1) 1 x n

/-- `n!` as a double, for small `n`. -/
def factorialNat : Nat → Nat
  | 0 => 1
  | n + 1 => (n + 1) * factorialNat n

/-- The terms of the expansion at `a` from the `i`th on, and the value that they add up to at a
distance. A term that is not finite ends the expansion with itself. -/
def expand (p : Probe) (side : Side) (a distance : Float) :
    Nat → Nat → List Float → Float → Sampling (List Float × Float)
  | 0, _, terms, total => pure (terms.reverse, total)
  | left + 1, i, terms, total => do
    let d ← difference p side i a
    if !d.isFinite then Sampling.fail (.ofFloat d)
    else
      let scaled := d / Float.ofNat (factorialNat i)
      let term := match side with
        | .right => scaled * powNat (-1) i
        | .left => scaled
      expand p side a distance left (i + 1) (term :: terms) (total + term * powNat distance i)

/-- What an expansion tends to. Terms that grow throughout, from the second to the seventh, have no
sum: if they have one sign, the limit is infinite. -/
def verdict (terms : List Float) (total : Float) : Float :=
  let middle := (terms.drop 2).take 6
  let growing := (middle.zip (terms.drop 1)).all fun (t, before) => before.abs < t.abs
  if !growing then total
  else if middle.all (0 < ·) then 1.0 / 0.0
  else if middle.all (· < 0) then -1.0 / 0.0
  else 0.0 / 0.0

/-- The limit at `x` from one side: the value there if it is of moderate size, else what the
expansion at a place beside `x` gives. -/
def oneSidedLimit (p : Probe) (differentiate : Message) (side : Side) (x : Fraction) :
    Sampling Block := do
  let value := (← p.sampleFraction x).value
  if value.isFinite && value.abs < 1e12 then return .ofFloat value
  else
    let x := x.value
    let a := match side with
      | .right => x + twoTo (-6)
      | .left => x - twoTo (-6)
    let distance := match side with
      | .right => (x - a).abs
      | .left => x - a
    let (terms, total) ← expand (p.detached differentiate) side a distance 9 0 [] 0
    return .ofFloat (verdict terms total)

/-- The limit from both sides: their mean if they agree, else no number. A side that ends in an
error decides, the left one first. -/
def bothSides (l : Localizer) (message : Message) (left right : Option Block) : Block :=
  match left, right with
  | some a, right =>
    if a.isError then a
    else
      match right with
      | some b =>
        if b.isError then b
        else
          match a.float?, b.float? with
          | some x, some y =>
            if (y - x).abs < 1e-6 then .ofFloat ((y + x) / 2) else .ofFloat (0.0 / 0.0)
          | _, _ => message.block l
      | none => message.block l
  | none, some b => if b.isError then b else message.block l
  | none, none => message.block l

end Calculus

namespace Machine

open Calculus

/-- The complaint of an integral. -/
def integrateMessage : Message :=
  Message.oneToOne "integrate" "you want to integrate"

/-- The complaint of a derivative. -/
def differentiateMessage : Message :=
  Message.oneToOne "derivative" "you want to differentiate"

/-- The complaint of a sum. -/
def sumMessage : Message :=
  Message.oneToOne "summation" "you want to sum"

/-- The complaint of a product. -/
def productMessage : Message :=
  Message.oneToOne "product" "you want to multiply"

/-- The complaint of a limit. -/
def limitMessage : Message :=
  Message.oneToOne "limit" "for which you want to find the limit"

/-- The probe of the stack at a location. -/
def probe (run : Runner) (env : Environment) (loc : Loc) (message : Message) (m : Machine) : Probe
    where
  run := run
  env := env
  workspace := m.workspace
  function := m.heap.get loc
  bindings := m.active.bindings
  budget := m.nestedBudget
  message := message

/-- Samples on the machine's world. The block that ends the computation, early or not, is its
result. -/
def sampling (x : Sampling Block) (m : Machine) : Option Block × Machine :=
  let w := m.world
  let m := m.withoutWorld
  match x w with
  | (.ok b, world) => (some b, { m with world })
  | (.error b, world) => (some b, { m with world })

/-- The integral of `f` from `a` to `b`. -/
def integral (run : Runner) (env : Environment) (f a b : Block) (m : Machine) :
    Option Block × Machine :=
  match m.dataLoc? f, a.fraction?, b.fraction? with
  | some loc, some a, some b =>
    if a.fuzzyEq b then (some (.ofFloat 0), m)
    else m.sampling (Calculus.integral (m.probe run env loc integrateMessage) a b)
  | _, _, _ => (none, m)

/-- The derivative of `f` at `t`. -/
def derivative (run : Runner) (env : Environment) (f t : Block) (m : Machine) :
    Option Block × Machine :=
  match m.dataLoc? f, t.float? with
  | some loc, some t =>
    m.sampling (Calculus.derivative (m.probe run env loc differentiateMessage) t)
  | _, _ => (none, m)

/-- The sum or the product of `f` over whole numbers. -/
def series (run : Runner) (env : Environment) (bounds message : Message)
    (op : Fraction → Fraction → Fraction) (start : Float) (f a b : Block) (m : Machine) :
    Option Block × Machine :=
  match m.dataLoc? f, a.float?, b.float? with
  | some loc, some a, some b =>
    if !Decimal.isWhole a || !Decimal.isWhole b then (some (bounds.block env.localizer), m)
    else m.sampling (Calculus.series (m.probe run env loc message) a b op start)
  | _, _, _ => (none, m)

/-- The sum of `f` from `a` to `b`. -/
def sum (run : Runner) (env : Environment) : Block → Block → Block → Machine →
    Option Block × Machine :=
  series run env (Message.bounds "summation" "summation") sumMessage Fraction.plus 0

/-- The product of `f` from `a` to `b`. -/
def product (run : Runner) (env : Environment) : Block → Block → Block → Machine →
    Option Block × Machine :=
  series run env (Message.bounds "product" "product") productMessage Fraction.times 1

/-- The limit of `f` at `x` from one side. -/
def sideLimit (run : Runner) (env : Environment) (side : Side) (f x : Block) (m : Machine) :
    Option Block × Machine :=
  match m.dataLoc? f, x.fraction? with
  | some loc, some x =>
    m.sampling
      (Calculus.oneSidedLimit (m.probe run env loc limitMessage) differentiateMessage side x)
  | _, _ => (none, m)

/-- The first block that `f`, `x` and a one-sided limit operator leave on a nested machine. -/
def approach (run : Runner) (env : Environment) (name : String) (op : Operator) (f x : Block)
    (m : Machine) : Option Block × Machine :=
  let sub := (m.nested m.nestedBudget).assignEach true m.active.bindings
  let sub := sub.insert env (Stack.make name [f, x, .operator op])
  let m := m.withoutWorld
  let (result, sub) := run sub
  (result.head?, { m with world := sub.world })

/-- The limit of `f` at `x` from both sides. -/
def bothLimits (run : Runner) (env : Environment) (f x : Block) (m : Machine) :
    Option Block × Machine :=
  let f := m.resolve f
  let (left, m) := m.approach run env "negative" .negativeLimit f x
  let (right, m) := m.approach run env "positive" .positiveLimit f x
  (some (bothSides env.localizer limitMessage left right), m)

end Machine

end BlockMachine
