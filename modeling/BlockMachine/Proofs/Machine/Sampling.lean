import BlockMachine.Proofs.Machine.Invariance

/-!
# Sampling on two machines

An operator that samples a function does nothing else to a machine than to hand its world to nested
machines and to take it back. So what two such operators answer is settled by what the nested
machines answer, and a relation between worlds that these keep is kept by the operators.

* `Sampling.Congruence S T` — a relation `S` between computations that is kept by doing one after
  the other, and `T` between those that end with a number; so the operators of calculus keep it if
  the samples do that they are made of;
* `Settles` — what relates two machines, whose stacks may stand in different places, if computations
  done on them are related; `operate_of_probes` — then the operators of calculus are;
* `trial` — a nested machine of a calculus operator, as a function of the world that it takes over;
* `Sampling.Alike W` — two computations that give one answer on related worlds and leave related
  worlds;
* `Tries W` — two ways to run trials that do;
* `operate_alike` — then every calculus operator does; `operate_alike_of_probes` — it is enough to
  look at the probes that it asks for.
-/

namespace BlockMachine

namespace Sampling

variable {α β : Type} {W : World → World → Prop}

/-- Two computations on worlds that give one answer on related worlds and leave related worlds. -/
def Alike (W : World → World → Prop) (x y : World → α × World) : Prop :=
  ∀ w w', W w w' → (x w).1 = (y w').1 ∧ W (x w).2 (y w').2

/-- A relation between computations that is kept by doing one after the other, and a relation
between computations of a block that do so and end with a number. -/
structure Congruence (S : (α : Type) → Sampling α → Sampling α → Prop)
    (T : Sampling Block → Sampling Block → Prop) : Prop where
  pure : ∀ {α : Type} (a : α), S α (pure a) (pure a)
  fail : ∀ {α : Type} (x : Float), S α (Sampling.fail (.ofFloat x)) (Sampling.fail (.ofFloat x))
  bind : ∀ {α β : Type} {x y : Sampling α} {f g : α → Sampling β}, S α x y →
    (∀ a, S β (f a) (g a)) → S β (x >>= f) (y >>= g)
  answer : ∀ r : Fraction, T (Sampling.pure (.ofFraction r)) (Sampling.pure (.ofFraction r))
  conclude : ∀ {α : Type} {x y : Sampling α} {f g : α → Sampling Block}, S α x y →
    (∀ a, T (f a) (g a)) → T (x >>= f) (y >>= g)

/-- One computation after the other: the second gets one answer of the first. -/
theorem Alike.bind {x y : Sampling α} {f g : α → Sampling β} (h : Alike W x y)
    (hf : ∀ a, Alike W (f a) (g a)) : Alike W (x >>= f) (y >>= g) := by
  intro w w' hw
  obtain ⟨h₁, h₂⟩ := h w w' hw
  change (Sampling.bind x f w).1 = (Sampling.bind y g w').1 ∧
    W (Sampling.bind x f w).2 (Sampling.bind y g w').2
  simp only [Sampling.bind]
  rcases hx : x w with ⟨a | a, u⟩
  all_goals
    rcases hy : y w' with ⟨b | b, v⟩
    all_goals rw [hx, hy] at h₁ h₂
  · exact ⟨congrArg Except.error (Except.error.inj h₁), h₂⟩
  · cases h₁
  · cases h₁
  · obtain rfl := Except.ok.inj h₁
    exact hf a u v h₂

theorem alike_congruence (W : World → World → Prop) :
    Congruence (fun _ => Alike W) (Alike W) where
  pure _ _ _ h := ⟨rfl, h⟩
  fail _ _ _ h := ⟨rfl, h⟩
  bind h hf := h.bind hf
  answer _ _ _ h := ⟨rfl, h⟩
  conclude h hf := h.bind hf

/-! ## The operators of calculus -/

namespace Congruence

open Calculus

variable {S : (α : Type) → Sampling α → Sampling α → Prop}
  {T : Sampling Block → Sampling Block → Prop} {p p' : Probe}

theorem sample (hS : Congruence S T)
    (h : ∀ t, S Fraction (p.sampleFraction t) (p'.sampleFraction t)) (t : Float) :
    S Float (p.sample t) (p'.sample t) :=
  hS.bind (h _) fun _ => hS.pure _

theorem integrate (hS : Congruence S T)
    (h : ∀ t, S Fraction (p.sampleFraction t) (p'.sampleFraction t)) (start step : Float)
    (left : Nat) : ∀ (i : Nat) (k total : Float),
      S Float (Calculus.integrate p start step left i k total)
        (Calculus.integrate p' start step left i k total) := by
  induction left with
  | zero =>
    intro i k total
    exact hS.pure total
  | succ left ih =>
    intro i k total
    apply hS.bind (hS.sample h _)
    intro middle
    apply hS.bind (hS.sample h _)
    intro atEnd
    exact ih _ _ _

theorem integral (hS : Congruence S T)
    (h : ∀ t, S Fraction (p.sampleFraction t) (p'.sampleFraction t)) (a b : Fraction) :
    T (Calculus.integral p a b) (Calculus.integral p' a b) := by
  apply hS.conclude (hS.sample h _)
  intro first
  apply hS.conclude (hS.integrate h _ _ _ _ _ _)
  intro total
  exact hS.answer _

theorem derivative (hS : Congruence S T)
    (h : ∀ t, S Fraction (p.sampleFraction t) (p'.sampleFraction t)) (t : Float) :
    T (Calculus.derivative p t) (Calculus.derivative p' t) := by
  apply hS.conclude (hS.sample h _)
  intro f₁
  apply hS.conclude (hS.sample h _)
  intro f₂
  exact hS.answer _

theorem accumulate (hS : Congruence S T)
    (h : ∀ t, S Fraction (p.sampleFraction t) (p'.sampleFraction t)) (a sign interval : Float)
    (op : Fraction → Fraction → Fraction) (fuel : Nat) : ∀ (i : Float) (total : Fraction),
      T (Calculus.accumulate p a sign interval op fuel i total)
        (Calculus.accumulate p' a sign interval op fuel i total) := by
  induction fuel with
  | zero =>
    intro i total
    exact hS.answer _
  | succ fuel ih =>
    intro i total
    simp only [Calculus.accumulate]
    split
    · apply hS.conclude (h _)
      intro y
      exact ih _ _
    · exact hS.answer _

theorem series (hS : Congruence S T)
    (h : ∀ t, S Fraction (p.sampleFraction t) (p'.sampleFraction t)) (a b : Float)
    (op : Fraction → Fraction → Fraction) (start : Float) :
    T (Calculus.series p a b op start) (Calculus.series p' a b op start) :=
  hS.accumulate h _ _ _ op _ _ _

theorem difference (hS : Congruence S T)
    (h : ∀ t, S Fraction (p.sampleFraction t) (p'.sampleFraction t)) (side : Side) (n : Nat) :
    ∀ a : Float, S Float (Calculus.difference p side n a) (Calculus.difference p' side n a) := by
  induction n with
  | zero =>
    intro a
    exact hS.sample h a
  | succ n ih =>
    intro a
    apply hS.bind (ih _)
    intro f₀
    apply hS.bind (ih _)
    intro f₁
    exact hS.pure _

theorem expand (hS : Congruence S T)
    (h : ∀ t, S Fraction (p.sampleFraction t) (p'.sampleFraction t)) (side : Side)
    (a distance : Float) (left : Nat) : ∀ (i : Nat) (terms : List Float) (total : Float),
      S (List Float × Float) (Calculus.expand p side a distance left i terms total)
        (Calculus.expand p' side a distance left i terms total) := by
  induction left with
  | zero =>
    intro i terms total
    exact hS.pure _
  | succ left ih =>
    intro i terms total
    apply hS.bind (hS.difference h side i a)
    intro d
    split
    · exact hS.fail _
    · exact ih _ _ _

/-- The expansion beside a place samples without the caller's variables. -/
theorem oneSidedLimit (hS : Congruence S T)
    (h : ∀ t, S Fraction (p.sampleFraction t) (p'.sampleFraction t)) (differentiate : Message)
    (hd : ∀ t, S Fraction ((p.detached differentiate).sampleFraction t)
      ((p'.detached differentiate).sampleFraction t)) (side : Side) (x : Fraction) :
    T (Calculus.oneSidedLimit p differentiate side x)
      (Calculus.oneSidedLimit p' differentiate side x) := by
  apply hS.conclude (h x)
  intro value
  simp only
  split
  · exact hS.answer _
  · apply hS.conclude (hS.expand hd side _ _ _ _ _ _)
    rintro ⟨terms, total⟩
    exact hS.answer _

end Congruence

end Sampling

/-- Two probes whose samples are alike. -/
def Probe.Alike (W : World → World → Prop) (p p' : Probe) : Prop :=
  ∀ t, Sampling.Alike W (p.sampleFraction t) (p'.sampleFraction t)

namespace Machine

/-! ## Nested machines -/

/-- The nested machine on which a calculus operator runs a stack: with a limit, over a workspace,
with variables and values, and with a world to work on. -/
def trial (env : Environment) (limit : Nat) (workspace : Workspace) (bindings : Keyed Binding)
    (values : List Block) (s : Stack) (w : World) : Machine :=
  (((make limit workspace w).pushAll values).assignEach true bindings).insert env s

/-- What a run of a trial answers, and the world that it leaves. -/
def tried (run : Runner) (start : World → Machine) (w : World) : List Block × World :=
  ((run (start w)).1, (run (start w)).2.world)

/-- Two runners that take the trials of a machine to alike ends. -/
def Tries (W : World → World → Prop) (env : Environment) (run run' : Runner) (m n : Machine) :
    Prop :=
  ∀ bindings values s, Sampling.Alike W
    (tried run (trial env m.nestedBudget m.workspace bindings values s))
    (tried run' (trial env n.nestedBudget n.workspace bindings values s))

section Operators

variable {W : World → World → Prop} {env : Environment} {run run' : Runner} {m n : Machine}

/-- Probes whose trials are alike. -/
theorem alike_probe {limit limit' : Nat} {workspace workspace' : Workspace}
    {function : Stack} {bindings : Keyed Binding}
    (htry : ∀ t, Sampling.Alike W
      (tried run (trial env limit workspace bindings [.ofFraction t] function))
      (tried run' (trial env limit' workspace' bindings [.ofFraction t] function)))
    (message : Message) :
    Probe.Alike W ⟨run, env, workspace, function, bindings, limit, message⟩
      ⟨run', env, workspace', function, bindings, limit', message⟩ := by
  intro t w w' hw
  obtain ⟨h₁, h₂⟩ := htry t w w' hw
  simp only [Probe.sampleFraction]
  change ((run (trial env limit workspace bindings [.ofFraction t] function w)).1) =
    (run' (trial env limit' workspace' bindings [.ofFraction t] function w')).1 at h₁
  change W (run (trial env limit workspace bindings [.ofFraction t] function w)).2.world
    (run' (trial env limit' workspace' bindings [.ofFraction t] function w')).2.world at h₂
  rw [show (((make limit workspace w).push (.ofFraction t)).assignEach true
    bindings).insert env function =
      trial env limit workspace bindings [.ofFraction t] function w from rfl,
    show (((make limit' workspace' w').push (.ofFraction t)).assignEach true
      bindings).insert env function =
        trial env limit' workspace' bindings [.ofFraction t] function w' from rfl, h₁]
  split
  · rename_i b _
    cases b.fraction? with
    | none => exact ⟨rfl, h₂⟩
    | some r => exact ⟨rfl, h₂⟩
  · exact ⟨rfl, h₂⟩

/-- The block that a computation ends with, early or not. -/
theorem sampling_fst (x : Sampling Block) (m : Machine) :
    (m.sampling x).1 = some (match (x m.world).1 with | .ok b => b | .error b => b) := by
  simp only [sampling]
  rcases x m.world with ⟨b | b, w⟩
  · rfl
  · rfl

/-- Two computations that are alike, each done on the world of a machine. -/
theorem alike_sampling {x y : Sampling Block} (h : Sampling.Alike W x y)
    (hW : W m.world n.world) :
    (m.sampling x).1 = (n.sampling y).1 ∧ W (m.sampling x).2.world (n.sampling y).2.world := by
  obtain ⟨h₁, h₂⟩ := h _ _ hW
  rw [sampling_fst, sampling_fst, sampling_eq, sampling_eq, h₁]
  exact ⟨rfl, h₂⟩

/-- The two runs that a limit from both sides asks for. -/
theorem alike_approach (htry : Tries W env run run' m n)
    (hb : m.active.bindings = n.active.bindings) (name : String) (op : Operator) (f x : Block)
    (hW : W m.world n.world) :
    (m.approach run env name op f x).1 = (n.approach run' env name op f x).1 ∧
      W (m.approach run env name op f x).2.world (n.approach run' env name op f x).2.world := by
  obtain ⟨h₁, h₂⟩ := htry n.active.bindings [] (Stack.make name [f, x, .operator op]) _ _ hW
  refine ⟨?_, ?_⟩
  · rw [approach, approach, hb]
    exact congrArg List.head? h₁
  · rw [approach, approach, hb]
    exact h₂

theorem alike_bothLimits (htry : Tries W env run run' m n)
    (hb : m.active.bindings = n.active.bindings) (hr : ∀ b, m.resolve b = n.resolve b)
    (f x : Block) (hW : W m.world n.world) :
    (m.bothLimits run env f x).1 = (n.bothLimits run' env f x).1 ∧
      W (m.bothLimits run env f x).2.world (n.bothLimits run' env f x).2.world := by
  obtain ⟨h₁, hW₁⟩ := alike_approach htry hb "negative" .negativeLimit (n.resolve f) x hW
  -- the second side goes on from the world that the first one left
  have hnext := alike_approach
    (m := (m.approach run env "negative" .negativeLimit (n.resolve f) x).2)
    (n := (n.approach run' env "negative" .negativeLimit (n.resolve f) x).2)
    htry hb "positive" .positiveLimit (n.resolve f) x hW₁
  rw [bothLimits, bothLimits, hr f]
  refine ⟨?_, hnext.2⟩
  change some (Calculus.bothSides env.localizer limitMessage _ _) =
    some (Calculus.bothSides env.localizer limitMessage _ _)
  rw [h₁, hnext.1]

section Probes

variable {σ : Loc → Loc} {S : (α : Type) → Sampling α → Sampling α → Prop}
  {T : Sampling Block → Sampling Block → Prop}
  {Q : Option Block × Machine → Option Block × Machine → Prop}

/-- What relates two machines, if the computations that they do and the blocks that they answer at
once are related. -/
structure Settles (σ : Loc → Loc) (T : Sampling Block → Sampling Block → Prop)
    (Q : Option Block × Machine → Option Block × Machine → Prop) (m n : Machine) : Prop where
  loc : ∀ b : Block, n.dataLoc? (b.relocate σ) = (m.dataLoc? b).map σ
  stay : ∀ b : Option Block, (∀ c ∈ b, c.target? = none) → Q (b, m) (b, n)
  sampling : ∀ {x y}, T x y → Q (m.sampling x) (n.sampling y)

namespace Settles

theorem none (h : Settles σ T Q m n) : Q (none, m) (none, n) :=
  h.stay Option.none (by simp)

theorem plain (h : Settles σ T Q m n) {b : Block} (hb : b.target? = Option.none) :
    Q (some b, m) (some b, n) :=
  h.stay (some b) (by simpa using hb)

variable (h : Settles σ T Q m n) (hS : Sampling.Congruence S T)
  (hprobe : ∀ loc message t, S Fraction ((m.probe run env loc message).sampleFraction t)
    ((n.probe run' env (σ loc) message).sampleFraction t))

include h hS hprobe

theorem integral (f a b : Block) :
    Q (m.integral run env f a b)
      (n.integral run' env (f.relocate σ) (a.relocate σ) (b.relocate σ)) := by
  rw [Machine.integral, Machine.integral, h.loc, Block.fraction?_relocate, Block.fraction?_relocate]
  cases m.dataLoc? f with
  | none => exact h.none
  | some loc =>
    cases a.fraction? with
    | none => exact h.none
    | some x =>
      cases b.fraction? with
      | none => exact h.none
      | some y =>
        simp only [Option.map_some]
        split
        · exact h.plain rfl
        · exact h.sampling (hS.integral (hprobe loc _) _ _)

theorem derivative (f t : Block) :
    Q (m.derivative run env f t) (n.derivative run' env (f.relocate σ) (t.relocate σ)) := by
  rw [Machine.derivative, Machine.derivative, h.loc, Block.float?_relocate]
  cases m.dataLoc? f with
  | none => exact h.none
  | some loc =>
    cases t.float? with
    | none => exact h.none
    | some x => exact h.sampling (hS.derivative (hprobe loc _) _)

theorem series (bounds message : Message) (operation : Fraction → Fraction → Fraction)
    (start : Float) (f a b : Block) :
    Q (Machine.series run env bounds message operation start f a b m)
      (Machine.series run' env bounds message operation start (f.relocate σ) (a.relocate σ)
        (b.relocate σ) n) := by
  rw [Machine.series, Machine.series, h.loc, Block.float?_relocate, Block.float?_relocate]
  cases m.dataLoc? f with
  | none => exact h.none
  | some loc =>
    cases a.float? with
    | none => exact h.none
    | some x =>
      cases b.float? with
      | none => exact h.none
      | some y =>
        simp only [Option.map_some]
        split
        · exact h.plain rfl
        · exact h.sampling (hS.series (hprobe loc _) _ _ _ _)

/-- A limit from one side asks for probes without the caller's variables as well. -/
theorem sideLimit (hdetached : ∀ loc message message' t,
      S Fraction (((m.probe run env loc message).detached message').sampleFraction t)
        (((n.probe run' env (σ loc) message).detached message').sampleFraction t))
    (side : Calculus.Side) (f x : Block) :
    Q (m.sideLimit run env side f x)
      (n.sideLimit run' env side (f.relocate σ) (x.relocate σ)) := by
  rw [Machine.sideLimit, Machine.sideLimit, h.loc, Block.fraction?_relocate]
  cases m.dataLoc? f with
  | none => exact h.none
  | some loc =>
    cases x.fraction? with
    | none => exact h.none
    | some r => exact h.sampling (hS.oneSidedLimit (hprobe loc _) _ (hdetached loc _ _) _ _)

end Settles

/-- **Sampling in step.** An operator that samples is settled by the computations that it does on
its own machine: what holds of two such computations, if it does of the probes that they ask for,
holds of the operator. A limit from both sides asks for machines of its own, and only limits ask for
probes without the caller's variables. -/
theorem operate_of_probes (hS : Sampling.Congruence S T) (h : Settles σ T Q m n) {op : Operator}
    (hop : op.isCalculus = true) (d d' : Discipline) (env : Environment) (this : Block)
    (overload : Nat) (operands : List Block)
    (hprobe : ∀ loc message t, S Fraction ((m.probe d.run env loc message).sampleFraction t)
      ((n.probe d'.run env (σ loc) message).sampleFraction t))
    (hdetached : op = .positiveLimit ∨ op = .negativeLimit → ∀ loc message message' t,
      S Fraction (((m.probe d.run env loc message).detached message').sampleFraction t)
        (((n.probe d'.run env (σ loc) message).detached message').sampleFraction t))
    (hboth : op = .limit → ∀ f x : Block, Q (m.bothLimits d.run env f x)
      (n.bothLimits d'.run env (f.relocate σ) (x.relocate σ))) :
    Q (m.operate d env this op overload operands)
      (n.operate d' env (this.relocate σ) op overload (operands.map (Block.relocate σ))) := by
  have hnone := h.none
  cases op with
  | integral =>
    rcases operands with _ | ⟨f, _ | ⟨a, _ | ⟨b, _ | _⟩⟩⟩
    case cons.cons.cons.nil => exact h.integral hS hprobe f a b
    all_goals exact hnone
  | derivative =>
    rcases operands with _ | ⟨f, _ | ⟨t, _ | _⟩⟩
    case cons.cons.nil => exact h.derivative hS hprobe f t
    all_goals exact hnone
  | sum | product =>
    rcases operands with _ | ⟨f, _ | ⟨a, _ | ⟨b, _ | _⟩⟩⟩
    case cons.cons.cons.nil => exact h.series hS hprobe _ _ _ _ f a b
    all_goals exact hnone
  | positiveLimit =>
    rcases operands with _ | ⟨f, _ | ⟨x, _ | _⟩⟩
    case cons.cons.nil => exact h.sideLimit hS hprobe (hdetached (.inl rfl)) .right f x
    all_goals exact hnone
  | negativeLimit =>
    rcases operands with _ | ⟨f, _ | ⟨x, _ | _⟩⟩
    case cons.cons.nil => exact h.sideLimit hS hprobe (hdetached (.inr rfl)) .left f x
    all_goals exact hnone
  | limit =>
    rcases operands with _ | ⟨f, _ | ⟨x, _ | _⟩⟩
    case cons.cons.nil => exact hboth rfl f x
    all_goals exact hnone
  | _ => cases hop

end Probes

/-- A calculus operator answers the same on two machines and leaves related worlds, if the probes do
that it asks for. -/
theorem operate_alike_of_probes {op : Operator} (hop : op.isCalculus = true) (d d' : Discipline)
    (env : Environment) (this : Block) (overload : Nat) (operands : List Block)
    (hloc : ∀ b, m.dataLoc? b = n.dataLoc? b) (hW : W m.world n.world)
    (hprobe : ∀ loc message,
      Probe.Alike W (m.probe d.run env loc message) (n.probe d'.run env loc message))
    (hdetached : op = .positiveLimit ∨ op = .negativeLimit → ∀ loc message message',
      Probe.Alike W ((m.probe d.run env loc message).detached message')
        ((n.probe d'.run env loc message).detached message'))
    (hboth : op = .limit → ∀ f x,
      (m.bothLimits d.run env f x).1 = (n.bothLimits d'.run env f x).1 ∧
        W (m.bothLimits d.run env f x).2.world (n.bothLimits d'.run env f x).2.world) :
    (m.operate d env this op overload operands).1 = (n.operate d' env this op overload operands).1 ∧
      W (m.operate d env this op overload operands).2.world
        (n.operate d' env this op overload operands).2.world := by
  have h : Settles id (Sampling.Alike W) (fun x y => x.1 = y.1 ∧ W x.2.world y.2.world) m n :=
    ⟨by simpa using fun b => (hloc b).symm, fun b _ => ⟨rfl, hW⟩, fun h => alike_sampling h hW⟩
  have hop' := operate_of_probes (Sampling.alike_congruence W) h hop d d' env this overload operands
    hprobe hdetached (by simpa using hboth)
  simpa using hop'

/-- So it is enough that trials are alike. -/
theorem operate_alike {op : Operator} (hop : op.isCalculus = true) (d d' : Discipline)
    (env : Environment) (this : Block) (overload : Nat) (operands : List Block)
    (hw : m.workspace = n.workspace) (hs : m.world.store = n.world.store)
    (hb : m.active.bindings = n.active.bindings) (hW : W m.world n.world)
    (htry : Tries W env d.run d'.run m n) :
    (m.operate d env this op overload operands).1 = (n.operate d' env this op overload operands).1 ∧
      W (m.operate d env this op overload operands).2.world
        (n.operate d' env this op overload operands).2.world := by
  have hheap : m.heap = n.heap := congrArg Store.heap hs
  have hr : ∀ b, m.resolve b = n.resolve b := by
    intro b
    rw [resolve, resolve, hw, hheap]
  have hloc : ∀ b, m.dataLoc? b = n.dataLoc? b := by
    intro b
    rw [dataLoc?, dataLoc?, hr]
  apply operate_alike_of_probes hop d d' env this overload operands hloc hW
  · intro loc message
    rw [probe, probe, hheap, hb]
    exact alike_probe (fun t => htry _ _ _) _
  · intro _ loc message message'
    rw [probe, probe, hheap]
    exact alike_probe (fun t => htry _ _ _) _
  · intro _ f x
    exact alike_bothLimits htry hb hr f x hW

end Operators

end Machine

end BlockMachine
