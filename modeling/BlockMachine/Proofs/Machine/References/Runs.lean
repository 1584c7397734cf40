import BlockMachine.Proofs.Machine.References.Operators
import BlockMachine.Proofs.Machine.Relocation

/-!
# Runs bring in no reference

Nested machines start from blocks that their caller knows, and add stacks to its heap. So what they
answer is known to the caller when the world comes back.

* `RunsSafely run` — a runner that keeps machines sound and answers with blocks that they know;
* `Sampling.Keeps`, `operate_calculus_safe` — operators that sample;
* `callIsolated_sound` — isolated calls, `evaluate_sound`, `step_sound` — blocks and steps;
* `runAt_safe` — runs, by induction on the nesting.
-/

namespace BlockMachine

namespace Machine

/-! ## Nested machines -/

/-- A runner that only adds stacks, keeps machines sound and answers with blocks that they know. -/
structure RunsSafely (run : Runner) : Prop where
  adds : Adds run
  safe : ∀ {m : Machine}, m.Sound → Safe (run m)

end Machine

namespace Sampling

variable {workspace : Workspace} {k : Nat} {α β : Type}

/-- A computation that keeps a world closed, with at least `k` stacks, and that ends early, if it
does, with a block that refers to nothing. -/
def Keeps (workspace : Workspace) (k : Nat) (x : Sampling α) : Prop :=
  ∀ w, World.Closed workspace w → k ≤ w.store.heap.size →
    World.Closed workspace (x w).2 ∧ k ≤ (x w).2.store.heap.size ∧
      ∀ b, (x w).1 = .error b → b.target? = none

/-- A computation of a block that refers to nothing. -/
def Plain (x : Sampling Block) : Prop :=
  ∀ w b, (x w).1 = .ok b → b.target? = none

theorem Keeps.bind {x : Sampling α} {f : α → Sampling β} (h : Keeps workspace k x)
    (hf : ∀ a, Keeps workspace k (f a)) : Keeps workspace k (x >>= f) := by
  intro w hw hsize
  obtain ⟨hclosed, hle, herror⟩ := h w hw hsize
  change World.Closed workspace (Sampling.bind x f w).2 ∧
    k ≤ (Sampling.bind x f w).2.store.heap.size ∧
      ∀ b, (Sampling.bind x f w).1 = .error b → b.target? = none
  simp only [Sampling.bind]
  rcases hx : x w with ⟨b | a, u⟩
  all_goals rw [hx] at hclosed hle herror
  · refine ⟨hclosed, hle, ?_⟩
    rintro _ ⟨⟩
    exact herror b rfl
  · exact hf a u hclosed hle

theorem Plain.bind {x : Sampling α} {f : α → Sampling Block} (hf : ∀ a, Plain (f a)) :
    Plain (x >>= f) := by
  intro w b hb
  change (Sampling.bind x f w).1 = .ok b at hb
  simp only [Sampling.bind] at hb
  rcases hx : x w with ⟨c | a, u⟩
  all_goals rw [hx] at hb
  · cases hb
  · exact hf a u b hb

/-- What the operators of calculus are made of keeps worlds closed. -/
theorem keeps_congruence (workspace : Workspace) (k : Nat) :
    Congruence (fun _ x y => x = y ∧ Keeps workspace k x)
      (fun x y => x = y ∧ Keeps workspace k x ∧ Plain x) where
  pure a := ⟨rfl, fun w hw hsize => ⟨hw, hsize, fun b hb => by cases hb⟩⟩
  fail x := by
    refine ⟨rfl, fun w hw hsize => ⟨hw, hsize, ?_⟩⟩
    rintro _ ⟨⟩
    rfl
  bind := by
    rintro α β x _ f g ⟨rfl, hx⟩ hf
    obtain rfl : f = g := funext fun a => (hf a).1
    exact ⟨rfl, hx.bind fun a => (hf a).2⟩
  answer r := by
    refine ⟨rfl, fun w hw hsize => ⟨hw, hsize, fun b hb => by cases hb⟩, ?_⟩
    rintro w _ ⟨⟩
    rfl
  conclude := by
    rintro α x _ f g ⟨rfl, hx⟩ hf
    obtain rfl : f = g := funext fun a => (hf a).1
    exact ⟨rfl, hx.bind fun a => (hf a).2.1, Plain.bind fun a => (hf a).2.2⟩

end Sampling

namespace Machine

section Nested

variable {env : Environment} {run : Runner} {m : Machine}

/-- A trial with known blocks on a closed world. -/
theorem sound_trial {w : World} {workspace : Workspace} (hw : World.Closed workspace w)
    (env : Environment) (limit : Nat) {bindings : Keyed Binding}
    (hbindings : ∀ p ∈ bindings, p.2.block.Inside w.store.heap.size) {v : List Block}
    (hv : ∀ b ∈ v, b.Inside w.store.heap.size) {s : Stack}
    (hs : ∀ b ∈ s.blocks, b.Inside w.store.heap.size) :
    (trial env limit workspace bindings v s w).Sound ∧
      Holds workspace w.store.heap (trial env limit workspace bindings v s w) := by
  have hP := holds_lasting env workspace w.store.heap
  have hstart : Holds workspace w.store.heap (make limit workspace w) := ⟨rfl, .refl _⟩
  have hpushed := hP.pushAll v hstart
  have hassigned := hP.assignEach hpushed true bindings
  have hsound := ((sound_make hw limit).pushAll v hv).assignEach true bindings
    fun p hp => (hbindings p hp).mono hpushed.2.size
  exact ⟨hsound.insert env fun b hb => (hs b hb).mono hassigned.2.size,
    hP.insert hassigned s⟩

theorem keeps_probe (hrun : RunsSafely run) (env : Environment) (workspace : Workspace) {k : Nat}
    {function : Stack} (hf : ∀ b ∈ function.blocks, b.Inside k) {bindings : Keyed Binding}
    (hb : ∀ p ∈ bindings, p.2.block.Inside k) (limit : Nat) (message : Message) (t : Fraction) :
    Sampling.Keeps workspace k
      ((Probe.mk run env workspace function bindings limit message).sampleFraction t) := by
  intro w hw hsize
  obtain ⟨htrial, hholds⟩ := sound_trial hw env limit (fun p hp => (hb p hp).mono hsize)
    (v := [.ofFraction t]) (by simpa using Block.inside_of_none rfl _)
    (fun b hb => (hf b hb).mono hsize)
  have hend := hholds.trans (hrun.adds _)
  have hclosed := (hrun.safe htrial).1.world
  rw [hend.1] at hclosed
  have hle := Nat.le_trans hsize hend.2.size
  rw [sampleFraction_eq]
  refine ⟨hclosed, hle, fun b hb => ?_⟩
  -- a sample that is no number ends in the complaint
  have hcomplaint : ∀ bs : List Block, reading (message.block env.localizer) bs = .error b →
      b.target? = none := by
    intro bs hbs
    unfold reading at hbs
    split at hbs
    · split at hbs
      · cases hbs
      · obtain rfl := Except.error.inj hbs
        rfl
    · obtain rfl := Except.error.inj hbs
      rfl
  exact hcomplaint _ hb

/-- A machine whose world was handed to nested machines and came back closed. -/
theorem Sound.withWorld (h : m.Sound) {w : World} (hw : World.Closed m.workspace w)
    (hle : m.heap.size ≤ w.store.heap.size) : ({ m with world := w } : Machine).Sound :=
  ⟨hw, fun b hb => (h.values b hb).mono hle, fun f hf => (h.frames f hf).mono hle⟩

theorem Sound.sampling (h : m.Sound) {x : Sampling Block}
    (hx : Sampling.Keeps m.workspace m.heap.size x) (hplain : Sampling.Plain x) :
    Safe (m.sampling x) := by
  obtain ⟨hclosed, hle, herror⟩ := hx m.world h.world (Nat.le_refl _)
  refine ⟨?_, fun b hb => knows_of_none _ ?_⟩
  · rw [sampling_eq]
    exact h.withWorld hclosed hle
  · rw [sampling_fst] at hb
    obtain rfl := Option.some.inj hb
    rcases hanswer : (x m.world).1 with b | b
    · exact herror b hanswer
    · exact hplain m.world b hanswer

/-- One side of a limit from both sides. -/
theorem Sound.approach (hrun : RunsSafely run) (h : m.Sound) (env : Environment) (name : String)
    (op : Operator) {f x : Block} (hf : m.Knows f) (hx : m.Knows x) :
    Safe (m.approach run env name op f x) ∧
      m.heap.size ≤ (m.approach run env name op f x).2.heap.size := by
  have hbindings := (h.frames _ List.mem_cons_self).2
  obtain ⟨htrial, hholds⟩ := sound_trial h.world env m.nestedBudget hbindings (v := [])
    (by simp) (s := Stack.make name [f, x, .operator op])
    (by simpa [Stack.make] using ⟨hf, hx, Block.inside_of_none rfl _⟩)
  have hend := hholds.trans (hrun.adds _)
  obtain ⟨hsound, hanswer⟩ := hrun.safe htrial
  have hclosed := hsound.world
  rw [hend.1] at hclosed
  rw [approach_eq]
  exact ⟨⟨h.withWorld hclosed hend.2.size, fun b hb => hanswer b (List.mem_of_mem_head? hb)⟩,
    hend.2.size⟩

/-- A limit from both sides is a number or an error. -/
theorem target?_bothSides (l : Localizer) (message : Message) (left right : Option Block) :
    (Calculus.bothSides l message left right).target? = none := by
  have herror : ∀ {b : Block}, b.isError = true → b.target? = none := by
    intro b hb
    cases b with
    | error _ => rfl
    | _ => cases hb
  cases left with
  | none =>
    cases right with
    | none => rfl
    | some b =>
      simp only [Calculus.bothSides]
      split
      · rename_i hb
        exact herror hb
      · rfl
  | some a =>
    simp only [Calculus.bothSides]
    split
    · rename_i ha
      exact herror ha
    · cases right with
      | none => rfl
      | some b =>
        simp only
        split
        · rename_i hb
          exact herror hb
        · cases a.float? with
          | none => rfl
          | some x =>
            cases b.float? with
            | none => rfl
            | some y =>
              simp only
              split <;> rfl

theorem Sound.bothLimits (hrun : RunsSafely run) (h : m.Sound) (env : Environment) {f x : Block}
    (hf : m.Knows f) (hx : m.Knows x) : Safe (m.bothLimits run env f x) := by
  have hleft := h.approach hrun env "negative" .negativeLimit (h.resolve hf) hx
  rw [Machine.bothLimits]
  rcases hm : m.approach run env "negative" .negativeLimit (m.resolve f) x with ⟨left, m'⟩
  rw [hm] at hleft
  obtain ⟨⟨hsound, -⟩, hle⟩ := hleft
  have hright := hsound.approach hrun env "positive" .positiveLimit ((h.resolve hf).of_size hle)
    (hx.of_size hle)
  rcases hm' : m'.approach run env "positive" .positiveLimit (m.resolve f) x with ⟨right, m''⟩
  rw [hm'] at hright
  obtain ⟨⟨hsound', -⟩, -⟩ := hright
  simp only [hm']
  exact hsound'.safe_plain (target?_bothSides _ _ left right)

/-- Computations on a machine settle that the operators which sample answer with what they know. -/
theorem Sound.settles (h : m.Sound) :
    Settles id (fun x y => x = y ∧ Sampling.Keeps m.workspace m.heap.size x ∧ Sampling.Plain x)
      (fun x _ => Safe x) m m where
  loc := by simp
  stay b hb := ⟨h, fun c hc => knows_of_none m (hb c hc)⟩
  sampling := by
    rintro x _ ⟨-, hkeeps, hplain⟩
    exact h.sampling hkeeps hplain

/-- **Operators that sample** answer with blocks that they know. -/
theorem operate_calculus_safe (hrun : RunsSafely run) (h : m.Sound) (this : Block) {op : Operator}
    (hop : op.isCalculus = true) (overload : Nat) {operands : List Block}
    (hbs : ∀ b ∈ operands, m.Knows b) :
    Safe (m.operate (splicing env run) env this op overload operands) := by
  have hprobe : ∀ loc message t, Sampling.Keeps m.workspace m.heap.size
      ((m.probe run env loc message).sampleFraction t) := fun loc message t =>
    keeps_probe hrun env m.workspace (fun b hb => h.blocks hb) (h.frames _ List.mem_cons_self).2 _
      _ t
  have hdetached : ∀ loc message message' t, Sampling.Keeps m.workspace m.heap.size
      (((m.probe run env loc message).detached message').sampleFraction t) :=
    fun loc message message' t =>
      keeps_probe hrun env m.workspace (fun b hb => h.blocks hb)
        (fun p hp => absurd hp List.not_mem_nil) _ _ t
  by_cases hlimit : op = .limit
  · subst hlimit
    match operands with
    | [f, x] => exact h.bothLimits hrun env (hbs _ (by simp)) (hbs _ (by simp))
    | [] | [_] | _ :: _ :: _ :: _ => exact h.safe_none
  · exact operate_of_probes (Sampling.keeps_congruence m.workspace m.heap.size) h.settles hop
      (splicing env run) (splicing env run) env this overload operands
      (fun loc message t => ⟨rfl, hprobe loc message t⟩)
      (fun _ loc message message' t => ⟨rfl, hdetached loc message message' t⟩)
      (fun heq => absurd heq hlimit)

/-! ## Blocks, steps and runs -/

theorem Sound.evaluateOperator (hrun : RunsSafely run) (h : m.Sound) (env : Environment)
    (this : Block) (op : Operator) :
    (m.evaluateOperator (splicing env run) env this op).Sound := by
  obtain ⟨hsound, hbs⟩ := h.takeFor env this op
  rw [Machine.evaluateOperator]
  rcases hm : m.takeFor env this op with ⟨_ | ⟨operands, overload⟩, m'⟩
  all_goals rw [hm] at hsound hbs
  · exact hsound
  · have hsafe : Safe (m'.operate (splicing env run) env this op overload operands) := by
      cases hop : op.isCalculus with
      | true =>
        exact operate_calculus_safe hrun hsound this hop overload (hbs operands overload rfl)
      | false => exact operate_safe hsound run env this hop overload (hbs operands overload rfl)
    simp only
    rcases hx : m'.operate (splicing env run) env this op overload operands with ⟨_ | b, n⟩
    all_goals rw [hx] at hsafe
    · exact hsafe.1
    · exact hsafe.1.push (hsafe.2 b rfl)

/-- Marks are not blocks. -/
theorem Sound.obfuscate (h : m.Sound) (loc : Loc) (mark : Bool) : (m.obfuscate loc mark).Sound := by
  have hsize : (m.obfuscate loc mark).heap.size = m.heap.size := Heap.size_modify _ _
  have hsize' : (m.obfuscate loc mark).world.store.heap.size = m.heap.size := hsize
  have hblocks : ∀ other, (m.obfuscate loc mark).heap.blocks other = m.heap.blocks other := by
    intro other
    change ((m.heap.modify loc fun s => { s with obfuscated := mark }).get other).blocks = _
    by_cases hne : other = loc
    · subst hne
      by_cases hlt : other < m.heap.size
      · rw [Heap.get_modify_self _ _ hlt]
        rfl
      · rw [Heap.get_of_size_le _ (by simpa using hlt), Heap.blocks,
          Heap.get_of_size_le _ (Nat.le_of_not_lt hlt)]
    · rw [Heap.get_modify_of_ne _ _ hne]
      rfl
  refine ⟨⟨?_, ?_, ?_⟩, ?_, ?_⟩
  · rw [hsize']
    exact h.world.workspace
  · intro other b hb
    rw [show (m.obfuscate loc mark).world.store.heap.blocks other = m.heap.blocks other from
      hblocks other] at hb
    rw [hsize']
    exact h.world.heap other b hb
  · rw [hsize']
    exact h.world.memory
  · intro b hb
    rw [Knows, hsize]
    exact h.values b hb
  · intro f hf
    rw [hsize]
    exact h.frames f hf

/-- The nested machine of an isolated call. -/
theorem Sound.isolated (h : m.Sound) (env : Environment) {s : Stack}
    (hs : ∀ b ∈ s.blocks, m.Knows b) : (m.isolated env s).Sound := by
  have hP := holds_lasting env m.workspace m.heap
  have hstart : ({ m.nested m.remainingBudget with values := m.values } : Machine).Sound := by
    refine ⟨h.world, h.values, fun f hf => ?_⟩
    obtain rfl := List.mem_singleton.1 hf
    exact ⟨fun b hb => absurd hb List.not_mem_nil, fun p hp => absurd hp List.not_mem_nil⟩
  have hbound := hstart.assignEach true m.active.bindings (h.frames _ List.mem_cons_self).2
  have hgrows := hP.assignEach (m := { m.nested m.remainingBudget with values := m.values })
    ⟨rfl, .refl _⟩ true m.active.bindings
  rw [Machine.isolated]
  apply Sound.insert
  · exact hbound.of_eq rfl rfl rfl (fun _ h => h) (fun _ h => h)
  · exact fun b hb => (hs b hb).mono hgrows.2.size

theorem Sound.mainFrame (h : m.Sound) : m.mainFrame.Inside m.heap.size := by
  refine h.frames _ ?_
  rw [Machine.mainFrame]
  cases hlast : m.outer.getLast? with
  | none => exact List.mem_cons_self
  | some f => exact List.mem_cons_of_mem _ (List.mem_of_getLast? hlast)

/-- Taking over blocks that are known. -/
theorem Sound.adopt (h : m.Sound) {result : List Block} (hresult : ∀ b ∈ result, m.Knows b)
    (sub : Machine) : (m.adopt result sub).Sound := by
  rw [Machine.adopt]
  split
  · refine (h.drop _).pushAll _ fun b hb => ?_
    rw [knows_drop]
    exact hresult b (List.mem_of_mem_drop hb)
  · exact h.pushAll _ hresult

/-- **An isolated call** leaves blocks that the nested machine knew. -/
theorem callIsolated_sound (hrun : RunsSafely run) (h : m.Sound) (env : Environment) (loc : Loc) :
    (m.callIsolated run env loc).Sound := by
  have hopen := h.obfuscate loc false
  have hsub := hopen.isolated env (s := (m.obfuscate loc false).heap.get loc)
    fun b hb => hopen.blocks hb
  have hholds := (Holds.isolated env ((m.obfuscate loc false).heap.get loc)
    (m.obfuscate loc false)).trans (hrun.adds _)
  obtain ⟨hsound, hresult⟩ := hrun.safe hsub
  rw [callIsolated]
  generalize run ((m.obfuscate loc false).isolated env ((m.obfuscate loc false).heap.get loc)) = x
    at hholds hsound hresult
  obtain ⟨result, sub⟩ := x
  have hclosed := hsound.world
  rw [hholds.1] at hclosed
  have hback := (hopen.withWorld hclosed hholds.2.size).assignEach false sub.mainFrame.bindings
    hsound.mainFrame.2
  have hgrows := (holds_lasting env (m.obfuscate loc false).workspace sub.heap).assignEach
    (m := { m.obfuscate loc false with world := sub.world }) ⟨rfl, .refl _⟩ false
    sub.mainFrame.bindings
  have hadopted := hback.adopt (fun b hb => (hresult b hb).of_size hgrows.2.size) sub
  exact hadopted.obfuscate loc true

/-- **One block.** -/
theorem evaluate_sound (hrun : RunsSafely run) (h : m.Sound) (env : Environment) {this : Block}
    (hthis : m.Knows this) : (m.evaluate (splicing env run) env this).Sound := by
  cases this with
  | operator op => exact h.evaluateOperator hrun env _ op
  | assign name =>
    have hpop := h.pop (some (.assign name))
    simp only [evaluate]
    rcases hm : m.pop (some (.assign name)) with ⟨_ | b, m'⟩
    all_goals rw [hm] at hpop
    · exact hpop.1.push (knows_of_none _ rfl)
    · exact hpop.1.assign name (hpop.2 b rfl) false
  | fetch name =>
    refine h.push ?_
    cases hfetch : m.fetch name with
    | none => exact knows_of_none m rfl
    | some b => exact Frame.inside_fetch h.frames hfetch
  | data loc resolved => exact h.push (h.resolve hthis)
  | code name target =>
    simp only [evaluate, call]
    split
    · split
      · exact callIsolated_sound hrun h env _
      · exact h.insert env fun b hb => h.blocks hb
    · exact h.push (knows_of_none m rfl)
  | getSymbol name => exact h.getSymbol env _ name
  | setSymbol name => exact h.setSymbol env _ name
  | extension ext =>
    simp only [evaluate]
    split
    · exact h.push hthis
    · exact h.respread _ _ _
  | _ => exact h.push hthis

end Nested

section Runs

variable {env : Environment} {run : Runner} {m : Machine}

/-- Modules that take no notice of places bring in no reference of their own. -/
theorem Sound.afterFrame (he : env.Impartial) (h : m.Sound) : (m.afterFrame env).Sound := by
  have hfold : ∀ es : List Module, (∀ e ∈ es, e ∈ env.grammar.modules) → ∀ values : List Block,
      (∀ b ∈ values, b.Inside m.heap.size) →
        ∀ b ∈ es.foldl (fun values e => e.afterFrame m.active.name values) values,
          b.Inside m.heap.size := by
    intro es
    induction es with
    | nil =>
      intro _ values hvalues
      exact hvalues
    | cons e es ih =>
      intro hes values hvalues
      refine ih (fun e he => hes e (List.mem_cons_of_mem _ he)) _ fun b hb => ?_
      have hsame := he _ (shift_injective (Nat.le_succ m.heap.size)) e (hes e List.mem_cons_self)
        m.active.name values
      rw [Block.map_relocate_shift hvalues] at hsame
      have hfixed := List.map_inj_left.1 (hsame.symm.trans (List.map_id _).symm) b hb
      exact Block.inside_of_relocate_shift hfixed
  exact ⟨h.world, hfold _ (fun _ he => he) m.values h.values, h.frames⟩

theorem Sound.stepFrame (he : env.Impartial) (hrun : RunsSafely run) (h : m.Sound) :
    (m.stepFrame (splicing env run) env).2.Sound := by
  have hactive := h.frames _ List.mem_cons_self
  cases hp : m.active.program with
  | nil =>
    rw [stepFrame_nil hp]
    exact h
  | cons next rest =>
    rw [Frame.Inside, hp] at hactive
    have hrest : (m.withProgram rest).Sound := by
      refine ⟨h.world, h.values, fun f hf => ?_⟩
      rcases List.mem_cons.1 hf with rfl | hf
      · exact ⟨fun b hb => hactive.1 b (List.mem_cons_of_mem _ hb), hactive.2⟩
      · exact h.frames f (List.mem_cons_of_mem _ hf)
    cases next with
    | block b =>
      have hafter : (m.afterBlock (splicing env run) env b rest).Sound :=
        (evaluate_sound hrun hrest env (hactive.1 b List.mem_cons_self)).notify _
      rw [stepFrame_block hp]
      split
      · exact hafter.afterFrame he
      · exact hafter
    | child =>
      have hpush := hrest.push (knows_of_none _ (b := missingChild env.localizer) rfl)
      rw [stepFrame_child hp]
      split
      · exact hpush.afterFrame he
      · exact hpush

theorem Sound.closeFrame (h : m.Sound) : m.closeFrame.Sound := by
  cases ho : m.outer with
  | nil =>
    rw [Machine.closeFrame, ho]
    exact h
  | cons parent outer =>
    have houter : ∀ f ∈ parent :: outer, f.Inside m.heap.size := by
      rw [← ho]
      exact fun f hf => h.frames f (List.mem_cons_of_mem _ hf)
    rw [Machine.closeFrame, ho]
    apply Sound.notify
    refine ⟨h.world, h.values, fun f hf => ?_⟩
    rcases List.mem_cons.1 hf with rfl | hf
    · obtain ⟨hprogram, hbindings⟩ := houter parent List.mem_cons_self
      exact ⟨fun b hb => hprogram b (List.mem_of_mem_tail hb), hbindings⟩
    · exact houter f (List.mem_cons_of_mem _ hf)

/-- **One step.** -/
theorem step_sound (he : env.Impartial) (hrun : RunsSafely run) (h : m.Sound) :
    (m.step (splicing env run) env).2.Sound := by
  have hstep := h.stepFrame he hrun
  rw [step]
  split
  · exact h
  · split
    · exact hstep
    · rcases hm : m.stepFrame (splicing env run) env with ⟨_ | _, m'⟩
      all_goals rw [hm] at hstep
      · exact hstep
      · exact hstep.closeFrame

theorem runSteps_safe (he : env.Impartial) (hrun : RunsSafely run) (left : Nat) :
    ∀ {m : Machine}, m.Sound → Safe (m.runSteps (splicing env run) env left) := by
  induction left with
  | zero =>
    intro m h
    refine ⟨h, fun b hb => ?_⟩
    obtain rfl := List.mem_singleton.1 hb
    exact knows_of_none m rfl
  | succ left ih =>
    intro m h
    have hstep := step_sound he hrun h
    rw [runSteps]
    rcases hm : m.step (splicing env run) env with ⟨_ | _, m'⟩
    all_goals rw [hm] at hstep
    · exact ih ⟨hstep.world, hstep.values, hstep.frames⟩
    · exact ⟨hstep, fun b hb => hstep.values b (List.mem_reverse.1 hb)⟩

/-- **Runs leave no dangling reference**, however deep machines are nested in them. -/
theorem runAt_safe (he : env.Impartial) (depth : Nat) : RunsSafely (runAt env depth) := by
  induction depth with
  | zero =>
    refine ⟨runAt_adds env 0, fun {m} h => ⟨⟨h.world, h.values, h.frames⟩, fun b hb => ?_⟩⟩
    obtain rfl := List.mem_singleton.1 hb
    exact knows_of_none _ rfl
  | succ depth ih =>
    refine ⟨runAt_adds env (depth + 1), fun {m} h => ?_⟩
    exact runSteps_safe he ih m.maxSteps (m := m.started) ⟨h.world, h.values, h.frames⟩

end Runs

end Machine

end BlockMachine
