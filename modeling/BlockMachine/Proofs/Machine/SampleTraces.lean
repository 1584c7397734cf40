import BlockMachine.Proofs.Machine.History
import BlockMachine.Proofs.Machine.SampleLimits

/-!
# Samples one after the other

An operator on functions takes its samples on machines of their own, but all of them in one world:
each finds the stacks and the memory that those before it have left. If a function rolls no dice and
leaves the memory as it was, this makes no difference to what it gives.

* `sampled` — what one sample leaves; `Gives` — a sample that leaves exactly one number;
* `Drawn` — samples one after the other, up to the first one that does not;
* `Later` — a world in which samples have been taken; `Traceless` — a function that leaves no trace
  there but new stacks; `Traceless.later` — so a later sample gives the same;
* `Drawn.alone` — then samples that are drawn in a row give what each gives by itself.
-/

namespace BlockMachine.Machine

variable {env : Environment} {m n : Machine} {loc : Loc} {x : Float} {xs : List Float}
  {r s : Fraction} {rs : Option (List Fraction)} {w w' : World}

/-! ## Samples -/

/-- What a sample of the stack at a location leaves on its value stack, and the world after it. -/
def sampled (env : Environment) (m : Machine) (loc : Loc) (x : Float) : World → List Block × World :=
  tried (run env) (sampler env m.nestedBudget m loc (Fraction.ofFloat x))

/-- A sample of an operator is one of these. -/
theorem sampleFraction_sampled (env : Environment) (n : Machine) (loc : Loc) (message : Message)
    (x : Float) (w : World) :
    (n.probe (run env) env loc message).sampleFraction (Fraction.ofFloat x) w =
      (reading (message.block env.localizer) (sampled env n loc x w).1,
        (sampled env n loc x w).2) :=
  sampleFraction_probe env n loc message (Fraction.ofFloat x) w

/-- A sample leaves exactly one number. -/
def Gives (env : Environment) (m : Machine) (loc : Loc) (w : World) (x : Float) (r : Fraction) :
    Prop :=
  ∃ b, (sampled env m loc x w).1 = [b] ∧ b.fraction? = some r

theorem Gives.unique (h : Gives env m loc w x r) (h' : Gives env m loc w x s) : r = s := by
  obtain ⟨b, hb, hr⟩ := h
  obtain ⟨c, hc, hs⟩ := h'
  obtain rfl := List.singleton_injective (hb.symm.trans hc)
  exact Option.some.inj (hr.symm.trans hs)

/-- Samples one after the other, each in the world that those before it leave: the numbers that they
give, or none as soon as one of them does not leave exactly one number. -/
inductive Drawn (env : Environment) (m : Machine) (loc : Loc) :
    List Float → World → Option (List Fraction) → World → Prop where
  | nil (w : World) : Drawn env m loc [] w (some []) w
  | cons {x : Float} {xs : List Float} {w w' : World} {r : Fraction} {rs : Option (List Fraction)} :
    Gives env m loc w x r → Drawn env m loc xs (sampled env m loc x w).2 rs w' →
    Drawn env m loc (x :: xs) w (rs.map (r :: ·)) w'
  | failed {x : Float} {xs : List Float} {w : World} : (∀ r, ¬ Gives env m loc w x r) →
    Drawn env m loc (x :: xs) w none (sampled env m loc x w).2

/-- Samples are alike on machines that agree on what they are made of. -/
theorem sampled_congr (env : Environment) (loc : Loc) (hworkspace : n.workspace = m.workspace)
    (hheap : n.heap = m.heap) (hbindings : n.active.bindings = m.active.bindings)
    (hbudget : n.nestedBudget = m.nestedBudget) : sampled env n loc = sampled env m loc := by
  have hsampler : ∀ limit t, sampler env limit n loc t = sampler env limit m loc t := by
    intro limit t
    funext w
    rw [sampler, sampler, hworkspace, hheap, hbindings]
  funext x
  rw [sampled, sampled, hbudget, hsampler]

theorem Drawn.congr (hsampled : sampled env n loc = sampled env m loc)
    (h : Drawn env n loc xs w rs w') : Drawn env m loc xs w rs w' := by
  have hgives : ∀ {w x r}, Gives env n loc w x r ↔ Gives env m loc w x r := by
    intro w x r
    rw [Gives, Gives, hsampled]
  induction h with
  | nil w => exact .nil w
  | cons hx _ ih => exact .cons (hgives.1 hx) (hsampled ▸ ih)
  | failed hx =>
    rw [hsampled]
    exact .failed fun r hr => hx r (hgives.2 hr)

/-! ## Samples that leave no trace -/

/-- A later world has more stacks; the old ones and the memory are as they were. -/
structure Later (w w' : World) : Prop where
  grows : w.store.heap.Grows w'.store.heap
  memory : w'.memory = w.memory

/-- On the world of the machine, the function rolls no dice and leaves the memory as it was. -/
structure Traceless (env : Environment) (m : Machine) (loc : Loc) (x : Float) : Prop where
  rolled : (sampled env m loc x m.world).2.rolled = m.world.rolled
  memory : (sampled env m loc x m.world).2.memory = m.world.memory

/-- Variables refer to stacks that stand where they stood. -/
theorem mapValues_relocate_shift {k : Nat} {bindings : Keyed Binding}
    (h : ∀ p ∈ bindings, p.2.block.Inside k) (k' : Nat) :
    Keyed.mapValues (Binding.relocate (shift k k')) bindings = bindings := by
  refine (List.map_congr_left fun p hp => ?_).trans (List.map_id' _)
  rw [Binding.relocate, (h p hp).relocate_shift]

/-- A sound machine samples in a later world as in its own, but for the places of new stacks. -/
theorem Later.sampler (he : env.Impartial) (hm : m.Sound) (hw : Later m.world w) (limit : Nat)
    (loc : Loc) (t : Fraction) :
    Relocated (shift m.world.store.heap.size w.store.heap.size) m.world.store.dice w.store.dice True
      (sampler env limit m loc t m.world) (sampler env limit m loc t w) := by
  have hrelocated : World.Relocated (shift m.world.store.heap.size w.store.heap.size)
      m.world.store.dice w.store.dice m.world w :=
    ⟨relocates_of_grows hm.world.heap hw.grows,
      hw.memory.trans (relocate_memory hm.world.memory _).symm, rfl, rfl⟩
  have htrial := relocated_trial (he _ (shift_injective hw.grows.size)) hrelocated limit m.workspace
    m.active.bindings [.ofFraction t] (m.heap.get loc)
  -- what the sample is made of refers to stacks of the old world
  have hbindings := mapValues_relocate_shift (k := m.world.store.heap.size)
    (hm.frames m.active List.mem_cons_self).2 w.store.heap.size
  have hstack : (m.heap.get loc).relocate (shift m.world.store.heap.size w.store.heap.size) =
      m.heap.get loc :=
    congrArg (fun blocks => { m.heap.get loc with blocks })
      (Block.map_relocate_shift (hm.world.heap loc) _)
  rw [relocate_workspace hm.world.workspace, hbindings, hstack] at htrial
  exact htrial

/-- The world after a sample has the stacks that were there before. -/
theorem grows_sampled (env : Environment) (m : Machine) (loc : Loc) (x : Float) (w : World) :
    w.store.heap.Grows (sampled env m loc x w).2.store.heap := by
  have hstart : Holds m.workspace w.store.heap
      (sampler env m.nestedBudget m loc (Fraction.ofFloat x) w) :=
    (holds_lasting env m.workspace w.store.heap).trial ⟨rfl, .refl _⟩ _ _ _
  exact hstart.2.trans (keeps_run env _).heap

/-- Whole runs take no notice of places either. -/
theorem run_shadows {σ : Loc → Loc} (hu : env.Uniform σ) (d d' : Dice) :
    Shadows σ d d' (run env) := by
  intro watched m n h
  have hrun := runAt_shadows hu d d' m.maxSteps h
  rw [run, run, h.maxSteps]
  exact hrun

/-- **A sample leaves nothing for the next one.** In a later world the function gives what it gives
at first, and the world is a later one again. -/
theorem Traceless.later (he : env.Impartial) (hm : m.Sound) (h : Traceless env m loc x)
    (hw : Later m.world w) :
    (∀ r, Gives env m loc w x r ↔ Gives env m loc m.world x r) ∧
      Later m.world (sampled env m loc x w).2 := by
  have hrun := run_shadows (he _ (shift_injective hw.grows.size)) _ _
    (hw.sampler he hm m.nestedBudget loc (Fraction.ofFloat x))
  rcases hrun with hmore | ⟨hvalues, hend⟩
  · have hrolled : m.world.rolled + 1 ≤ (sampled env m loc x m.world).2.rolled := hmore
    rw [h.rolled] at hrolled
    exact absurd hrolled (Nat.not_succ_le_self _)
  · have hagain : (sampled env m loc x w).1 = (sampled env m loc x m.world).1.map
        (Block.relocate (shift m.world.store.heap.size w.store.heap.size)) := hvalues
    have hmemory : (sampled env m loc x w).2.memory = (sampled env m loc x m.world).2.memory.relocate
        (shift m.world.store.heap.size w.store.heap.size) := hend.world.memory
    rw [h.memory, relocate_memory hm.world.memory] at hmemory
    refine ⟨fun r => ?_, hw.grows.trans (grows_sampled env m loc x w), hmemory⟩
    simp [Gives, hagain, List.map_eq_singleton_iff, Block.fraction?_relocate]

/-- What samples give that are taken by themselves: each of them a number, or one of them none. -/
def GiveAlone (env : Environment) (m : Machine) (loc : Loc) (xs : List Float) :
    Option (List Fraction) → Prop
  | some rs => List.Forall₂ (Gives env m loc m.world) xs rs
  | none => ∃ x ∈ xs, ∀ r, ¬ Gives env m loc m.world x r

/-- **Samples are independent.** Those that leave no trace give in a row what they give alone. -/
theorem Drawn.alone (he : env.Impartial) (hm : m.Sound) (h : Drawn env m loc xs w rs w')
    (hxs : ∀ x ∈ xs, Traceless env m loc x) (hw : Later m.world w) :
    GiveAlone env m loc xs rs := by
  induction h with
  | nil w => exact .nil
  | @cons x xs w w' r rs hx _ ih =>
    obtain ⟨hx₀, hrest⟩ := List.forall_mem_cons.1 hxs
    obtain ⟨hsame, hafter⟩ := hx₀.later he hm hw
    have halone := ih hrest hafter
    cases rs with
    | some rs => exact .cons ((hsame r).1 hx) halone
    | none =>
      obtain ⟨y, hy, hnone⟩ := halone
      exact ⟨y, List.mem_cons_of_mem x hy, hnone⟩
  | @failed x xs w hx =>
    obtain ⟨hsame, -⟩ := (hxs x List.mem_cons_self).later he hm hw
    exact ⟨x, List.mem_cons_self, fun r hr => hx r ((hsame r).2 hr)⟩

end BlockMachine.Machine
