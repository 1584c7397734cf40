import BlockMachine.Proofs.Machine.Coupling
import BlockMachine.Proofs.Machine.History
import BlockMachine.Proofs.Machine.Requests

/-!
# What the memory holds

Data blocks and functions are not meant to be state variables, and whatever sets a variable or a
default refuses them. Loading and reloading do not: they make variables from the texts of defaults
and take what the texts say.

* `Memory.Storable` — no variable is a data block or a function;
* `storable_lasting`, `runAt_memory` — programs keep it so;
* `Literal.isStorable`, `storable_reload_iff` — a default is made into a data block or a function if
  that is what its text is read as;
* `Request.reads` — the texts that a request makes variables from; `storable_serve_iff` — one
  request, `storable_throughout_iff` — requests one after the other.
-/

namespace BlockMachine

/-! ## Memories -/

/-- No variable of the memory is a data block or a function. -/
def Memory.Storable (mem : Memory) : Prop :=
  ∀ p ∈ mem, ∀ q ∈ p.2.values, q.2.isStorable = true

namespace Memory.Storable

variable {mem : Memory}

theorem object (h : mem.Storable) (id : String) :
    ∀ q ∈ (mem.object id).values, q.2.isStorable = true := by
  rw [Memory.object]
  cases hfound : Keyed.find? mem id with
  | none => exact List.forall_mem_nil _
  | some o => exact h _ (Keyed.mem_of_find? hfound)

/-- An object may be put in place of another. -/
theorem insert (h : mem.Storable) (id : String) {o : ObjectState}
    (ho : ∀ q ∈ o.values, q.2.isStorable = true) : Memory.Storable (Keyed.insert id o mem) := by
  intro p hp
  rcases Keyed.mem_insert hp with rfl | hp
  · exact ho
  · exact h p hp

theorem setVariable (h : mem.Storable) {heap : Heap} {id name : String} {value : Option Block}
    {mem' : Memory} {changed : Bool}
    (hset : mem.setVariable heap id name value = .ok (mem', changed)) : mem'.Storable := by
  cases value with
  | none =>
    obtain ⟨rfl, -⟩ := Prod.mk.inj (Except.ok.inj hset)
    exact h.insert id fun q hq => h.object id q (List.mem_of_mem_filter hq)
  | some b =>
    simp only [Memory.setVariable] at hset
    split at hset
    · cases hset
    · rename_i hb
      obtain ⟨rfl, -⟩ := Prod.mk.inj (Except.ok.inj hset)
      refine h.insert id fun q hq => ?_
      rcases Keyed.mem_insert hq with rfl | hq
      · simpa using hb
      · exact h.object id q hq

/-- Defaults are no variables. -/
theorem setDefault (h : mem.Storable) {heap : Heap} {id name : String} {value : Option Block}
    {mem' : Memory} (hset : mem.setDefault heap id name value = .ok mem') : mem'.Storable := by
  cases value with
  | none =>
    obtain rfl := Except.ok.inj hset
    exact h.insert id (h.object id)
  | some b =>
    simp only [Memory.setDefault] at hset
    split at hset
    · cases hset
    · obtain rfl := Except.ok.inj hset
      exact h.insert id (h.object id)

theorem setEach (heap : Heap) (id : String) (entries : List (String × Block)) :
    ∀ {mem : Memory}, mem.Storable → (Memory.setEach heap id entries mem).1.Storable := by
  induction entries with
  | nil =>
    intro mem h
    exact h
  | cons entry rest ih =>
    intro mem h
    obtain ⟨name, b⟩ := entry
    rw [Memory.setEach]
    split
    · rename_i hset
      exact ih (h.setDefault hset)
    · exact h

/-- References that follow a renamed object stay references. -/
theorem rename (h : mem.Storable) (env : Environment) (old new : String) :
    (mem.rename env old new).Storable := by
  have herased : Memory.Storable (Keyed.erase old mem) :=
    fun p hp => h p (List.mem_of_mem_filter hp)
  have hmoved := herased.insert new (h.object old)
  rintro p hp q hq
  obtain ⟨⟨id, o⟩, hmem, rfl⟩ := List.mem_map.1 hp
  obtain ⟨⟨name, b⟩, hvalue, rfl⟩ := List.mem_map.1 hq
  have hb := hmoved _ hmem _ hvalue
  cases b with
  | memory id => rfl
  | _ => exact hb

end Memory.Storable

/-! ## Defaults -/

/-- Whether a literal writes a block that can be a state variable. -/
def Literal.isStorable : Literal → Bool
  | .data _ | .code _ => false
  | _ => true

theorem Literal.isStorable_make (x : Literal) (l : Localizer) (st : Store) :
    (x.make l st).1.isStorable = x.isStorable := by
  cases x <;> rfl

namespace Memory

/-- The texts of all defaults. -/
def texts (mem : Memory) : List String :=
  mem.flatMap fun p => p.2.defaults.map Prod.snd

theorem storable_defaultBlocks_iff (env : Environment) (defaults : Keyed String) (st : Store) :
    (∀ q ∈ (defaultBlocks env defaults st).1, q.2.isStorable = true) ↔
      ∀ text ∈ defaults.map Prod.snd, (env.grammar.literal text).isStorable = true := by
  induction defaults generalizing st with
  | nil => exact iff_of_true (List.forall_mem_nil _) (List.forall_mem_nil _)
  | cons p rest ih =>
    obtain ⟨name, text⟩ := p
    simp only [defaultBlocks, List.map_cons, List.forall_mem_cons]
    rw [ih]
    exact and_congr_left' (by rw [Environment.block, Literal.isStorable_make])

/-- **Reloading** makes variables that can be stored if and only if the defaults read so. -/
theorem storable_reload_iff (env : Environment) (mem : Memory) (st : Store) :
    (reload env mem st).1.Storable ↔
      ∀ text ∈ mem.texts, (env.grammar.literal text).isStorable = true := by
  induction mem generalizing st with
  | nil => exact iff_of_true (List.forall_mem_nil _) (List.forall_mem_nil _)
  | cons p rest ih =>
    obtain ⟨id, o⟩ := p
    have hdefaults := storable_defaultBlocks_iff env o.defaults st
    have hrest := ih (defaultBlocks env o.defaults st).2
    simp only [Memory.Storable, Memory.texts, reload, List.forall_mem_cons, List.flatMap_cons,
      List.forall_mem_append] at hrest ⊢
    rw [hdefaults, hrest]

end Memory

namespace Machine

/-! ## Programs -/

section Programs

variable {env : Environment} {run : Runner} {m : Machine} {Q : Memory → Prop}

/-- The nested machine of an isolated call starts with the memory of its caller. -/
theorem memory_isolated (hP : Lasting env fun m => Q m.world.memory) (h : Q m.world.memory)
    (s : Stack) : Q (m.isolated env s).world.memory := by
  have hfresh := hP.assignEach (m := { m.nested m.remainingBudget with values := m.values }) h true
    m.active.bindings
  apply hP.insert
  exact hfresh

/-- Nested machines keep what a machine keeps of its memory, if their runner does. -/
theorem memory_sheltered (hP : Lasting env fun m => Q m.world.memory)
    (hrun : ∀ {m : Machine}, Q m.world.memory → Q (run m).2.world.memory) :
    Sheltered (fun m => Q m.world.memory) env run where
  sample {m} h bindings values s := by
    have hempty : Q (make m.nestedBudget m.workspace m.world).world.memory := h
    exact hrun (hP.trial hempty bindings values s)
  isolate {m} loc h _ := by
    have hsub := hrun (memory_isolated hP (m := m.obfuscate loc false) h
      ((m.obfuscate loc false).heap.get loc))
    rw [callIsolated]
    generalize run ((m.obfuscate loc false).isolated env ((m.obfuscate loc false).heap.get loc)) =
      x at hsub
    obtain ⟨result, sub⟩ := x
    have hback := hP.assignEach
      (m := { (m.obfuscate loc false).withoutWorld with world := sub.world }) hsub false
      sub.mainFrame.bindings
    exact hP.adopt hback result sub

/-- Runs keep of the memory what a machine keeps of it. -/
theorem runAt_memory (hP : Lasting env fun m => Q m.world.memory) (depth : Nat) :
    ∀ {m : Machine}, Q m.world.memory → Q (runAt env depth m).2.world.memory := by
  induction depth with
  | zero =>
    intro m h
    exact h
  | succ depth ih =>
    intro m h
    exact hP.runSteps (memory_sheltered hP ih) (fun h => h) m.maxSteps (m := m.started) h

/-- A machine stores only what can be stored. -/
theorem storable_lasting (env : Environment) :
    Lasting env fun m => m.world.memory.Storable where
  push b h := by simpa using h
  pop c h := by simpa using h
  alloc s h := h
  roll h := by
    rw [roll_eq]
    exact h
  nextAnonymous h := h
  setVariable h hs := by
    obtain ⟨memory, changed, log, hset, rfl⟩ := setVariable_eq hs
    exact h.setVariable hset
  frames a o h := h
  notify e _ h := by simpa using h
  afterFrame h := h

end Programs

end Machine

/-! ## Requests -/

/-- The texts that a request makes variables from, if the memory is the given one. -/
def Request.reads : Request → Memory → List String
  | .reload, mem => mem.texts
  | .loadMemory text, _ => ((Memory.readObjects? text).getD []).texts
  | _, _ => []

namespace Machine

section Requests

variable {env : Environment} {m : Machine}

theorem storable_settle {x : Except Error Machine} (h : m.world.memory.Storable)
    (hx : ∀ n, x = .ok n → n.world.memory.Storable) : (m.settle x).2.world.memory.Storable := by
  cases x with
  | error e => exact h
  | ok n => exact hx n rfl

theorem storable_loadProgram {n : Machine} {name : String} (h : m.world.memory.Storable)
    (hload : m.loadProgram env name = .ok n) : n.world.memory.Storable := by
  obtain ⟨loc, rfl⟩ := loadProgram_cases hload
  exact (storable_lasting env).insert (m := m.reset) h _

/-- **One request.** The memory holds no data block and no function after a request if and only if
the request reads none from a default. -/
theorem storable_serve_iff (env : Environment) (h : m.world.memory.Storable) (r : Request) :
    (m.serve env r).2.world.memory.Storable ↔
      ∀ text ∈ r.reads m.world.memory, (env.grammar.literal text).isStorable = true := by
  have hkept : ∀ {n : Machine}, n.world.memory.Storable →
      (n.world.memory.Storable ↔ ∀ text ∈ ([] : List String),
        (env.grammar.literal text).isStorable = true) :=
    fun hn => iff_of_true hn (List.forall_mem_nil _)
  have hP := storable_lasting env
  have hrun : ∀ {n : Machine}, n.world.memory.Storable →
      (n.run env).2.world.memory.Storable := fun hn => runAt_memory hP _ hn
  cases r with
  | load name =>
    rw [serve, Attempt.load_answer]
    exact hkept (storable_settle h fun n hn => storable_loadProgram h hn)
  | evaluate name =>
    rw [serve, Attempt.evaluate_answer]
    refine hkept (storable_settle h fun n hn => ?_)
    rw [runStack] at hn
    cases hload : m.loadProgram env name with
    | error e =>
      rw [hload] at hn
      cases hn
    | ok loaded =>
      rw [hload] at hn
      obtain rfl := Except.ok.inj hn
      exact hrun (storable_loadProgram h hload)
  | loadInputs text =>
    rw [serve, Attempt.loadInputs_answer]
    refine hkept (storable_settle h fun n hn => ?_)
    obtain ⟨columns, dice, bs, -, rfl⟩ := loadInputs_cases hn
    exact h
  | insert s => exact hkept (hP.insert h s)
  | advance => exact hkept (hP.step (memory_sheltered hP hrun) h)
  | run => exact hkept (hrun h)
  | setVariable id name value =>
    rw [serve, Attempt.setVariable_answer]
    refine hkept (storable_settle h fun n hn => ?_)
    obtain ⟨memory, changed, log, hset, rfl⟩ := setVariable_eq hn
    exact h.setVariable hset
  | setDefault id name value =>
    rw [serve, Attempt.setDefault_answer]
    refine hkept (storable_settle h fun n hn => ?_)
    cases hset : m.world.memory.setDefault m.heap id name value with
    | error e =>
      rw [hset] at hn
      cases hn
    | ok memory =>
      rw [hset] at hn
      obtain rfl := Except.ok.inj hn
      exact h.setDefault hset
  | setDefaults id inherited own =>
    have hbare : (m.world.memory.update id fun o => { o with values := [] }).Storable :=
      h.insert id (List.forall_mem_nil _)
    rw [serve, Attempt.setDefaults_answer]
    exact hkept (.setEach m.heap id (inherited ++ own) hbare)
  | reload => exact Memory.storable_reload_iff env m.world.memory m.world.store
  | rename old new => exact hkept (h.rename env old new)
  | create id => exact hkept (h.insert id (h.object id))
  | clear => exact hkept (List.forall_mem_nil _)
  | loadMemory text => exact Memory.storable_reload_iff env _ m.world.store

theorem served_concat (rs : List Request) (r : Request) (m : Machine) :
    served env (rs ++ [r]) m = ((served env rs m).serve env r).2 := by
  rw [served, List.foldl_append]
  rfl

/-- **What the memory holds.** In all states that a machine goes through while it serves requests,
no variable is a data block or a function, if and only if each time the memory is loaded or
reloaded, none of the defaults that are read then is the text of one. -/
theorem storable_throughout_iff (env : Environment) (m : Machine) (h : m.world.memory.Storable)
    (rs : List Request) :
    (∀ before, before <+: rs → (served env before m).world.memory.Storable) ↔
      ∀ before r after, rs = before ++ r :: after →
        ∀ text ∈ r.reads (served env before m).world.memory,
          (env.grammar.literal text).isStorable = true := by
  constructor
  · rintro hall before r after rfl
    have hbefore := hall before (List.prefix_append _ _)
    have hafter := hall (before ++ [r]) ⟨after, by simp⟩
    rw [served_concat] at hafter
    exact (storable_serve_iff env hbefore r).1 hafter
  · intro hread before
    induction before using List.reverseRecOn with
    | nil => exact fun _ => h
    | append_singleton before r ih =>
      rintro ⟨after, rfl⟩
      rw [served_concat]
      refine (storable_serve_iff env (ih ⟨r :: after, by simp⟩) r).2 ?_
      exact hread before r after (by simp)

/-- The saved form of a memory in which a robot has the text of a data block as a default. -/
def savedPath : String :=
  "\x7b\"robot\":\"\x7b\\\"defaults\\\":\x7b\\\"path\\\":\\\"@a\\\"\x7d\x7d\"\x7d"

/-- A machine that remembers nothing. -/
def forgetful : Machine :=
  make 10 Workspace.empty (World.ofSeed 0)

/-- Once it has loaded this, it has a data block in its memory. -/
theorem storable_throughout_iff_forgetful :
    forgetful.world.memory.Storable ∧
      (Request.loadMemory savedPath).reads forgetful.world.memory = ["@a"] ∧
      (Environment.standard.grammar.literal "@a").isStorable = false ∧
      ¬ ∀ before, before <+: [.loadMemory savedPath] →
        (served Environment.standard before forgetful).world.memory.Storable := by
  have hm : forgetful.world.memory.Storable := List.forall_mem_nil _
  have hreads : (Request.loadMemory savedPath).reads forgetful.world.memory = ["@a"] := by
    decide +kernel
  have hdata : (Environment.standard.grammar.literal "@a").isStorable = false := by decide +kernel
  refine ⟨hm, hreads, hdata, ?_⟩
  rw [storable_throughout_iff Environment.standard forgetful hm]
  intro hall
  have htext := hall [] (.loadMemory savedPath) [] rfl "@a"
  rw [show served Environment.standard [] forgetful = forgetful from rfl, hreads] at htext
  have hstorable := htext List.mem_cons_self
  rw [hdata] at hstorable
  cases hstorable

end Requests

end Machine

end BlockMachine
