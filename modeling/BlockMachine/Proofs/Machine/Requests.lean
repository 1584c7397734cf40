import BlockMachine.Machine.Host
import BlockMachine.Proofs.Machine.Invariance

/-!
# Requests of a host

What a host asks of a machine, as data. Requests are carried out on the machine in place, so one that
is refused on the way could leave something behind. It leaves the machine as it was, with one
exception: defaults that are set together are checked one by one, while they are set.

* `Attempt` — something that is done to a machine in place; `Attempt.load`, `Attempt.setVariable` and
  others — what may be refused, `Attempt.load_answer`, `Attempt.setVariable_answer` and others — it
  does what the functions do that give a machine only if they succeed;
* `Request`, `Machine.serve` — a request and what it does, `Machine.served` — several in order;
* `Memory.Same` — memories that no look-up tells apart;
* `Memory.record`, `Memory.setEach_cases` — what is left of defaults that are set together;
* `failed_request_keeps_iff` — when a refused request leaves no trace.
-/

namespace BlockMachine

theorem Keyed.insert_insert {α : Type} (key : String) (value value' : α) (m : Keyed α) :
    Keyed.insert key value (Keyed.insert key value' m) = Keyed.insert key value m := by
  induction m with
  | nil => simp [Keyed.insert]
  | cons p rest ih =>
    obtain ⟨k, v⟩ := p
    rw [Keyed.insert, Keyed.insert]
    by_cases heq : key = k
    · simp [Keyed.insert, heq]
    · by_cases hlt : key < k
      · simp [Keyed.insert, heq, hlt]
      · simp [Keyed.insert, heq, hlt, ih]

namespace Memory

variable (mem : Memory) (id : String)

theorem object_create : (mem.create id).object id = mem.object id := by
  rw [create, object, Keyed.find?_insert_self]
  rfl

/-- An object that is made sure of is there to be changed. -/
theorem update_create (f : ObjectState → ObjectState) :
    (mem.create id).update id f = mem.update id f := by
  rw [update, object_create, create, Keyed.insert_insert]
  rfl

end Memory

/-! ## In place -/

/-- Something that is done to a machine in place. An error ends it, and what was done before stays. -/
abbrev Attempt := ExceptT Error (StateM Machine)

namespace Machine

/-- The machine after something that gives a machine only if it succeeds. -/
def settle (m : Machine) : Except Error Machine → Option Error × Machine
  | .ok n => (none, n)
  | .error e => (some e, m)

theorem settle_of_some {m : Machine} {x : Except Error Machine} {e : Error}
    (h : (m.settle x).1 = some e) : (m.settle x).2 = m := by
  cases x with
  | error e' => rfl
  | ok n => cases h

/-- Lets the observer hear of a value that is not the one of the variable. -/
def announce (id name : String) (b : Block) (m : Machine) : Machine :=
  let old := (m.world.memory.object id).values.find? name
  if old.all fun old => !m.heap.equals b old then m.notify (.stored id name b) else m

theorem announce_memory (id name : String) (b : Block) (m : Machine) :
    (m.announce id name b).world.memory = m.world.memory := by
  rw [announce]
  split
  · exact (notify_world m _).2
  · rfl

/-- The observer hears the same, whatever is done to other objects. -/
theorem announce_withMemory {id : String} {m : Machine} {mem : Memory}
    (h : mem.object id = m.world.memory.object id) (name : String) (b : Block) (mem' : Memory) :
    ((m.withMemory mem).announce id name b).withMemory mem' =
      (m.announce id name b).withMemory mem' := by
  have hheap : (m.withMemory mem).heap = m.heap := rfl
  rw [announce, announce, show (m.withMemory mem).world.memory = mem from rfl, h, hheap]
  split
  · rw [notify, notify, show (m.withMemory mem).view = m.view from rfl]
    cases m.view.report (.stored id name b) with
    | none => rfl
    | some e => rfl
  · rfl

end Machine

namespace Attempt

/-- What went wrong in an attempt, and the machine after it. -/
def answer {α : Type} (x : Attempt α) (m : Machine) : Option Error × Machine :=
  match x.run m with
  | (.ok _, n) => (none, n)
  | (.error e, n) => (some e, n)

/-- Changes the memory. -/
def onMemory (f : Memory → Memory) : Attempt Unit :=
  modify fun m => m.withMemory (f m.world.memory)

/-- Refuses a block that memory does not take. -/
def checkStorable (name : String) (b : Block) : Attempt Unit :=
  if b.isStorable then pure () else throw (.unsupportedState name)

/-- Clears the machine and loads a stack of the workspace, if there is one. -/
def load (env : Environment) (name : String) : Attempt Unit := do
  let m ← get
  match m.workspace.find? m.heap name with
  | none => throw (.unknownStack name)
  | some loc =>
    modify Machine.reset
    modify (Machine.insert env (m.heap.get loc))

/-- Loads a stack and runs it. -/
def evaluate (env : Environment) (name : String) : Attempt (List Block) := do
  load env name
  modifyGet (Machine.run env)

/-- Makes the blocks of columns, rolls a place and replaces the value stack, if the text lists
inputs. -/
def loadInputs (env : Environment) (text : String) : Attempt Unit := do
  match env.grammar.columns? text with
  | none => throw .inputText
  | some columns =>
    let columns ← modifyGet fun m =>
      let (columns, store) := Machine.makeColumns env.localizer columns m.world.store
      (columns, m.withStore store)
    let place ← modifyGet fun m =>
      let alternatives := (columns.head?.map List.length).getD 0
      let (place, dice) := m.world.store.dice.int 0 (Float.ofNat alternatives)
      (place, m.withStore { m.world.store with dice })
    modify (Machine.loadValues (columns.filterMap fun column => column[Decimal.wholePart place]?))

/-- Checks the value, makes sure that the object exists, and sets the variable or deletes it. -/
def setVariable (id name : String) (value : Option Block) : Attempt Unit := do
  value.forM (checkStorable name)
  onMemory fun mem => mem.create id
  match value with
  | none => onMemory fun mem => mem.update id fun o => { o with values := Keyed.erase name o.values }
  | some b =>
    modify (Machine.announce id name b)
    onMemory fun mem => mem.update id fun o => { o with values := Keyed.insert name b o.values }

/-- Checks the value, makes sure that the object exists, and sets the default or deletes it. -/
def setDefault (id name : String) (value : Option Block) : Attempt Unit := do
  value.forM (checkStorable name)
  onMemory fun mem => mem.create id
  match value with
  | none =>
    onMemory fun mem => mem.update id fun o => { o with defaults := Keyed.erase name o.defaults }
  | some b =>
    let m ← get
    onMemory fun mem => mem.update id fun o =>
      { o with defaults := Keyed.insert name (m.heap.written b) o.defaults }

/-- Drops the variables of an object, then sets defaults one after the other. -/
def setDefaults (id : String) (entries : List (String × Block)) : Attempt Unit := do
  onMemory fun mem => mem.create id
  onMemory fun mem => mem.update id fun o => { o with values := [] }
  entries.forM fun (name, b) => setDefault id name (some b)

/-! What is done in place comes to what the functions say that give a machine only if they succeed. -/

section Answers

variable {α β : Type}

/-- One attempt after the other. -/
theorem answer_bind (x : Attempt α) (f : α → Attempt β) (m : Machine) :
    (x >>= f).answer m =
      match x.run m with
      | (.ok a, n) => (f a).answer n
      | (.error e, n) => (some e, n) := by
  have hrun : (x >>= f).run m =
      match x.run m with
      | (.ok a, n) => (f a).run n
      | (.error e, n) => (.error e, n) := by
    change (match x.run m with | (a, n) => ExceptT.bindCont f a n) = _
    rcases x.run m with ⟨e | a, n⟩
    · rfl
    · rfl
  rw [answer, hrun]
  rcases x.run m with ⟨e | a, n⟩
  · rfl
  · rfl

theorem load_answer (env : Environment) (name : String) (m : Machine) :
    (load env name).answer m = m.settle (m.loadProgram env name) := by
  rw [Machine.loadProgram, Machine.loadProgramBy, load, answer_bind]
  change answer (match m.workspace.find? m.heap name with
    | none => throw (.unknownStack name)
    | some loc => do
      modify Machine.reset
      modify (Machine.insert env (m.heap.get loc))) m = _
  cases m.workspace.find? m.heap name with
  | none => rfl
  | some loc => rfl

theorem evaluate_answer (env : Environment) (name : String) (m : Machine) :
    (evaluate env name).answer m = m.settle ((m.runStack env name).map Prod.snd) := by
  have hload := load_answer env name m
  rw [evaluate, answer_bind, Machine.runStack]
  rw [answer] at hload
  rcases hx : (load env name).run m with ⟨e | a, n⟩
  all_goals
    rw [hx] at hload
    rcases hm : m.loadProgram env name with e' | n'
    all_goals rw [hm] at hload
  · exact hload
  · cases hload
  · cases hload
  · -- the machine that is run is the one that was loaded
    obtain rfl := congrArg Prod.snd hload
    rfl

theorem loadInputs_answer (env : Environment) (text : String) (m : Machine) :
    (loadInputs env text).answer m = m.settle (m.loadInputs env text) := by
  rw [loadInputs, Machine.loadInputs]
  cases env.grammar.columns? text with
  | none => rfl
  | some columns => rfl

/-- A block is checked before anything is done. -/
theorem checked_answer (name : String) (b : Block) (x : Attempt α) (m : Machine) :
    ((some b).forM (checkStorable name) >>= fun _ => x).answer m =
      if b.isStorable then x.answer m else (some (.unsupportedState name), m) := by
  rw [answer_bind, Option.forM, checkStorable]
  cases b.isStorable with
  | true => rfl
  | false => rfl

theorem setVariable_answer (id name : String) (value : Option Block) (m : Machine) :
    (setVariable id name value).answer m = m.settle (m.setVariable id name value) := by
  cases value with
  | none =>
    change (none, (m.withMemory (m.world.memory.create id)).withMemory
      ((m.world.memory.create id).update id _)) = _
    rw [Memory.update_create]
    rfl
  | some b =>
    rw [setVariable, checked_answer, Machine.setVariable, Memory.setVariable]
    cases b.isStorable with
    | false => rfl
    | true =>
      -- the observer hears of the variable when the object is there, and before the value is
      change (none, ((m.withMemory (m.world.memory.create id)).announce id name b).withMemory
        (((m.withMemory (m.world.memory.create id)).announce id name b).world.memory.update id _)) =
          (none, (m.announce id name b).withMemory _)
      rw [Machine.announce_memory, Machine.announce_withMemory (Memory.object_create _ _)]
      exact congrArg (fun mem => (none, (m.announce id name b).withMemory mem))
        (Memory.update_create _ _ _)

theorem setDefault_answer (id name : String) (value : Option Block) (m : Machine) :
    (setDefault id name value).answer m =
      m.settle ((m.world.memory.setDefault m.heap id name value).map fun memory =>
        m.withMemory memory) := by
  cases value with
  | none =>
    change (none, (m.withMemory (m.world.memory.create id)).withMemory
      ((m.world.memory.create id).update id _)) = _
    rw [Memory.update_create]
    rfl
  | some b =>
    rw [setDefault, checked_answer, Memory.setDefault]
    cases b.isStorable with
    | false => rfl
    | true =>
      change (none, (m.withMemory (m.world.memory.create id)).withMemory
        ((m.world.memory.create id).update id _)) = _
      rw [Memory.update_create]
      rfl

/-- Defaults that are set one after the other. -/
theorem setEach_answer (id : String) (entries : List (String × Block)) : ∀ m : Machine,
    Attempt.answer (entries.forM fun (name, b) => setDefault id name (some b)) m =
      ((Memory.setEach m.heap id entries m.world.memory).2,
        m.withMemory (Memory.setEach m.heap id entries m.world.memory).1) := by
  induction entries with
  | nil => exact fun m => rfl
  | cons entry rest ih =>
    intro m
    obtain ⟨name, b⟩ := entry
    have hfirst := setDefault_answer id name (some b) m
    rw [answer] at hfirst
    rw [List.forM, answer_bind, Memory.setEach]
    rcases hx : (setDefault id name (some b)).run m with ⟨e | a, n⟩
    all_goals
      rw [hx] at hfirst
      rcases hm : m.world.memory.setDefault m.heap id name (some b) with e' | memory
      all_goals rw [hm] at hfirst
    · -- the entry is refused, and those behind it are not tried
      exact hfirst
    · cases hfirst
    · cases hfirst
    · obtain rfl := congrArg Prod.snd hfirst
      exact ih _

theorem setDefaults_answer (id : String) (entries : List (String × Block)) (m : Machine) :
    (setDefaults id entries).answer m =
      ((m.world.memory.setDefaults m.heap id entries).2,
        m.withMemory (m.world.memory.setDefaults m.heap id entries).1) := by
  rw [Memory.setDefaults, ← Memory.update_create]
  exact setEach_answer id entries _

end Answers

end Attempt

/-! ## Requests -/

/-- What a host asks of a machine. -/
inductive Request where
  /-- Load a stack of the workspace as the main program. -/
  | load (name : String)
  /-- Load a stack of the workspace and run it. -/
  | evaluate (name : String)
  | loadInputs (text : String)
  /-- Run a stack from the active frame. -/
  | insert (s : Stack)
  /-- Take one step. -/
  | advance
  | run
  /-- Set a state variable, or delete it. -/
  | setVariable (id name : String) (value : Option Block)
  /-- Set a default, or delete it. -/
  | setDefault (id name : String) (value : Option Block)
  /-- Drop the variables of an object and set defaults: first those that it inherits, then its
  own. -/
  | setDefaults (id : String) (inherited own : List (String × Block))
  | reload
  | rename (old new : String)
  | create (id : String)
  | clear
  | loadMemory (text : String)

namespace Machine

/-- Does what a host asks for, and tells what went wrong. -/
def serve (env : Environment) : Request → Machine → Option Error × Machine
  | .load name, m => (Attempt.load env name).answer m
  | .evaluate name, m => (Attempt.evaluate env name).answer m
  | .loadInputs text, m => (Attempt.loadInputs env text).answer m
  | .insert s, m => (none, m.insert env s)
  | .advance, m => (none, (m.advance env).2)
  | .run, m => (none, (m.run env).2)
  | .setVariable id name value, m => (Attempt.setVariable id name value).answer m
  | .setDefault id name value, m => (Attempt.setDefault id name value).answer m
  | .setDefaults id inherited own, m => (Attempt.setDefaults id (inherited ++ own)).answer m
  | .reload, m => (none, m.reloadMemory env)
  | .rename old new, m => (none, m.withMemory (m.world.memory.rename env old new))
  | .create id, m => (none, m.withMemory (m.world.memory.create id))
  | .clear, m => (none, m.clearMemory)
  | .loadMemory text, m => (none, m.loadMemory env text)

/-- The machine after requests, whether they were refused or not. -/
def served (env : Environment) (rs : List Request) (m : Machine) : Machine :=
  rs.foldl (fun m r => (m.serve env r).2) m

end Machine

/-! ## Memories -/

namespace Memory

/-- Two memories with the same objects, and these with the same variables and defaults. -/
structure Same (mem mem' : Memory) : Prop where
  known : ∀ id, (mem'.find? id).isSome = (mem.find? id).isSome
  values : ∀ id name, (mem'.object id).values.find? name = (mem.object id).values.find? name
  defaults : ∀ id name, (mem'.object id).defaults.find? name = (mem.object id).defaults.find? name

theorem Same.refl (mem : Memory) : Same mem mem :=
  ⟨fun _ => rfl, fun _ _ => rfl, fun _ _ => rfl⟩

/-- Whether a default is accepted. -/
def accepted (entry : String × Block) : Bool :=
  entry.2.isStorable

/-- Defaults after entries are recorded in order. -/
def record (h : Heap) (entries : List (String × Block)) (defaults : Keyed String) : Keyed String :=
  entries.foldl (fun defaults (name, b) => Keyed.insert name (h.written b) defaults) defaults

/-- Changing an object leaves it there, and the others alone. -/
theorem update_cases (mem : Memory) (id : String) (f : ObjectState → ObjectState) :
    ((mem.update id f).find? id).isSome = true ∧ (mem.update id f).object id = f (mem.object id) ∧
      ∀ other, other ≠ id → (mem.update id f).find? other = mem.find? other := by
  have hself : (mem.update id f).find? id = some (f (mem.object id)) :=
    Keyed.find?_insert_self _ _ _
  refine ⟨by rw [hself]; rfl, ?_, fun other h => Keyed.find?_insert_of_ne _ _ h⟩
  rw [object, hself]
  rfl

/-- Setting defaults one after the other records those before the first that is refused. -/
theorem setEach_cases (h : Heap) (id : String) (entries : List (String × Block)) :
    ∀ mem : Memory, (mem.find? id).isSome = true →
      ((setEach h id entries mem).1.find? id).isSome = true ∧
        (setEach h id entries mem).1.object id =
          ⟨(mem.object id).values,
            record h (entries.takeWhile accepted) (mem.object id).defaults⟩ ∧
        ∀ other, other ≠ id → (setEach h id entries mem).1.find? other = mem.find? other := by
  induction entries with
  | nil =>
    intro mem hknown
    exact ⟨hknown, rfl, fun _ _ => rfl⟩
  | cons entry rest ih =>
    intro mem hknown
    obtain ⟨name, b⟩ := entry
    rw [setEach]
    cases hb : b.isStorable with
    | false =>
      simp only [setDefault, hb, Bool.not_false, if_true, List.takeWhile_cons, accepted]
      exact ⟨hknown, rfl, fun _ _ => trivial⟩
    | true =>
      simp only [setDefault, hb, Bool.not_true, Bool.false_eq_true, if_false,
        List.takeWhile_cons, accepted, if_true]
      obtain ⟨hsome, hobject, hothers⟩ := update_cases mem id fun o =>
        { o with defaults := Keyed.insert name (h.written b) o.defaults }
      obtain ⟨hsome', hobject', hothers'⟩ := ih _ hsome
      refine ⟨hsome', ?_, fun other hne => (hothers' other hne).trans (hothers other hne)⟩
      rw [hobject', hobject]
      rfl

/-! ## Recorded defaults -/

section Record

variable {h : Heap} {entries before after : List (String × Block)} {defaults : Keyed String}
  {name : String} {b : Block}

theorem find?_record_of_not_mem (hname : name ∉ entries.map Prod.fst) (defaults : Keyed String) :
    (record h entries defaults).find? name = defaults.find? name := by
  induction entries generalizing defaults with
  | nil => rfl
  | cons entry rest ih =>
    have hne : name ≠ entry.1 := fun h => hname (h ▸ List.mem_cons_self)
    have hrest : name ∉ rest.map Prod.fst := fun h => hname (List.mem_cons_of_mem _ h)
    exact (ih hrest _).trans (Keyed.find?_insert_of_ne _ _ hne)

/-- The last entry of a name counts. -/
theorem find?_record_last (hname : name ∉ after.map Prod.fst) (defaults : Keyed String) :
    (record h (before ++ (name, b) :: after) defaults).find? name = some (h.written b) := by
  rw [record, List.foldl_append, List.foldl_cons]
  exact (find?_record_of_not_mem hname _).trans (Keyed.find?_insert_self _ _ _)

theorem exists_last (hname : name ∈ entries.map Prod.fst) :
    ∃ before b after, entries = before ++ (name, b) :: after ∧ name ∉ after.map Prod.fst := by
  induction entries with
  | nil => cases hname
  | cons entry rest ih =>
    obtain ⟨other, c⟩ := entry
    by_cases hrest : name ∈ rest.map Prod.fst
    · obtain ⟨before, b, after, rfl, hafter⟩ := ih hrest
      exact ⟨(other, c) :: before, b, after, rfl, hafter⟩
    · obtain rfl : name = other := (List.mem_cons.1 hname).resolve_right hrest
      exact ⟨[], c, rest, rfl, hrest⟩

/-- Recording changes nothing if what is recorded last under each name is there. -/
theorem record_same_iff :
    (∀ name, (record h entries defaults).find? name = defaults.find? name) ↔
      ∀ before name b after, entries = before ++ (name, b) :: after →
        name ∉ after.map Prod.fst → defaults.find? name = some (h.written b) := by
  constructor
  · rintro hsame before name b after rfl hafter
    rw [← hsame name, find?_record_last hafter]
  · intro hthere name
    by_cases hname : name ∈ entries.map Prod.fst
    · obtain ⟨before, b, after, rfl, hafter⟩ := exists_last hname
      rw [find?_record_last hafter, hthere before name b after rfl hafter]
    · exact find?_record_of_not_mem hname defaults

end Record

end Memory

namespace Machine

/-! ## Refused requests -/

/-- The object of an id is known, has no variables, and already has the defaults that are recorded
from entries before the first that is refused. -/
structure Settled (m : Machine) (id : String) (entries : List (String × Block)) : Prop where
  known : (m.world.memory.find? id).isSome = true
  bare : ∀ name, (m.world.memory.object id).values.find? name = none
  recorded : ∀ before name b after,
    entries.takeWhile Memory.accepted = before ++ (name, b) :: after →
      name ∉ after.map Prod.fst →
        (m.world.memory.object id).defaults.find? name = some (m.heap.written b)

/-- Setting defaults together leaves no trace on an object that is settled already. -/
theorem setDefaults_same_iff (m : Machine) (id : String) (entries : List (String × Block)) :
    m.world.memory.Same (m.world.memory.setDefaults m.heap id entries).1 ↔
      m.Settled id entries := by
  obtain ⟨hsome, hobject, hothers⟩ :=
    m.world.memory.update_cases id fun o => { o with values := [] }
  obtain ⟨hsome', hobject', hothers'⟩ :=
    Memory.setEach_cases m.heap id entries (m.world.memory.update id _) hsome
  rw [hobject] at hobject'
  have hsame : ∀ other, other ≠ id →
      (m.world.memory.setDefaults m.heap id entries).1.find? other = m.world.memory.find? other :=
    fun other hne => (hothers' other hne).trans (hothers other hne)
  rw [Memory.setDefaults] at hsame ⊢
  constructor
  · intro h
    refine ⟨?_, ?_, ?_⟩
    · rw [← h.known, hsome']
    · intro name
      rw [← h.values, hobject']
      rfl
    · apply Memory.record_same_iff.1
      intro name
      rw [← h.defaults, hobject']
  · intro h
    refine ⟨?_, ?_, ?_⟩
    · intro other
      by_cases hne : other = id
      · rw [hne, hsome', h.known]
      · rw [hsame other hne]
    · intro other name
      by_cases hne : other = id
      · rw [hne, hobject', h.bare]
        rfl
      · rw [Memory.object, hsame other hne, Memory.object]
    · intro other name
      by_cases hne : other = id
      · rw [hne, hobject']
        exact Memory.record_same_iff.2 h.recorded name
      · rw [Memory.object, hsame other hne, Memory.object]

theorem serve_of_failed {env : Environment} {m : Machine} {r : Request} {e : Error}
    (h : (m.serve env r).1 = some e)
    (hr : ∀ id inherited own, r ≠ .setDefaults id inherited own) : (m.serve env r).2 = m := by
  cases r with
  | load name =>
    rw [serve, Attempt.load_answer] at h ⊢
    exact settle_of_some h
  | evaluate name =>
    rw [serve, Attempt.evaluate_answer] at h ⊢
    exact settle_of_some h
  | loadInputs text =>
    rw [serve, Attempt.loadInputs_answer] at h ⊢
    exact settle_of_some h
  | setVariable id name value =>
    rw [serve, Attempt.setVariable_answer] at h ⊢
    exact settle_of_some h
  | setDefault id name value =>
    rw [serve, Attempt.setDefault_answer] at h ⊢
    exact settle_of_some h
  | setDefaults id inherited own => exact absurd rfl (hr id inherited own)
  | _ => cases h

/-- **Refused requests.** A request that fails leaves all but the memory as it was. Only one that
sets defaults together can leave a trace in the memory, and it does not if and only if its object is
known, has no variables, and has the defaults that come before the one that is refused. -/
theorem failed_request_keeps_iff (env : Environment) (m : Machine) (r : Request) (e : Error)
    (h : (m.serve env r).1 = some e) :
    (m.serve env r).2 = m.withMemory (m.serve env r).2.world.memory ∧
      ((∀ id inherited own, r ≠ .setDefaults id inherited own) → (m.serve env r).2 = m) ∧
      (m.world.memory.Same (m.serve env r).2.world.memory ↔
        ∀ id inherited own, r = .setDefaults id inherited own →
          m.Settled id (inherited ++ own)) := by
  by_cases hr : ∃ id inherited own, r = .setDefaults id inherited own
  · obtain ⟨id, inherited, own, rfl⟩ := hr
    rw [serve, Attempt.setDefaults_answer]
    refine ⟨rfl, fun hother => absurd rfl (hother id inherited own), ?_⟩
    refine (setDefaults_same_iff m id (inherited ++ own)).trans ⟨?_, ?_⟩
    · rintro hsettled id' inherited' own' ⟨⟩
      exact hsettled
    · intro hall
      exact hall id inherited own rfl
  · have hother : ∀ id inherited own, r ≠ .setDefaults id inherited own :=
      fun id inherited own heq => hr ⟨id, inherited, own, heq⟩
    rw [serve_of_failed h hother]
    exact ⟨rfl, fun _ => rfl,
      iff_of_true (.refl _) fun id inherited own heq => absurd heq (hother id inherited own)⟩

/-- A machine that remembers a robot with a speed. -/
def robotHost : Machine :=
  make 10 Workspace.empty
    ⟨Store.ofSeed 0, [("robot", ⟨[("speed", .ofFloat 9)], []⟩)], []⟩

/-- The second of two defaults is refused. The first stays, and the speed is gone. -/
theorem failed_request_keeps_iff_robotHost :
    let r := Request.setDefaults "robot" [] [("a", .ofFloat 1), ("path", .data 0 false)]
    (robotHost.serve Environment.standard r).1 = some (.unsupportedState "path") ∧
      ¬ robotHost.Settled "robot" ([] ++ [("a", .ofFloat 1), ("path", .data 0 false)]) ∧
      ¬ robotHost.world.memory.Same (robotHost.serve Environment.standard r).2.world.memory := by
  intro r
  have hfail : (robotHost.serve Environment.standard r).1 = some (.unsupportedState "path") := rfl
  have hspeed : ¬ robotHost.Settled "robot" ([] ++ [("a", .ofFloat 1), ("path", .data 0 false)]) :=
    fun h => Option.some_ne_none _ (h.bare "speed")
  obtain ⟨-, -, hiff⟩ := failed_request_keeps_iff Environment.standard robotHost r _ hfail
  exact ⟨hfail, hspeed, fun hsame => hspeed (hiff.1 hsame "robot" [] _ rfl)⟩

end Machine

end BlockMachine
