import BlockMachine.Proofs.Heap.Relocation
import BlockMachine.Proofs.Machine.Persistence

/-!
# References stay in the heap

A machine gets a reference to a stack from a block that it has or from the heap, when a stack is
added. So no block on it ever refers to a stack that is not there.

* `Block.Inside k` — the block refers to one of the first `k` stacks, or to none; a shift of the
  places behind these leaves it alone;
* `World.Closed`, `Machine.Sound` — all blocks of a world or a machine refer to stacks of its heap;
* `Machine.Knows`, `Safe` — a block in flight does, and an outcome with such blocks;
* `Sound.push`, `Sound.alloc`, `Sound.newVersion`, `Sound.assign`, `Sound.insert` — what a machine
  does to its values, its heap and its frames keeps it sound.
-/

namespace BlockMachine

/-! ## Blocks, frames and worlds -/

/-- The block refers to one of the first `k` stacks, or to none. -/
def Block.Inside (k : Nat) (b : Block) : Prop :=
  ∀ loc, b.target? = some loc → loc < k

theorem Block.Inside.mono {k k' : Nat} {b : Block} (h : b.Inside k) (hle : k ≤ k') : b.Inside k' :=
  fun loc hloc => Nat.lt_of_lt_of_le (h loc hloc) hle

theorem Block.inside_of_none {b : Block} (h : b.target? = none) (k : Nat) : b.Inside k := by
  intro loc hloc
  rw [h] at hloc
  cases hloc

/-- The places from `k` on moved to those from `k'` on. -/
def shift (k k' loc : Nat) : Nat :=
  if loc < k then loc else k' + (loc - k)

theorem shift_injective {k k' : Nat} (hle : k ≤ k') : Function.Injective (shift k k') := by
  intro a b hab
  simp only [shift] at hab
  split at hab
  · split at hab
    · exact hab
    · omega
  · split at hab
    · omega
    · omega

theorem shift_of_lt {k loc : Nat} (k' : Nat) (hlt : loc < k) : shift k k' loc = loc :=
  if_pos hlt

theorem lt_of_shift {k loc : Nat} (h : shift k (k + 1) loc = loc) : loc < k := by
  rw [shift] at h
  split at h
  · assumption
  · omega

namespace Block

/-- A shift of the places behind the first `k` leaves a block alone that refers to these. -/
theorem Inside.relocate_shift {k : Nat} {b : Block} (h : b.Inside k) (k' : Nat) :
    b.relocate (shift k k') = b := by
  cases b with
  | null loc => exact congrArg null (shift_of_lt k' (h loc rfl))
  | data loc resolved => exact congrArg (data · resolved) (shift_of_lt k' (h loc rfl))
  | package loc => exact congrArg package (shift_of_lt k' (h loc rfl))
  | code name target =>
    cases target with
    | none => rfl
    | some loc => exact congrArg (fun loc => code name (some loc)) (shift_of_lt k' (h loc rfl))
  | _ => rfl

theorem map_relocate_shift {k : Nat} {bs : List Block} (h : ∀ b ∈ bs, b.Inside k) (k' : Nat) :
    bs.map (relocate (shift k k')) = bs :=
  (List.map_congr_left fun b hb => (h b hb).relocate_shift k').trans (List.map_id' _)

/-- No other block is left alone. -/
theorem inside_of_relocate_shift {k : Nat} {b : Block} (h : b.relocate (shift k (k + 1)) = b) :
    b.Inside k := by
  intro loc hloc
  have hmoved := congrArg target? h
  rw [target?_relocate, hloc] at hmoved
  exact lt_of_shift (Option.some.inj hmoved)

end Block

/-- The program and the variables of a frame refer to the first `k` stacks. -/
def Frame.Inside (k : Nat) (f : Frame) : Prop :=
  (∀ b, .block b ∈ f.program → b.Inside k) ∧ ∀ p ∈ f.bindings, p.2.block.Inside k

theorem Frame.Inside.mono {k k' : Nat} {f : Frame} (h : f.Inside k) (hle : k ≤ k') : f.Inside k' :=
  ⟨fun b hb => (h.1 b hb).mono hle, fun p hp => (h.2 p hp).mono hle⟩

/-- The variables of objects refer to the first `k` stacks. -/
def Memory.Inside (k : Nat) (mem : Memory) : Prop :=
  ∀ p ∈ mem, ∀ q ∈ p.2.values, q.2.Inside k

theorem Memory.Inside.mono {k k' : Nat} {mem : Memory} (h : mem.Inside k) (hle : k ≤ k') :
    mem.Inside k' :=
  fun p hp q hq => (h p hp q hq).mono hle

/-- The blocks of stacks refer to stacks of the heap. -/
def Heap.Closed (h : Heap) : Prop :=
  ∀ loc, ∀ b ∈ h.blocks loc, b.Inside h.size

/-- A new stack whose blocks refer to stacks that are there. -/
theorem Heap.Closed.alloc {h : Heap} (hc : h.Closed) {s : Stack}
    (hs : ∀ b ∈ s.blocks, b.Inside h.size) : (h.alloc s).2.Closed := by
  have hle := (Heap.Grows.alloc h s).size
  intro loc b hb
  rcases Nat.lt_trichotomy loc h.size with hlt | rfl | hgt
  · rw [Heap.blocks, Heap.get_alloc_of_lt h s hlt] at hb
    exact (hc loc b hb).mono hle
  · rw [Heap.blocks, show (h.alloc s).2.get h.size = s from Heap.get_alloc_self h s] at hb
    exact (hs b hb).mono hle
  · rw [Heap.blocks, Heap.get_of_size_le _ (by rw [Heap.size_alloc]; exact hgt)] at hb
    cases hb

/-- The workspace, the stacks and the memory refer to stacks of the heap. -/
structure World.Closed (workspace : Workspace) (w : World) : Prop where
  workspace : ∀ loc ∈ workspace.locs, loc < w.store.heap.size
  heap : w.store.heap.Closed
  memory : w.memory.Inside w.store.heap.size

theorem Frame.Inside.bind {k : Nat} {f : Frame} (h : f.Inside k) (name : String) (parameter : Bool)
    {b : Block} (hb : b.Inside k) : (f.bind name parameter b).Inside k := by
  refine ⟨h.1, fun p hp => ?_⟩
  rcases Keyed.mem_insert hp with rfl | hp
  · exact hb
  · exact h.2 p hp

/-- A name bound in a chain of frames. -/
theorem Frame.inside_bindUp {k : Nat} (name : String) {b : Block} (hb : b.Inside k)
    (fs : List Frame) (h : ∀ f ∈ fs, f.Inside k) :
    ∀ parameter : Bool, ∀ f ∈ bindUp name b parameter fs, f.Inside k := by
  induction fs with
  | nil =>
    intro parameter f hf
    cases hf
  | cons g outer ih =>
    intro parameter f hf
    have houter : ∀ f ∈ outer, f.Inside k := fun f hf => h f (List.mem_cons_of_mem _ hf)
    rw [bindUp_cons] at hf
    rcases List.mem_cons.1 hf with rfl | hf
    · exact (h g List.mem_cons_self).bind name _ hb
    · split at hf
      · exact houter f hf
      · exact ih houter false f hf

theorem Frame.inside_bindEach {k : Nat} (bound : List (String × Block)) :
    ∀ {f : Frame}, f.Inside k → (∀ p ∈ bound, p.2.Inside k) → (bindEach bound f).Inside k := by
  induction bound with
  | nil =>
    intro f hf _
    exact hf
  | cons p bound ih =>
    intro f hf hbound
    exact ih (hf.bind p.1 true (hbound p List.mem_cons_self))
      fun q hq => hbound q (List.mem_cons_of_mem _ hq)

theorem Frame.inside_fetch {k : Nat} {fs : List Frame} (h : ∀ f ∈ fs, f.Inside k) {name : String}
    {b : Block} (hb : fetch fs name = some b) : b.Inside k := by
  obtain ⟨f, hf, hfound⟩ := List.exists_of_findSome?_eq_some hb
  obtain ⟨v, hv, rfl⟩ := Option.map_eq_some_iff.1 hfound
  exact (h f hf).2 _ (Keyed.mem_of_find? hv)

/-! ## Memory -/

theorem Memory.Inside.object {k : Nat} {mem : Memory} (h : mem.Inside k) (id : String) :
    ∀ q ∈ (mem.object id).values, q.2.Inside k := by
  rw [Memory.object]
  cases hfound : Keyed.find? mem id with
  | none => exact fun q hq => absurd hq List.not_mem_nil
  | some o => exact h _ (Keyed.mem_of_find? hfound)

theorem Memory.Inside.variableOf {k : Nat} {mem : Memory} (h : mem.Inside k) (l : Localizer)
    (id name : String) : (mem.variableOf l id name).Inside k := by
  rw [Memory.variableOf]
  split
  · rename_i b hfound
    exact h.object id _ (Keyed.mem_of_find? hfound)
  · exact Block.inside_of_none rfl k

theorem Memory.Inside.setVariable {k : Nat} {mem mem' : Memory} (h : mem.Inside k) {heap : Heap}
    {id name : String} {b : Block} (hb : b.Inside k) {changed : Bool}
    (hset : mem.setVariable heap id name (some b) = .ok (mem', changed)) : mem'.Inside k := by
  simp only [Memory.setVariable] at hset
  split at hset
  · cases hset
  · obtain ⟨rfl, -⟩ := Prod.mk.inj (Except.ok.inj hset)
    intro p hp q hq
    rcases Keyed.mem_insert hp with rfl | hp
    · rcases Keyed.mem_insert hq with rfl | hq
      · exact hb
      · exact h.object id q hq
    · exact h p hp q hq

/-! ## What is read -/

namespace Literal

/-- The block of a literal refers to a stack that is added for it, or to none. -/
theorem make_closed {l : Localizer} (x : Literal) {st : Store} (hc : st.heap.Closed) :
    (x.make l st).2.heap.Closed ∧ (x.make l st).1.Inside (x.make l st).2.heap.size := by
  have hnew : ∀ {h : Heap} {s : Stack} {b : Block}, b.target? = some h.size →
      b.Inside (h.alloc s).2.size := by
    intro h s b hb loc hloc
    obtain rfl := Option.some.inj (hb.symm.trans hloc)
    exact Heap.size_lt_alloc h s
  induction x with
  | null => exact ⟨hc.alloc (by simp [Stack.make]), hnew rfl⟩
  | data name => exact ⟨hc.alloc (by simp [Stack.make]), hnew rfl⟩
  | package inner ih => exact ⟨ih.1.alloc (by simpa [Stack.make] using ih.2), hnew rfl⟩
  | _ => exact ⟨hc, Block.inside_of_none rfl _⟩

theorem makeAll_closed {l : Localizer} (xs : List Literal) :
    ∀ {st : Store}, st.heap.Closed → (makeAll l xs st).2.heap.Closed ∧
      ∀ b ∈ (makeAll l xs st).1, b.Inside (makeAll l xs st).2.heap.size := by
  induction xs with
  | nil =>
    intro st hc
    exact ⟨hc, fun b hb => absurd hb List.not_mem_nil⟩
  | cons x xs ih =>
    intro st hc
    obtain ⟨hx, hb⟩ := make_closed (l := l) x hc
    obtain ⟨hxs, hbs⟩ := ih hx
    refine ⟨hxs, fun c hc => ?_⟩
    rcases List.mem_cons.1 hc with rfl | hc
    · exact hb.mono (makeAll_grows l xs _).size
    · exact hbs c hc

end Literal

namespace Workspace

/-- A block is bound to a stack of the workspace, or stays as it is. -/
theorem inside_resolve {ws : Workspace} {h : Heap} (hws : ∀ loc ∈ ws.locs, loc < h.size) {b : Block}
    (hb : b.Inside h.size) : (ws.resolve h b).Inside h.size := by
  have hfound : ∀ {name : String} {loc : Loc}, ws.find? h name = some loc → loc < h.size :=
    fun hf => hws _ (List.mem_of_find?_eq_some hf)
  intro loc hloc
  simp only [resolve] at hloc
  split at hloc
  · split at hloc
    · rename_i hf
      obtain rfl := Option.some.inj hloc
      exact hfound hf
    · exact hb loc hloc
  · exact hfound hloc
  · exact hb loc hloc

theorem allocRecords_closed {l : Localizer} (rs : List Record) :
    ∀ {ws : Workspace} {st : Store}, st.heap.Closed → (∀ loc ∈ ws.locs, loc < st.heap.size) →
      (allocRecords l rs ws st).2.heap.Closed ∧
        ∀ loc ∈ (allocRecords l rs ws st).1.locs, loc < (allocRecords l rs ws st).2.heap.size := by
  induction rs with
  | nil =>
    intro ws st hc hws
    exact ⟨hc, hws⟩
  | cons r rs ih =>
    intro ws st hc hws
    obtain ⟨hbody, hblocks⟩ := Literal.makeAll_closed (l := l) r.body hc
    have hgrows := (Literal.makeAll_grows l r.body st).trans (afterRecord_grows l r st)
    rw [allocRecords_cons]
    refine ih (hbody.alloc hblocks) fun loc hloc => ?_
    rcases List.mem_append.1 hloc with hloc | hloc
    · exact Nat.lt_of_lt_of_le (hws loc hloc) hgrows.size
    · obtain rfl := List.mem_singleton.1 hloc
      exact Heap.size_lt_alloc _ _

theorem link_closed {ws : Workspace} {h : Heap} (hc : h.Closed) (hnodup : ws.locs.Nodup)
    (hws : ∀ loc ∈ ws.locs, loc < h.size) : (ws.link h).Closed := by
  have hsize : (ws.link h).size = h.size := size_foldl_modify ws.locs h
  intro loc b hb
  rw [Heap.blocks, get_link hnodup hws] at hb
  rw [hsize]
  split at hb
  · obtain ⟨c, hmem, rfl⟩ := List.mem_map.1 hb
    exact inside_resolve hws (hc loc c hmem)
  · exact hc loc b hb

end Workspace

namespace Machine

/-! ## Machines -/

/-- The stack that a block refers to, if it does, is in the heap. -/
def Knows (m : Machine) (b : Block) : Prop :=
  b.Inside m.heap.size

/-- All blocks of the machine refer to stacks of its heap. -/
structure Sound (m : Machine) : Prop where
  world : World.Closed m.workspace m.world
  values : ∀ b ∈ m.values, m.Knows b
  frames : ∀ f ∈ m.frames, f.Inside m.heap.size

/-- A sound machine with blocks in flight that refer to stacks of its heap. -/
def Safe {γ : Type} [Membership Block γ] (x : γ × Machine) : Prop :=
  x.2.Sound ∧ ∀ b ∈ x.1, x.2.Knows b

section Primitives

variable {m n : Machine} {b : Block}

theorem knows_of_none (m : Machine) (h : b.target? = none) : m.Knows b :=
  Block.inside_of_none h _

theorem Knows.of_size (h : m.Knows b) (hsize : m.heap.size ≤ n.heap.size) : n.Knows b :=
  h.mono hsize

/-- A new machine on a closed world. -/
theorem sound_make {workspace : Workspace} {w : World} (hw : World.Closed workspace w)
    (maxSteps : Nat) : (make maxSteps workspace w).Sound := by
  refine ⟨hw, fun b hb => absurd hb List.not_mem_nil, fun f hf => ?_⟩
  obtain rfl := List.mem_singleton.1 hf
  exact ⟨fun b hb => absurd hb List.not_mem_nil, fun p hp => absurd hp List.not_mem_nil⟩

/-- A machine with the same heap, memory and workspace and no new blocks. -/
theorem Sound.of_eq (h : m.Sound) (hheap : n.heap = m.heap)
    (hmemory : n.world.memory = m.world.memory) (hworkspace : n.workspace = m.workspace)
    (hvalues : ∀ b ∈ n.values, b ∈ m.values) (hframes : ∀ f ∈ n.frames, f ∈ m.frames) :
    n.Sound := by
  have hheap' : n.world.store.heap = m.world.store.heap := hheap
  refine ⟨⟨?_, ?_, ?_⟩, ?_, ?_⟩
  · rw [hworkspace, hheap']
    exact h.world.workspace
  · rw [hheap']
    exact h.world.heap
  · rw [hmemory, hheap']
    exact h.world.memory
  · intro b hb
    rw [Knows, hheap]
    exact h.values b (hvalues b hb)
  · intro f hf
    rw [hheap]
    exact h.frames f (hframes f hf)

theorem Sound.notify (h : m.Sound) (e : Event) : (m.notify e).Sound :=
  h.of_eq (by simp [heap]) (by simp) (by simp) (by simp) (by simp [Machine.frames])

theorem Sound.push (h : m.Sound) (hb : m.Knows b) : (m.push b).Sound := by
  have hheap : (m.push b).heap = m.heap := by simp [heap]
  have hrest : ({ m.push b with values := m.values } : Machine).Sound :=
    h.of_eq hheap (by simp) (by simp) (fun _ h => h) (by simp [Machine.frames])
  refine ⟨hrest.world, ?_, hrest.frames⟩
  intro c hc
  rw [push_values] at hc
  rw [Knows, hheap]
  rcases List.mem_cons.1 hc with rfl | hc
  · exact hb
  · exact h.values c hc

@[simp] theorem knows_push (m : Machine) (b c : Block) : (m.push b).Knows c ↔ m.Knows c := by
  simp [Knows, heap]

@[simp] theorem knows_pop (m : Machine) (c : Option Block) (b : Block) :
    (m.pop c).2.Knows b ↔ m.Knows b := by
  simp [Knows, heap]

theorem Sound.pop (h : m.Sound) (c : Option Block) : Safe (m.pop c) := by
  refine ⟨h.of_eq (by simp [heap]) (by simp) (by simp) ?_ (by simp [Machine.frames]), ?_⟩
  · intro b hb
    rw [pop_values] at hb
    exact List.mem_of_mem_tail hb
  · intro b hb
    rw [knows_pop]
    refine h.values b ?_
    rw [Machine.pop] at hb
    split at hb
    · cases hb
    · rename_i hv
      rw [hv]
      exact List.mem_of_mem_head? hb

theorem Sound.pushAll (bs : List Block) :
    ∀ {m : Machine}, m.Sound → (∀ b ∈ bs, m.Knows b) → (m.pushAll bs).Sound := by
  induction bs with
  | nil =>
    intro m h _
    exact h
  | cons b bs ih =>
    intro m h hbs
    refine ih (h.push (hbs b List.mem_cons_self)) fun c hc => ?_
    rw [knows_push]
    exact hbs c (List.mem_cons_of_mem _ hc)

theorem Sound.drop (k : Nat) : ∀ {m : Machine}, m.Sound → (m.drop k).Sound := by
  induction k with
  | zero =>
    intro m h
    exact h
  | succ k ih =>
    intro m h
    exact ih (h.pop none).1

theorem knows_drop (b : Block) (k : Nat) : ∀ m : Machine, (m.drop k).Knows b ↔ m.Knows b := by
  induction k with
  | zero =>
    intro m
    exact Iff.rfl
  | succ k ih =>
    intro m
    exact (ih _).trans (knows_pop m none b)

/-- A new stack with known blocks. -/
theorem Sound.alloc (h : m.Sound) {s : Stack} (hs : ∀ b ∈ s.blocks, m.Knows b) :
    (m.alloc s).2.Sound ∧ (m.alloc s).1 < (m.alloc s).2.heap.size ∧
      ∀ b, m.Knows b → (m.alloc s).2.Knows b := by
  have hle : m.heap.size ≤ (m.alloc s).2.heap.size := (Heap.Grows.alloc m.heap s).size
  refine ⟨⟨⟨?_, h.world.heap.alloc hs, h.world.memory.mono hle⟩, ?_, ?_⟩, ?_, ?_⟩
  · exact fun loc hloc => Nat.lt_of_lt_of_le (h.world.workspace loc hloc) hle
  · exact fun b hb => (h.values b hb).of_size hle
  · exact fun f hf => (h.frames f hf).mono hle
  · exact Heap.size_lt_alloc m.heap s
  · exact fun b hb => hb.of_size hle

end Primitives

/-! ## New blocks -/

section Blocks

variable {m : Machine} {b : Block}

theorem Sound.resolve (h : m.Sound) (hb : m.Knows b) : m.Knows (m.resolve b) :=
  Workspace.inside_resolve h.world.workspace hb

theorem Sound.dataLoc? (h : m.Sound) (hb : m.Knows b) {loc : Loc} (hloc : m.dataLoc? b = some loc) :
    loc < m.heap.size :=
  h.resolve hb loc (Block.target?_of_stack? hloc)

theorem Sound.callOf? (h : m.Sound) (hb : m.Knows b) {call : Block} (hc : m.callOf? b = some call) :
    m.Knows call := by
  obtain ⟨loc, hloc, hcall⟩ := Option.bind_eq_some_iff.1 hc
  obtain rfl := Option.some.inj hcall
  intro found hfound
  obtain rfl := Option.some.inj hfound
  exact h.dataLoc? hb hloc

/-- The blocks of stacks are known. -/
theorem Sound.blocks (h : m.Sound) {loc : Loc} (hb : b ∈ m.heap.blocks loc) : m.Knows b :=
  h.world.heap loc b hb

theorem Sound.newData (h : m.Sound) (name : String) (bs : List Block)
    (hbs : ∀ b ∈ bs, m.Knows b) :
    Safe (some (m.newData name bs).1, (m.newData name bs).2) ∧
      ∀ b, m.Knows b → (m.newData name bs).2.Knows b := by
  obtain ⟨hsound, hlt, hknows⟩ := h.alloc (s := Stack.make name bs) hbs
  refine ⟨⟨hsound, ?_⟩, hknows⟩
  intro b hb loc hloc
  obtain rfl := Option.some.inj hb
  obtain rfl := Option.some.inj hloc
  exact hlt

theorem Sound.newNull (h : m.Sound) :
    Safe (some m.newNull.1, m.newNull.2) ∧ ∀ b, m.Knows b → m.newNull.2.Knows b := by
  obtain ⟨hsound, hlt, hknows⟩ := h.alloc (s := Stack.make "null" []) (by simp [Stack.make])
  refine ⟨⟨hsound, ?_⟩, hknows⟩
  intro b hb loc hloc
  obtain rfl := Option.some.inj hb
  obtain rfl := Option.some.inj hloc
  exact hlt

theorem Sound.nextAnonymous (h : m.Sound) : m.nextAnonymous.2.Sound :=
  h.of_eq rfl rfl rfl (fun _ h => h) (fun _ h => h)

/-- The next version of a stack, with an edit that brings in no unknown block. -/
theorem Sound.newVersion (h : m.Sound) (loc : Loc) {edit : List Block → List Block}
    (hedit : ∀ b ∈ edit (m.heap.blocks loc), m.Knows b) :
    Safe (some (m.newVersion loc edit).1, (m.newVersion loc edit).2) ∧
      ∀ b, m.Knows b → (m.newVersion loc edit).2.Knows b := by
  have hname : (m.nextName loc).2.Sound := by
    rw [nextName]
    split
    · exact h.nextAnonymous
    · exact h
  have hheap := (nextName_rest loc m).2
  have hblocks : ∀ b ∈ edit ((m.nextName loc).2.heap.blocks loc), (m.nextName loc).2.Knows b := by
    intro b hb
    rw [hheap] at hb
    rw [Knows, hheap]
    exact hedit b hb
  obtain ⟨hnew, hknows⟩ := hname.newData (m.nextName loc).1 _ hblocks
  refine ⟨hnew, fun b hb => hknows b ?_⟩
  rwa [Knows, hheap]

end Blocks

/-! ## Frames -/

section Frames

variable {env : Environment} {m : Machine} {b : Block}

theorem Sound.assign (h : m.Sound) (name : String) (hb : m.Knows b) (parameter : Bool) :
    (m.assign name b parameter).Sound := by
  have hframes := Frame.inside_bindUp name hb m.frames h.frames parameter
  rw [← assign_frames] at hframes
  obtain ⟨active, outer, log, -, hassign⟩ := assign_eq name b parameter m
  rw [hassign] at hframes ⊢
  exact ⟨⟨h.world.workspace, h.world.heap, h.world.memory⟩, h.values, hframes⟩

theorem knows_assign (m : Machine) (name : String) (b : Block) (parameter : Bool) (c : Block) :
    (m.assign name b parameter).Knows c ↔ m.Knows c := by
  obtain ⟨active, outer, log, -, hassign⟩ := assign_eq name b parameter m
  rw [hassign]
  rfl

theorem Sound.assignEach (withParameters : Bool) (bindings : Keyed Binding) :
    ∀ {m : Machine}, m.Sound → (∀ p ∈ bindings, m.Knows p.2.block) →
      (m.assignEach withParameters bindings).Sound := by
  induction bindings with
  | nil =>
    intro m h _
    exact h
  | cons p bindings ih =>
    intro m h hbindings
    obtain ⟨name, v⟩ := p
    have hrest : ∀ q ∈ bindings, m.Knows q.2.block := fun q hq =>
      hbindings q (List.mem_cons_of_mem _ hq)
    rw [Machine.assignEach, List.foldl_cons]
    simp only
    split
    · refine ih (h.assign name (hbindings _ List.mem_cons_self) false) fun q hq => ?_
      rw [knows_assign]
      exact hrest q hq
    · exact ih h hrest

/-- Inputs come from the value stack. -/
theorem Sound.popInputs (names : List String) :
    ∀ {m : Machine}, m.Sound → (Machine.popInputs names m).2.Sound ∧
      (Machine.popInputs names m).2.heap = m.heap ∧
        ∀ p ∈ (Machine.popInputs names m).1, m.Knows p.2 := by
  induction names with
  | nil =>
    intro m h
    exact ⟨h, rfl, fun p hp => absurd hp List.not_mem_nil⟩
  | cons name names ih =>
    intro m h
    have hpop := h.pop none
    have hheap : (m.pop none).2.heap = m.heap := by simp [heap]
    rw [Machine.popInputs]
    rcases hm : m.pop none with ⟨_ | b, m'⟩
    all_goals
      rw [hm] at hpop hheap
      obtain ⟨hsound, hsame, hbound⟩ := ih hpop.1
      have hknows : ∀ c, m'.Knows c → m.Knows c := fun c hc => by rwa [Knows, hheap] at hc
    · exact ⟨hsound, hsame.trans hheap, fun p hp => hknows _ (hbound p hp)⟩
    · refine ⟨hsound, hsame.trans hheap, fun p hp => ?_⟩
      rcases List.mem_cons.1 hp with rfl | hp
      · exact hknows _ (hpop.2 _ rfl)
      · exact hknows _ (hbound p hp)

theorem Sound.load (h : m.Sound) (env : Environment) {s : Stack}
    (hs : ∀ b ∈ s.blocks, m.Knows b) : (m.load env s).Sound := by
  rw [Machine.load]
  split
  · exact h.push (knows_of_none m rfl)
  · obtain ⟨hsound, hheap, hbound⟩ := Sound.popInputs s.inputs.reverse h
    refine Sound.notify ?_ _
    split
    · exact hsound
    · refine ⟨hsound.world, hsound.values, fun f hf => ?_⟩
      rcases List.mem_cons.1 hf with rfl | hf
      · have hactive := hsound.frames _ List.mem_cons_self
        rw [hheap] at hactive
        change Frame.Inside (Machine.popInputs s.inputs.reverse m).2.heap.size _
        rw [hheap]
        refine Frame.inside_bindEach _ ⟨fun b hb => ?_, hactive.2⟩ hbound
        obtain ⟨c, hc, hcb⟩ := List.mem_map.1 hb
        obtain rfl := Pending.block.inj hcb
        exact hs c hc
      · exact hsound.frames f (List.mem_cons_of_mem _ hf)

/-- Running a stack whose blocks are known. -/
theorem Sound.insert (h : m.Sound) (env : Environment) {s : Stack}
    (hs : ∀ b ∈ s.blocks, m.Knows b) : (m.insert env s).Sound := by
  have hactive := h.frames _ List.mem_cons_self
  have hchild : ({ m with active := Frame.empty, outer := waiting m.active :: m.outer } :
      Machine).Sound := by
    refine ⟨h.world, h.values, fun f hf => ?_⟩
    rcases List.mem_cons.1 hf with rfl | hf
    · exact ⟨fun b hb => absurd hb List.not_mem_nil, fun p hp => absurd hp List.not_mem_nil⟩
    · rcases List.mem_cons.1 hf with rfl | hf
      · refine ⟨fun b hb => hactive.1 b ?_, hactive.2⟩
        rcases List.mem_cons.1 hb with hb | hb
        · cases hb
        · exact hb
      · exact h.frames f (List.mem_cons_of_mem _ hf)
  cases hfin : m.active.isFinished with
  | true =>
    rw [insert_of_finished hfin]
    exact h.load env hs
  | false =>
    rw [insert_of_unfinished hfin]
    exact (hchild.load env hs).notify _

end Frames

end Machine

end BlockMachine
