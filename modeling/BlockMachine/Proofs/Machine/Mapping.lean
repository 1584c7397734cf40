import BlockMachine.Proofs.Machine.Inlining
import BlockMachine.Proofs.Machine.Loops

/-!
# Mapping a function over an array

`map` folds the array into the empty one with a function of its own making: the blocks of the given
function and `append` behind them. The new function has no parameters, whatever the given one has.
So what is mapped is the given function without its parameters.

* `Passed` — a machine with other values and perhaps more stacks;
* `Applies m s g` — the stack `s`, run behind a literal, leaves what `g` gives in its place,
  wherever the variables, the memory and the stacks of `m` are seen;
* `leads_application` — one round of the fold, `mapsOn_keeps` — what it keeps, for all of them;
* `map_applies` — `map` is the list map of `g`, if the function without its parameters applies `g`.
-/

namespace BlockMachine

/-- Numbers, truth values, strings and colours. -/
def Block.isLiteral : Block → Bool
  | .number .. | .boolean _ | .string _ | .color _ => true
  | _ => false

theorem Block.isValue_of_isLiteral {b : Block} (h : b.isLiteral = true) :
    b.isValue = true ∧ ∀ m : Machine, m.resolve b = b := by
  cases b with
  | number | boolean | string | color => exact ⟨rfl, fun _ => rfl⟩
  | _ => cases h

namespace Machine

/-! ## Blocks that add stacks -/

/-- The machine `n` is `m` with other values, another program in its active frame and perhaps more
stacks. -/
structure Passed (m : Machine) (values : List Block) (program : List Pending) (n : Machine) :
    Prop where
  values : n.values = values
  holds : Holds m.workspace m.heap n
  memory : n.world.memory = m.world.memory
  active : n.active = { m.active with program := program }
  outer : n.outer = m.outer

section Passed

variable {m n l : Machine} {vs vs' : List Block} {program program' : List Pending}

theorem Moved.passed (h : Moved m vs program n) : Passed m vs program n where
  values := h.values
  holds := h.holds ⟨rfl, Heap.Grows.refl _⟩
  memory := h.same.memory.symm
  active := h.active
  outer := h.outer

theorem Passed.trans (h : Passed m vs program n) (h' : Passed n vs' program' l) :
    Passed m vs' program' l where
  values := h'.values
  holds := ⟨h'.holds.1.trans h.holds.1, h.holds.2.trans h'.holds.2⟩
  memory := h'.memory.trans h.memory
  active := by rw [h'.active, h.active]
  outer := h'.outer.trans h.outer

theorem Passed.same (h : Passed m vs program n) (hsame : Same n l) (hactive : l.active = n.active)
    (houter : l.outer = n.outer) : Passed m vs program l where
  values := hsame.values.symm.trans h.values
  holds := h.holds.of_eq hsame.workspace.symm (alike_congruent.heap hsame).symm
  memory := hsame.memory.symm.trans h.memory
  active := hactive.trans h.active
  outer := houter.trans h.outer

theorem passed_alloc (s : Stack) (m : Machine) :
    Passed m m.values m.active.program (m.alloc s).2 where
  values := rfl
  holds := ⟨rfl, Heap.Grows.alloc _ s⟩
  memory := rfl
  active := rfl
  outer := rfl

theorem passed_nextName (loc : Loc) (m : Machine) :
    Passed m m.values m.active.program (m.nextName loc).2 := by
  rw [nextName]
  split
  · exact ⟨rfl, ⟨rfl, Heap.Grows.refl _⟩, rfl, rfl, rfl⟩
  · exact ⟨rfl, ⟨rfl, Heap.Grows.refl _⟩, rfl, rfl, rfl⟩

/-- A block that stands for a stack with some blocks. -/
structure IsArray (h : Heap) (b : Block) (loc : Loc) (es : List Block) : Prop where
  block : b = .null loc ∨ b = .data loc true
  mem : loc < h.size
  blocks : h.blocks loc = es

theorem IsArray.grows {h h' : Heap} {b : Block} {loc : Loc} {es : List Block}
    (hb : IsArray h b loc es) (hg : h.Grows h') : IsArray h' b loc es := by
  refine ⟨hb.block, Nat.lt_of_lt_of_le hb.mem hg.size, ?_⟩
  rw [← hb.blocks, Heap.blocks, Heap.blocks, hg.get hb.mem]

theorem IsArray.dataLoc? {h : Heap} {b : Block} {loc : Loc} {es : List Block}
    (hb : IsArray h b loc es) (m : Machine) : m.dataLoc? b = some loc ∧ b.isA .data = true := by
  rcases hb.block with rfl | rfl
  · exact ⟨rfl, rfl⟩
  · exact ⟨rfl, rfl⟩

/-- A new version is a new stack. -/
theorem newVersion_eq (loc : Loc) (edit : List Block → List Block) (m : Machine) :
    ∃ n, m.newVersion loc edit = (.data m.heap.size true, n) ∧
      Passed m m.values m.active.program n ∧ m.heap.size < n.heap.size ∧
      n.heap.get m.heap.size = Stack.make (m.nextName loc).1 (edit (m.heap.blocks loc)) := by
  have hpassed := passed_nextName loc m
  have hheap : (m.nextName loc).2.heap = m.heap := by
    rw [nextName]
    split <;> rfl
  have halloc := passed_alloc (Stack.make (m.nextName loc).1 (edit (m.heap.blocks loc)))
    (m.nextName loc).2
  rw [hpassed.values, hpassed.active] at halloc
  refine ⟨_, ?_, hpassed.trans halloc, ?_, ?_⟩
  · rw [← hheap]
    rfl
  · rw [← hheap]
    exact Heap.size_lt_alloc _ _
  · rw [← hheap]
    exact Heap.get_alloc_size _ _

/-- An appended block makes a new stack. -/
theorem appendTo_eq {b : Block} {loc : Loc} {es : List Block} (hb : IsArray m.heap b loc es)
    (value : Block) :
    ∃ name n, m.appendTo b value = (some (.data m.heap.size true), n) ∧
      Passed m m.values m.active.program n ∧ m.heap.size < n.heap.size ∧
      n.heap.get m.heap.size = Stack.make name (es ++ [value]) := by
  obtain ⟨n, hversion, hpassed, hsize, hget⟩ :=
    newVersion_eq loc (fun blocks => blocks ++ [value]) m
  rw [hb.blocks] at hget
  refine ⟨_, n, ?_, hpassed, hsize, hget⟩
  rw [appendTo, (hb.dataLoc? m).1]
  simp only [hversion]

/-- What is pushed has no other effect. -/
theorem passed_pushAll (bs : List Block) :
    ∀ m : Machine, Passed m (bs.reverse ++ m.values) m.active.program (m.pushAll bs) := by
  induction bs with
  | nil =>
    intro m
    exact (moved_self m).passed
  | cons b bs ih =>
    intro m
    have hpush := (moved_push b m).passed
    have hrest := ih (m.push b)
    rw [hpush.values, hpush.active] at hrest
    rw [List.reverse_cons, List.append_assoc]
    exact hpush.trans hrest

end Passed

section Operators

variable {m : Machine} {b value : Block} {loc : Loc} {es vals : List Block} {rest : List Pending}
  {env : Environment} {run : Runner} {k r : Nat}

theorem evaluate_append (hb : IsArray m.heap b loc es) (hv : m.values = value :: b :: vals)
    (d : Discipline) (env : Environment) (rest : List Pending) :
    ∃ name, Passed m (.data m.heap.size true :: vals) rest
        ((m.withProgram rest).evaluate d env (.operator .append)) ∧
      m.heap.size < ((m.withProgram rest).evaluate d env (.operator .append)).heap.size ∧
      ((m.withProgram rest).evaluate d env (.operator .append)).heap.get m.heap.size =
        Stack.make name (es ++ [value]) := by
  have hsignature : Operator.append.info.signature = .fixed [.data, .block] := rfl
  have hfits : fits [.data, .block] [b, value] = true :=
    fits_iff.2 (.cons (hb.dataLoc? m).2 (.cons rfl .nil))
  obtain ⟨x, hmoved, heval⟩ :=
    evaluate_fixed (m := m.withProgram rest) hsignature hfits hv d env
  have hx := ((moved_withProgram rest m).trans hmoved).passed
  have hheap : x.heap = m.heap := hmoved.heap
  obtain ⟨name, n, happend, hn, hsize, hget⟩ := appendTo_eq (m := x) (hb.grows (hheap ▸ .refl _))
    value
  have hw : (m.withProgram rest).evaluate d env (.operator .append) =
      n.push (.data m.heap.size true) := by
    have hoperate : x.operate d env (.operator .append) .append 0 [b, value] =
        (some (.data m.heap.size true), n) := hheap ▸ happend
    rw [heval, hoperate]
  have hpush := (moved_push (.data m.heap.size true) n).passed
  have hpushed : (n.push (.data m.heap.size true)).heap = n.heap := (moved_push _ n).heap
  refine ⟨name, ?_, ?_, ?_⟩
  · rw [hn.values, hx.values, hn.active, hx.active] at hpush
    rw [hw]
    exact (hx.trans (hn.trans hpush))
  · rw [hw, hpushed, ← hheap]
    exact hsize
  · rw [hw, hpushed, ← hheap]
    exact hget

theorem evaluate_read (hb : IsArray m.heap b loc es) (hv : m.values = b :: vals) (d : Discipline)
    (env : Environment) (rest : List Pending) :
    Passed m (es.reverse ++ vals) rest ((m.withProgram rest).evaluate d env (.operator .read)) := by
  have hsignature : Operator.read.info.signature = .fixed [.data] := rfl
  have hfits : fits [.data] [b] = true := fits_iff.2 (.cons (hb.dataLoc? m).2 .nil)
  obtain ⟨x, hmoved, heval⟩ :=
    evaluate_fixed (m := m.withProgram rest) hsignature hfits hv d env
  have hx := ((moved_withProgram rest m).trans hmoved).passed
  have hheap : x.heap = m.heap := hmoved.heap
  have hread : x.readAll b = x.pushAll es := by
    rw [readAll, (hb.dataLoc? x).1, hheap, ← hb.blocks]
  have hpush := passed_pushAll es x
  rw [hx.values, hx.active] at hpush
  rw [heval]
  change Passed m _ rest (x.readAll b)
  rw [hread]
  exact hx.trans hpush

/-- An operator in front of another block, if it runs no stack. -/
theorem leads_passed {op : Operator} {vs : List Block} (hplain : op.isCalculus = false)
    (hm : Chained m) (hp : m.active.program = .block (.operator op) :: rest) (hrest : rest ≠ [])
    (hpast : m.isPast k r = false)
    (heval : Passed m vs rest
      ((m.withProgram rest).evaluate (splicing env run) env (.operator op))) :
    ∃ n, Leads (splicing env run) env k r 1 m n ∧ Passed m vs rest n ∧
      Same ((m.withProgram rest).evaluate (splicing env run) env (.operator op)) n := by
  obtain ⟨n, hn, hsame, hactive, houter⟩ := leads_open env run hm hp
    (runsInline_operator hplain m) hpast (by
      rw [heval.active]
      simp [Frame.isFinished, hrest])
  exact ⟨n, hn, heval.same hsame hactive houter, hsame⟩

end Operators

/-! ## Helpers -/

/-- The machine `n` runs a helper of `m`: in the active frame of `m`, if nothing is left to run
there, or else in a child. It has what `m` has, and perhaps more stacks. -/
structure Helping (m n : Machine) : Prop where
  holds : Holds m.workspace m.heap n
  memory : n.world.memory = m.world.memory
  placed : m.active.program = [] ∧ n.outer = m.outer ∧ n.active.bindings = m.active.bindings ∨
    m.active.program ≠ [] ∧ n.outer = waiting m.active :: m.outer ∧ n.active.bindings = []

section Helping

variable {m n l : Machine}

theorem Helping.passed {vs : List Block} {program : List Pending} (h : Helping m n)
    (hl : Passed n vs program l) : Helping m l where
  holds := ⟨hl.holds.1.trans h.holds.1, h.holds.2.trans hl.holds.2⟩
  memory := hl.memory.trans h.memory
  placed := by
    rw [hl.outer, hl.active]
    exact h.placed

theorem Helping.same (h : Helping m n) (hsame : Same n l)
    (hbindings : l.active.bindings = n.active.bindings) (houter : l.outer = n.outer) :
    Helping m l where
  holds := h.holds.of_eq hsame.workspace.symm (alike_congruent.heap hsame).symm
  memory := hsame.memory.symm.trans h.memory
  placed := by
    rw [houter, hbindings]
    exact h.placed

/-- The helper sees the variables of its caller. -/
theorem Helping.fetch (h : Helping m n) (name : String) : n.fetch name = m.fetch name := by
  simp only [Machine.fetch, frames]
  rcases h.placed with ⟨-, ho, hb⟩ | ⟨-, ho, hb⟩
  · rw [Frame.fetch_cons, Frame.fetch_cons, ho, hb]
  · rw [Frame.fetch_cons, ho, hb, Frame.fetch_cons, Frame.fetch_cons]
    rfl

/-- A stack without parameters is run as a helper. -/
theorem Passed.insert {vs : List Block} {s : Stack} (h : Passed m vs m.active.program n)
    (hinputs : s.inputs = []) (hblocks : s.blocks ≠ []) (env : Environment) :
    Helping m (n.insert env s) ∧ Same n (n.insert env s) ∧
      (n.insert env s).active.program = s.blocks.map .block := by
  by_cases hrest : m.active.program = []
  · obtain ⟨hsame, hactive, houter⟩ :=
      insert_spliced hinputs hblocks env (m := n) (by rw [h.active, hrest])
    refine ⟨⟨h.holds.of_eq hsame.workspace.symm (alike_congruent.heap hsame).symm,
      hsame.memory.symm.trans h.memory, .inl ⟨hrest, houter.trans h.outer, ?_⟩⟩, hsame, ?_⟩
    · rw [hactive, h.active]
    · rw [hactive]
  · obtain ⟨hsame, hactive, houter⟩ :=
      insert_opened hinputs hblocks env (m := n) (by rw [h.active]; exact hrest)
    refine ⟨⟨h.holds.of_eq hsame.workspace.symm (alike_congruent.heap hsame).symm,
      hsame.memory.symm.trans h.memory, .inr ⟨hrest, ?_, by rw [hactive]⟩⟩, hsame, ?_⟩
    · rw [houter, h.active, h.outer]
    · rw [hactive]

theorem Helping.before (h : Helping m n) :
    m.outer.length < n.outer.length ∨
      n.outer.length = m.outer.length ∧ m.active.program.length = 0 := by
  rcases h.placed with ⟨hp, ho, -⟩ | ⟨-, ho, -⟩
  · exact .inr ⟨by rw [ho], by rw [hp]; rfl⟩
  · rw [ho, List.length_cons]
    exact .inl (Nat.lt_succ_self _)

theorem Helping.not_isPast (h : Helping m n) (hp : n.active.program ≠ []) :
    n.isPast m.outer.length m.active.program.length = false := by
  have hbefore := h.before
  have hlength := List.length_pos_iff.2 hp
  rw [not_isPast_iff]
  omega

/-- The last block of a helper. -/
theorem Helping.ends {env : Environment} {run : Runner} {b : Block} {vs : List Block}
    (hn : Helping m n) (hchain : Chained n) (hp : n.active.program = [.block b])
    (hb : n.runsInline b = true) (hquiet : env.QuietOn n.active.name)
    (heval : Passed n vs [] ((n.withProgram []).evaluate (splicing env run) env b)) :
    ∃ y, Leads (splicing env run) env m.outer.length m.active.program.length 1 n y ∧
      y.isPast m.outer.length m.active.program.length = true ∧
      Same ((n.withProgram []).evaluate (splicing env run) env b) y ∧
      (m.active.program ≠ [] → y.frames = m.frames) := by
  have hpast := hn.not_isPast (by rw [hp]; exact List.cons_ne_nil _ _)
  have hdone : ((n.withProgram []).evaluate (splicing env run) env b).active.isFinished = true := by
    rw [heval.active]
    rfl
  have hquiet' :
      env.QuietOn ((n.withProgram []).evaluate (splicing env run) env b).active.name := by
    rw [heval.active]
    exact hquiet
  rcases hn.placed with ⟨hlast, ho, -⟩ | ⟨hmore, ho, -⟩
  · cases houter : m.outer with
    | nil =>
      obtain ⟨y, hy, hsame, hactive, hyo⟩ := leads_finish_on env run hquiet' hchain hp hb hpast
        (ho.trans houter) (heval.outer.trans (ho.trans houter)) hdone
      rw [houter] at hy
      refine ⟨y, hy, ?_, hsame, fun hne => absurd hlast hne⟩
      rw [isPast_iff, hyo, hactive, heval.active, hlast]
      exact .inr ⟨rfl, Nat.le_refl _⟩
    | cons f fs =>
      obtain ⟨y, hy, hsame, -, hyo⟩ := leads_close_on env run hquiet' hchain hp hb hpast
        (heval.outer.trans (ho.trans houter)) (by rw [ho, houter]) hdone
      rw [houter] at hy
      refine ⟨y, hy, ?_, hsame, fun hne => absurd hlast hne⟩
      rw [isPast_iff, hyo, List.length_cons]
      exact .inl (Nat.lt_succ_self _)
  · obtain ⟨y, hy, hsame, hactive, hyo⟩ := leads_close_on env run hquiet' hchain hp hb hpast
      (heval.outer.trans ho) (by rw [ho]) hdone
    refine ⟨y, hy, ?_, hsame, ?_⟩
    · rw [isPast_iff, hyo, hactive]
      exact .inr ⟨rfl, Nat.le_refl _⟩
    · intro _
      rw [frames, hactive, hyo]
      rfl

end Helping

/-! ## One round -/

/-- The machine `n` shows what `m` shows, and perhaps has more stacks. -/
structure Sees (m n : Machine) : Prop where
  holds : Holds m.workspace m.heap n
  memory : n.world.memory = m.world.memory
  fetch : ∀ name, n.fetch name = m.fetch name

/-- The stack `s` applies a function to literals: run behind a literal `x`, wherever the variables,
the memory and the stacks of `m` are seen, it leaves `g x` in its place and changes nothing else. -/
def Applies (env : Environment) (run : Runner) (m : Machine) (s : Stack) (g : Block → Block) :
    Prop :=
  ∀ (n : Machine) (x : Block) (vals : List Block), Sees m n → Chained n → n.active.program ≠ [] →
    x.isLiteral = true → n.values = x :: vals →
    ∃ y, Reaches (splicing env run) env n.outer.length n.active.program.length (n.insert env s) y ∧
      y.values = g x :: vals ∧ y.frames = n.frames ∧ y.world.memory = n.world.memory

section Round

variable {env : Environment} {run : Runner} {m n : Machine} {s : Stack} {g : Block → Block}
  {acc x : Block} {es vals : List Block} {copy loc : Loc} {name called : String}
  {rest : List Pending}

/-- Where a stack without parameters applies a function, its blocks do as well. -/
theorem Applies.leads (hg : Applies env run m s g) (hquiet : env.Quiet) (hinputs : s.inputs = [])
    (hsees : Sees m n) (hn : Chained n) (hp : n.active.program = s.blocks.map .block ++ rest)
    (hrest : rest ≠ []) (hx : x.isLiteral = true) (hv : n.values = x :: vals) :
    ∃ c y, Leads (splicing env run) env n.outer.length rest.length c n y ∧
      Passed n (g x :: vals) rest y := by
  have hc : .child ∉ rest := fun h => hn.active (by rw [hp]; exact List.mem_append_right _ h)
  have hrunning : (n.withProgram rest).running s.blocks = n := by
    simp only [running, withProgram, ← hp]
  obtain ⟨y, hy, hvalues, hframes, hmemory⟩ := hg (n.withProgram rest) x vals
    ⟨hsees.holds, hsees.memory, hsees.fetch⟩ ⟨hc, hn.outer⟩ hrest hx hv
  obtain ⟨y', ⟨c, hc, -⟩, hsame, hframes'⟩ :=
    reaches_running (m := n.withProgram rest) hquiet hinputs ⟨hc, hn.outer⟩ hrest hy
  rw [hrunning] at hc
  have hy' : y'.frames = (n.withProgram rest).frames := hframes'.symm.trans hframes
  simp only [frames, List.cons.injEq] at hy'
  refine ⟨c, y', hc, hsame.values.symm.trans hvalues, ?_, hsame.memory.symm.trans hmemory, hy'.1,
    hy'.2⟩
  exact Holds.leads ⟨rfl, Heap.Grows.refl _⟩ hc

/-- An element is pushed, and a call behind it opens a child. -/
theorem leads_callee (hsees : Sees m n) (hn : Chained n)
    (hcopy : n.heap.get copy = Stack.make name es) (hes : es ≠ [])
    (hp : n.active.program = .block x :: .block (.code called (some copy)) :: rest)
    (hrest : rest ≠ []) (hx : x.isLiteral = true) {k r : Nat}
    (hk : k < n.outer.length ∨ n.outer.length = k ∧ r ≤ rest.length) (env : Environment)
    (run : Runner) :
    ∃ c u, Leads (splicing env run) env k r c n u ∧ Same { n with values := x :: n.values } u ∧
      u.active.program = es.map .block ∧
      u.outer = { n.active with program := .child :: rest } :: n.outer ∧ Sees m u := by
  obtain ⟨hvalue, hresolve⟩ := Block.isValue_of_isLiteral hx
  obtain ⟨n₁, hn₁, hmoved⟩ := leads_value env run (k := k) (r := r) hn hp hvalue (by simp) (by
    rw [not_isPast_iff, hp, List.length_cons, List.length_cons]
    omega)
  rw [hresolve] at hmoved
  have hget : n₁.heap.get copy = Stack.make name es := by rw [hmoved.heap, hcopy]
  have hprogram : n₁.active.program = .block (.code called (some copy)) :: rest := by
    rw [hmoved.active]
  obtain ⟨u, hu, hsame, hactive, houter⟩ := leads_call env run (k := k) (r := r)
    (by rw [hget]; rfl) (by rw [hget]; exact hes) (by rw [hget]; rfl) (hn.leads hn₁) hprogram
    hrest (by
      rw [not_isPast_iff, hmoved.outer, hmoved.active, List.length_cons]
      omega)
  rw [hmoved.outer, hmoved.active] at houter
  rw [hget] at hactive
  have hsame' := hmoved.same.trans hsame
  refine ⟨_, u, hn₁.trans hu, hsame', by rw [hactive]; rfl, houter,
    (hsees.holds.leads hn₁).leads hu, hsame'.memory.symm.trans hsees.memory, ?_⟩
  intro name
  rw [← hsees.fetch name]
  simp only [Machine.fetch, frames]
  rw [hactive, houter, Frame.fetch_cons, Frame.fetch_cons, Frame.fetch_cons]
  rfl

/-- The element of an array behind which a function stands, and then `append`: what the function
gives is appended to the array below. -/
theorem leads_application (hg : Applies env run m s g) (hquiet : env.Quiet)
    (hinputs : s.inputs = []) (hsees : Sees m n) (hn : Chained n)
    (hcopy : n.heap.get copy = Stack.make name (s.blocks ++ [.operator .append]))
    (hp : n.active.program = .block x :: .block (.code called (some copy)) :: rest)
    (hrest : rest ≠ []) (hx : x.isLiteral = true) (hv : n.values = acc :: vals)
    (hacc : IsArray n.heap acc loc es) {k r : Nat}
    (hk : k < n.outer.length ∨ n.outer.length = k ∧ r ≤ rest.length) :
    ∃ c y acc' loc', Leads (splicing env run) env k r c n y ∧ Passed n (acc' :: vals) rest y ∧
      IsArray y.heap acc' loc' (es ++ [g x]) := by
  obtain ⟨c₁, n₁, hn₁, hsame₁, hprogram₁, houter₁, hsees₁⟩ :=
    leads_callee hsees hn hcopy (by simp) hp hrest hx hk env run
  have hchain₁ := hn.leads hn₁
  have hvalues₁ : n₁.values = x :: acc :: vals := by rw [← hsame₁.values, hv]
  -- the function leaves its result
  have hprogram : n₁.active.program = s.blocks.map .block ++ [.block (.operator .append)] := by
    simp [hprogram₁]
  obtain ⟨c₂, n₂, hn₂, hpassed⟩ :=
    hg.leads hquiet hinputs hsees₁ hchain₁ hprogram (by simp) hx hvalues₁
  have hn₂' : Leads (splicing env run) env k r c₂ n₁ n₂ := by
    refine hn₂.weaken (.inl ?_)
    rw [houter₁, List.length_cons]
    omega
  -- which is appended, and the child is closed
  have hacc₂ : IsArray n₂.heap acc loc es := by
    refine (hacc.grows ?_).grows hpassed.holds.2
    rw [← alike_congruent.heap hsame₁]
    exact .refl _
  obtain ⟨name', heval, hsize, hget⟩ :=
    evaluate_append hacc₂ hpassed.values (splicing env run) env []
  obtain ⟨n₃, hn₃, hsame₃, hactive₃, houter₃⟩ := leads_close env run (k := k) (r := r) hquiet
    (hchain₁.leads hn₂') (by rw [hpassed.active]) (runsInline_operator rfl n₂)
    (by rw [not_isPast_iff, hpassed.outer, houter₁, List.length_cons]; omega)
    (heval.outer.trans (hpassed.outer.trans houter₁)) (by rw [hpassed.outer, houter₁])
    (by rw [heval.active]; rfl)
  have hn₁₃ := (hn₁.trans hn₂').trans hn₃
  have hheap : n₃.heap = _ := (alike_congruent.heap hsame₃).symm
  refine ⟨_, n₃, .data n₂.heap.size true, n₂.heap.size, hn₁₃,
    ⟨hsame₃.values.symm.trans heval.values, Holds.leads ⟨rfl, .refl _⟩ hn₁₃, ?_, hactive₃, houter₃⟩,
    .inr rfl, ?_, ?_⟩
  · rw [← hsame₃.memory, heval.memory, hpassed.memory, ← hsame₁.memory]
  · rw [hheap]
    exact hsize
  · rw [hheap, Heap.blocks, hget]
    rfl

end Round

/-! ## All rounds -/

/-- In front of the rounds for some elements, an array has the results for the elements before. -/
structure MapsOn (m : Machine) (call : Block) (g : Block → Block) (mapped vals : List Block)
    (bs : List Block) (n : Machine) : Prop where
  helping : Helping m n
  rounds : ∃ acc loc es xs, n.values = acc :: vals ∧ IsArray n.heap acc loc es ∧
    bs = withCalls call xs ∧ (∀ x ∈ xs, x.isLiteral = true) ∧ es ++ xs.map g = mapped

section Rounds

variable {env : Environment} {run : Runner} {m : Machine} {s : Stack} {g : Block → Block}
  {mapped vals : List Block} {h : Heap} {array copy : Loc} {name : String}

theorem mapsOn_keeps (hg : Applies env run m s g) (hquiet : env.Quiet) (hinputs : s.inputs = [])
    (hmem : copy < h.size)
    (hcopy : h.get copy = Stack.make name (s.blocks ++ [.operator .append])) :
    (foldLoop h array copy).Keeps m.workspace h env run m.outer.length m.active.program.length
      (MapsOn m (callTo h copy) g mapped vals) where
  stable {bs n l} hn hsame hbindings houter := by
    obtain ⟨acc, loc, es, xs, hv, hacc, hbs, hxs, hmapped⟩ := hn.rounds
    refine ⟨hn.helping.same hsame hbindings houter, acc, loc, es, xs,
      hsame.values.symm.trans hv, ?_,
      hbs, hxs, hmapped⟩
    rw [← alike_congruent.heap hsame]
    exact hacc
  before hn := hn.helping.before
  body {i next body bs n} hturn hn hchain hholds hp := by
    obtain ⟨acc, loc, es, xs, hv, hacc, hbs, hxs, hmapped⟩ := hn.rounds
    obtain ⟨e, -, hbody⟩ := Option.map_eq_some_iff.1 hturn
    obtain ⟨rfl, -⟩ := Prod.mk.inj hbody
    cases xs with
    | nil => cases hbs
    | cons x xs =>
      simp only [withCalls_cons, List.cons_append, List.nil_append, List.cons.injEq,
        true_and] at hbs
      obtain ⟨rfl, rfl⟩ := hbs
      obtain ⟨c, y, acc', loc', hy, hpassed, hacc'⟩ := leads_application hg hquiet hinputs
        ⟨hn.helping.holds, hn.helping.memory, hn.helping.fetch⟩ hchain
        ((hholds.2.get hmem).trans hcopy) hp (Loop.after_ne_nil _ next)
        (hxs e List.mem_cons_self) hv hacc (k := m.outer.length) (r := m.active.program.length)
        (by have := hn.helping.before; omega)
      refine ⟨c, y, hy, ⟨hn.helping.passed hpassed, acc', loc', es ++ [g e], xs, hpassed.values,
        hacc', rfl, fun x hx => hxs x (List.mem_cons_of_mem _ hx), ?_⟩, ?_⟩
      · rw [← hmapped, List.append_assoc]
        rfl
      · exact congrArg Frame.program hpassed.active

end Rounds

/-! ## Mapping -/

section Map

variable {env : Environment} {run : Runner} {m z : Machine} {array loc : Loc}

/-- The blocks of the helper that `map` runs. -/
def mapHelper (null array f append : Loc) : List Block :=
  [.null null, .data array true, .data f true, .data append true, .operator .read,
    .operator .append, .operator .fold]

/-- `map` makes two stacks, an empty one and one that holds `append`, and runs its helper. -/
theorem evaluate_map (hmoved : Moved m (.data loc true :: .data array true :: m.values)
      (.block (.operator .map) :: m.active.program) z) (env : Environment) (run : Runner) :
    ∃ y null append, Passed m m.values m.active.program y ∧ IsArray y.heap (.null null) null [] ∧
      IsArray y.heap (.data append true) append [.operator .append] ∧
      (z.withProgram m.active.program).evaluate (splicing env run) env (.operator .map) =
        y.insert env (Stack.make "map" (mapHelper null array loc append)) := by
  have hsignature : Operator.map.info.signature = .fixed [.data, .data] := rfl
  have hfits : fits [.data, .data] [.data array true, .data loc true] = true := rfl
  obtain ⟨x, hx, heval⟩ := evaluate_fixed (m := z.withProgram m.active.program) hsignature hfits
    hmoved.values (splicing env run) env
  obtain ⟨y₁, hy₁⟩ : ∃ y, y = (x.alloc (Stack.make "append" [.operator .append])).2 := ⟨_, rfl⟩
  obtain ⟨y₂, hy₂⟩ : ∃ y, y = (y₁.alloc (Stack.make "null" [])).2 := ⟨_, rfl⟩
  have hpassed₁ := passed_alloc (Stack.make "append" [.operator .append]) x
  have hpassed₂ := passed_alloc (Stack.make "null" []) y₁
  have hpassed : Passed m m.values m.active.program x :=
    ((hmoved.trans (moved_withProgram m.active.program z)).trans hx).passed
  rw [← hy₁, hpassed.values, hpassed.active] at hpassed₁
  rw [← hy₂, hpassed₁.values, hpassed₁.active] at hpassed₂
  refine ⟨y₂, y₁.heap.size, x.heap.size, hpassed.trans (hpassed₁.trans hpassed₂),
    ⟨.inl rfl, ?_, ?_⟩, IsArray.grows ⟨.inr rfl, ?_, ?_⟩ hpassed₂.holds.2, ?_⟩
  · rw [hy₂]
    exact Heap.size_lt_alloc _ _
  · rw [hy₂]
    exact congrArg Stack.blocks (Heap.get_alloc_size _ _)
  · rw [hy₁]
    exact Heap.size_lt_alloc _ _
  · rw [hy₁]
    exact congrArg Stack.blocks (Heap.get_alloc_size _ _)
  · rw [heval, hy₂, hy₁]
    rfl

/-- `map` runs its helper. -/
theorem leads_map (hz : Chained z)
    (hmoved : Moved m (.data loc true :: .data array true :: m.values)
      (.block (.operator .map) :: m.active.program) z) (env : Environment) (run : Runner) :
    ∃ u null append, Leads (splicing env run) env m.outer.length m.active.program.length 1 z u ∧
      Helping m u ∧ u.values = m.values ∧
      u.active.program = (mapHelper null array loc append).map .block ∧
      IsArray u.heap (.null null) null [] ∧
      IsArray u.heap (.data append true) append [.operator .append] := by
  have hpast : z.isPast m.outer.length m.active.program.length = false := by
    rw [not_isPast_iff, hmoved.outer, hmoved.active]
    exact .inr ⟨rfl, Nat.lt_succ_self _⟩
  obtain ⟨y, null, append, hpassed, hnull, happend, heval⟩ := evaluate_map hmoved env run
  obtain ⟨hhelping, hsame, hprogram⟩ := hpassed.insert
    (s := Stack.make "map" (mapHelper null array loc append)) rfl (List.cons_ne_nil _ _) env
  obtain ⟨u, hu, hsame', hactive, houter⟩ := leads_open env run hz (by rw [hmoved.active])
    (runsInline_operator rfl z) hpast (by
      rw [heval, Frame.isFinished, hprogram]
      simp [Stack.make, mapHelper])
  rw [heval] at hsame' hactive houter
  have hheap : u.heap = y.heap := (alike_congruent.heap (hsame.trans hsame')).symm
  refine ⟨u, null, append, hu, hhelping.same hsame' (by rw [hactive]) houter, ?_, ?_,
    hheap ▸ hnull, hheap ▸ happend⟩
  · exact (hsame.trans hsame').values.symm.trans hpassed.values
  · rw [hactive, hprogram]
    rfl

/-- The helper makes the function for the fold. -/
theorem leads_copy {u : Machine} {null append : Loc} {es : List Block} (hu : Helping m u)
    (hchain : Chained u) (hp : u.active.program = (mapHelper null array loc append).map .block)
    (hf : IsArray u.heap (.data loc true) loc es)
    (happend : IsArray u.heap (.data append true) append [.operator .append]) (env : Environment)
    (run : Runner) :
    ∃ c w copy name, Leads (splicing env run) env m.outer.length m.active.program.length c u w ∧
      Helping m w ∧ Holds u.workspace u.heap w ∧ w.active.program = [.block (.operator .fold)] ∧
      w.values = .data copy true :: .data array true :: .null null :: u.values ∧
      copy < w.heap.size ∧ w.heap.get copy = Stack.make name (es ++ [.operator .append]) := by
  have hprogram : u.active.program =
      [Block.null null, .data array true, .data loc true, .data append true].map .block ++
        [.block (.operator .read), .block (.operator .append), .block (.operator .fold)] := hp
  have hoperands : ∀ b ∈ [Block.null null, .data array true, .data loc true, .data append true],
      b.isValue = true := by
    intro b hb
    simp only [List.mem_cons, List.not_mem_nil, or_false] at hb
    rcases hb with rfl | rfl | rfl | rfl <;> rfl
  obtain ⟨w₁, hw₁, hmoved⟩ := leads_values env run (k := m.outer.length)
    (r := m.active.program.length) _ hoperands (by simp) hchain hprogram
    (by have := hu.before; omega)
  have hpassed₁ := hmoved.passed
  have hchain₁ := hchain.leads hw₁
  -- the operator is read
  obtain ⟨w₂, hw₂, hpassed₂, -⟩ := leads_passed rfl hchain₁ (by rw [hpassed₁.active]) (by simp)
    ((hu.passed hpassed₁).not_isPast (by rw [hpassed₁.active]; simp))
    (evaluate_read (happend.grows hpassed₁.holds.2) hpassed₁.values (splicing env run) env _)
  have hpassed₁₂ := hpassed₁.trans hpassed₂
  have hchain₂ := hchain₁.leads hw₂
  -- and appended to the blocks of the function
  obtain ⟨name, heval, hsize, hget⟩ := evaluate_append (hf.grows hpassed₁₂.holds.2) hpassed₁₂.values
    (splicing env run) env [.block (.operator .fold)]
  obtain ⟨w₃, hw₃, hpassed₃, hsame⟩ := leads_passed rfl hchain₂ (by rw [hpassed₁₂.active]) (by simp)
    ((hu.passed hpassed₁₂).not_isPast (by rw [hpassed₁₂.active]; simp)) heval
  have hpassed := hpassed₁₂.trans hpassed₃
  rw [alike_congruent.heap hsame] at hsize hget
  exact ⟨_, w₃, w₂.heap.size, name, (hw₁.trans hw₂).trans hw₃, hu.passed hpassed, hpassed.holds,
    by rw [hpassed.active], hpassed.values, hsize, hget⟩

/-- After its last turn, the helper of a machine is at the point behind the operator that runs it.
-/
theorem Helping.leads_end {L : Loop} {h : Heap} {op : Operator} {operands vals : List Block}
    (hz : Helping m z) (hdue : Due L m.workspace h none z op operands vals) (hquiet : env.Quiet)
    (run : Runner) :
    ∃ y, Leads (splicing env run) env m.outer.length m.active.program.length 1 z y ∧
      y.isPast m.outer.length m.active.program.length = true ∧ Same { z with values := vals } y ∧
      (m.active.program ≠ [] → y.frames = m.frames) := by
  obtain ⟨x, name, hx, heval⟩ := hdue.starts.evaluate hdue.holds hdue.values [] env run
  rw [Loop.turned] at heval
  obtain ⟨y, hy, hpast, hsame, hframes⟩ := hz.ends hdue.chained hdue.program
    (runsInline_operator hdue.starts.plain z) (hquiet.on _) (heval ▸ hx.passed)
  rw [heval] at hsame
  exact ⟨y, hy, hpast, hx.same.trans hsame, hframes⟩

/-- **`map` is list map.** If the stack of a function, without its parameters, applies `g` to
literals, then `map` comes to its end with one array in place of its operands: what `g` gives for
the elements, in order. Nothing else changes. -/
theorem map_applies (env : Environment) (hquiet : env.Quiet) (run : Runner) (m : Machine)
    (hm : Chained m) (a f : Block) (array loc : Loc) (ha : m.resolve a = .data array true)
    (hf : m.resolve f = .data loc true) (harray : array < m.heap.size) (hloc : loc < m.heap.size)
    (hliteral : ∀ x ∈ m.heap.blocks array, x.isLiteral = true)
    (hlen : (m.heap.blocks array).length < 2 ^ 53) (g : Block → Block)
    (hg : Applies env run m { m.heap.get loc with inputs := [] } g) :
    ∃ y b mapped, Reaches (splicing env run) env m.outer.length m.active.program.length
        (m.running [a, f, .operator .map]) y ∧
      y.values = b :: m.values ∧ b.isA .data = true ∧ y.dataLoc? b = some mapped ∧
      y.heap.blocks mapped = (m.heap.blocks array).map g ∧
      Holds m.workspace m.heap y ∧ y.world.memory = m.world.memory ∧
      (m.active.program ≠ [] → y.frames = m.frames) := by
  -- the operands are pushed, and `map` runs its helper
  obtain ⟨z, hz, hmoved⟩ := leads_values env run (k := m.outer.length)
    (r := m.active.program.length) [a, f]
    (by simp [isValue_of_resolve ha, isValue_of_resolve hf])
    (List.cons_ne_nil (.block (.operator .map)) m.active.program)
    (hm.running [a, f, .operator .map]) rfl (.inr ⟨rfl, by simp⟩)
  have hmoved' : Moved m (.data loc true :: .data array true :: m.values)
      (.block (.operator .map) :: m.active.program) z := by
    rw [← ha, ← hf]
    exact (moved_withProgram _ m).trans hmoved
  have hchain := (hm.running [a, f, .operator .map]).leads hz
  obtain ⟨u, null, append, hu, hhelp, hvalues, hprogram, hnull, happend⟩ :=
    leads_map hchain hmoved' env run
  have hchain₁ := hchain.leads hu
  -- the helper makes the function for the fold
  obtain ⟨c, w, copy, name, hw, hhelp', hholds, hfold, hvalues', hcopy, hget⟩ := leads_copy hhelp
    hchain₁ hprogram (IsArray.grows ⟨.inr rfl, hloc, rfl⟩ hhelp.holds.2) happend env run
  have hblocks : w.heap.blocks array = m.heap.blocks array := hhelp'.holds.blocks harray
  have harray' : array < w.heap.size := Nat.lt_of_lt_of_le harray hhelp'.holds.2.size
  -- which runs to its last turn
  have hstarts : Starts (foldLoop w.heap array copy) m.workspace w.heap .fold
      [.data array true, .data copy true] ((foldLoop w.heap array copy).turn (Float.ofNat 1)) := by
    rw [foldLoop_turn_one]
    exact starts_fold harray' hcopy
  have hunrolled : Unrolled (foldLoop w.heap array copy)
      ((foldLoop w.heap array copy).turn (Float.ofNat 1))
      (withCalls (callTo w.heap copy) (m.heap.blocks array)) := by
    rw [foldLoop_turn_one, ← hblocks]
    exact unrolled_fold (by rw [hblocks]; exact hlen)
  have hkeeps : (foldLoop w.heap array copy).Keeps m.workspace w.heap env run m.outer.length
      m.active.program.length
      (MapsOn m (callTo w.heap copy) g ((m.heap.blocks array).map g) m.values) :=
    mapsOn_keeps hg hquiet rfl hcopy hget
  have hdue : Due (foldLoop w.heap array copy) m.workspace w.heap
      ((foldLoop w.heap array copy).turn (Float.ofNat 1)) w .fold
      [.data array true, .data copy true] (.null null :: m.values) :=
    ⟨hstarts, hchain₁.leads hw, ⟨hhelp'.holds.1, .refl _⟩, hfold, by rw [hvalues', hvalues]; rfl⟩
  obtain ⟨c', z', op, operands, vals, hz', hlast, hend⟩ :=
    hkeeps.leads (foldLoop_sound harray' hcopy) hunrolled hdue
      ⟨⟨hhelp'.holds, hhelp'.memory, hhelp'.placed⟩, .null null, null, [], m.heap.blocks array, rfl,
        hnull.grows hholds.2, rfl, hliteral, rfl⟩
  obtain ⟨b, mapped, es, xs, hv, hb, hnil, -, hes⟩ := hend.rounds
  obtain rfl : xs = [] := by
    cases xs with
    | nil => rfl
    | cons x xs => cases hnil
  have hhelp'' : Helping m z' := ⟨hend.helping.holds, hend.helping.memory, hend.helping.placed⟩
  obtain ⟨y, hy, hpast, hsame, hframes⟩ := hhelp''.leads_end hlast hquiet run
  have hheap : y.heap = z'.heap := (alike_congruent.heap hsame).symm
  refine ⟨y, b, mapped, ⟨_, (((hz.trans hu).trans hw).trans hz').trans hy, hpast⟩,
    hsame.values.symm.trans hv, (hb.dataLoc? y).2, (hb.dataLoc? y).1, ?_,
    hhelp''.holds.of_eq hsame.workspace.symm hheap, hsame.memory.symm.trans hhelp''.memory, hframes⟩
  rw [hheap, show z'.heap.blocks mapped = es from hb.blocks, ← hes, List.map_nil, List.append_nil]

end Map

/-! ## A function to map -/

/-- Literals are compared without a look at the heap. -/
theorem equals_of_isLiteral {x v : Block} (hx : x.isLiteral = true) (hv : v.isLiteral = true)
    (h : Heap) : h.equals x v = x.plainEquals v := by
  have hmatch : h.equals x v =
      (if x.plainEquals v then some [] else none : Option Heap.Trail).isSome := by
    cases x with
    | number | boolean | string | color =>
      cases v with
      | number | boolean | string | color => rfl
      | _ => cases hv
    | _ => cases hx
  rw [hmatch]
  cases x.plainEquals v <;> rfl

/-- A child that compares the literal on top with another one, and is closed. -/
theorem leads_compared {env : Environment} (hquiet : env.Quiet) (run : Runner) {n : Machine}
    {v x : Block} {vals : List Block} {f : Frame} {fs : List Frame} {k r : Nat} (hn : Chained n)
    (hp : n.active.program = [.block v, .block (.operator .equal)]) (ho : n.outer = f :: fs)
    (hk : k ≤ fs.length) (hx : x.isLiteral = true) (hv : v.isLiteral = true)
    (hvalues : n.values = x :: vals) :
    ∃ c y, Leads (splicing env run) env k r c n y ∧
      Same { n with values := .boolean (x.plainEquals v) :: vals } y ∧
      y.active = { f with program := f.program.tail } ∧ y.outer = fs := by
  obtain ⟨hvalue, hresolve⟩ := Block.isValue_of_isLiteral hv
  obtain ⟨n₂, hn₂, hmoved⟩ := leads_value env run (k := k) (r := r) hn hp hvalue
    (List.cons_ne_nil _ _) (by rw [not_isPast_iff, ho, List.length_cons]; omega)
  rw [hresolve, hvalues] at hmoved
  have hsignature : Operator.equal.info.signature = .fixed [.block, .block] := rfl
  have hfits : fits [.block, .block] [x, v] = true := fits_iff.2 (.cons rfl (.cons rfl .nil))
  obtain ⟨w, hw, heval⟩ := evaluate_fixed (m := n₂.withProgram []) hsignature hfits hmoved.values
    (splicing env run) env
  have hoperate : w.operate (splicing env run) env (.operator .equal) .equal 0 [x, v] =
      (some (.boolean (x.plainEquals v)), w) := by
    rw [← equals_of_isLiteral hx hv w.heap]
    rfl
  rw [hoperate] at heval
  have hpushed : Moved n₂ (.boolean (x.plainEquals v) :: vals) []
      ((n₂.withProgram []).evaluate (splicing env run) env (.operator .equal)) := by
    have hpush := moved_push (.boolean (x.plainEquals v)) w
    rw [hw.values, hw.active] at hpush
    rw [heval]
    exact ((moved_withProgram [] n₂).trans hw).trans hpush
  obtain ⟨y, hy, hsame, hactive, houter⟩ := leads_close env run (k := k) (r := r) hquiet
    (hn.leads hn₂) (by rw [hmoved.active]) (runsInline_operator rfl n₂)
    (by rw [not_isPast_iff, hmoved.outer, ho, List.length_cons]; omega)
    (hpushed.outer.trans (hmoved.outer.trans ho)) (by rw [hmoved.outer, ho])
    (by rw [hpushed.active]; rfl)
  exact ⟨_, y, hn₂.trans hy, (hmoved.trans hpushed).same.trans hsame, hactive, houter⟩

/-- A stack that compares a literal with another one applies that comparison. -/
theorem applies_equal (env : Environment) (hquiet : env.Quiet) (run : Runner) (m : Machine)
    (name : String) {v : Block} (hv : v.isLiteral = true) :
    Applies env run m (Stack.make name [v, .operator .equal])
      fun x => .boolean (x.plainEquals v) := by
  intro n x vals hsees hn hp hx hvalues
  obtain ⟨hsame, hactive, houter⟩ := insert_opened (s := Stack.make name [v, .operator .equal])
    rfl (List.cons_ne_nil _ _) env hp
  obtain ⟨c, y, hy, hsame', hactive', houter'⟩ := leads_compared (k := n.outer.length)
    (r := n.active.program.length) hquiet run (hn.insert env _) (by rw [hactive]; rfl) houter
    (Nat.le_refl _) hx hv (hsame.values.symm.trans hvalues)
  refine ⟨y, ⟨c, hy, ?_⟩, hsame'.values.symm, ?_, hsame'.memory.symm.trans hsame.memory.symm⟩
  · rw [isPast_iff, houter', hactive']
    exact .inr ⟨rfl, Nat.le_refl _⟩
  · rw [frames, hactive', houter']
    rfl

/-- The elements of an array, each compared with a string. -/
theorem map_applies_compared :
    let m := shelf [] [Stack.make "a" [.string "x", .boolean true],
      Stack.make "f" [.string "x", .operator .equal]]
    ∃ y b mapped, Reaches (splicing .standard idle) .standard 0 1
        (m.running [.data 0 true, .data 1 true, .operator .map]) y ∧
      y.values = [b] ∧ y.heap.blocks mapped = [.boolean true, .boolean false] := by
  intro m
  obtain ⟨y, b, mapped, hy, hvalues, -, -, hmapped, -⟩ :=
    map_applies .standard standard_quiet idle m (chained_shelf [] _) (.data 0 true) (.data 1 true)
      0 1 rfl rfl (by decide) (by decide) (by decide) (by decide)
      (fun x => .boolean (x.plainEquals (.string "x")))
      (applies_equal .standard standard_quiet idle m "f" rfl)
  exact ⟨y, b, mapped, hy, hvalues, hmapped⟩

end Machine

end BlockMachine
