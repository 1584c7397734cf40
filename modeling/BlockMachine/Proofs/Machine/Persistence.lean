import BlockMachine.Proofs.Machine.Coupling
import BlockMachine.Proofs.Workspace.Legibility

/-!
# Stacks last

Blocks share their stacks, so an operator that wrote to one would be felt wherever the stack is
known. None does: evaluation adds stacks to the heap and leaves the old ones as they are. The one
place that writes is an isolated call, which takes the mark off the called stack while the call runs
and puts it back.

* `Adds` — a runner that only adds stacks; `runAt_adds` — runs do, by induction on the nesting;
* `edit_fresh` — an operator that edits an array answers with an error or with a new stack;
* `evaluation_persistent` — steps and runs keep every stack, and the text of the workspace.
-/

namespace BlockMachine

/-- Whether an operator answers with an edited copy of its operand. -/
def Operator.edits : Operator → Bool
  | .insert | .append | .replace | .delete => true
  | _ => false

/-- The lists of tags that an operator's operands may fit. -/
def Operator.Signature.choices : Operator.Signature → List (List Tag)
  | .fixed tags => [tags]
  | .overloaded combinations => combinations
  | .custom => []

/-- Taking the mark off a stack and putting it back, while the heap grows. -/
theorem Heap.Grows.remark {h h' : Heap} {loc : Loc} (hmark : (h.get loc).obfuscated = true)
    (hg : (h.modify loc fun s => { s with obfuscated := false }).Grows h') :
    h.Grows (h'.modify loc fun s => { s with obfuscated := true }) := by
  have hsize := hg.size
  rw [Heap.size_modify] at hsize
  refine ⟨by rwa [Heap.size_modify], ?_⟩
  intro other hother
  have hother' : other < (h.modify loc fun s => { s with obfuscated := false }).size := by
    rwa [Heap.size_modify]
  have hget := hg.get hother'
  by_cases hne : other = loc
  · subst hne
    rw [Heap.get_modify_self _ _ hother] at hget
    rw [Heap.get_modify_self _ _ (Nat.lt_of_lt_of_le hother hsize), hget, ← hmark]
  · rw [Heap.get_modify_of_ne _ _ hne] at hget ⊢
    exact hget

namespace Machine

/-! ## Runs only add stacks -/

/-- The machine works on a workspace and on a heap that has grown out of `h`. -/
def Holds (workspace : Workspace) (h : Heap) (m : Machine) : Prop :=
  m.workspace = workspace ∧ h.Grows m.heap

/-- A runner that only adds stacks to the heap and leaves the workspace alone. -/
def Adds (run : Runner) : Prop :=
  ∀ m : Machine, Holds m.workspace m.heap (run m).2

theorem Holds.self (m : Machine) : Holds m.workspace m.heap m :=
  ⟨rfl, .refl _⟩

theorem Holds.trans {workspace : Workspace} {h : Heap} {m n : Machine} (hm : Holds workspace h m)
    (hn : Holds m.workspace m.heap n) : Holds workspace h n :=
  ⟨hn.1.trans hm.1, hm.2.trans hn.2⟩

/-- It is a matter of the workspace and the heap. -/
theorem Holds.of_eq {workspace : Workspace} {h : Heap} {m n : Machine} (hm : Holds workspace h m)
    (hw : n.workspace = m.workspace) (hh : n.heap = m.heap) : Holds workspace h n :=
  ⟨hw.trans hm.1, hh ▸ hm.2⟩

variable {env : Environment}

/-- What a machine does to itself only adds stacks. -/
theorem holds_lasting (env : Environment) (workspace : Workspace) (h : Heap) :
    Lasting env (Holds workspace h) where
  push b hm := hm.of_eq (by simp) (by simp [heap])
  pop c hm := hm.of_eq (by simp) (by simp [heap])
  alloc s hm := ⟨hm.1, hm.2.trans (.alloc _ s)⟩
  roll hm := by
    rw [roll_eq]
    exact hm.of_eq rfl rfl
  nextAnonymous hm := hm.of_eq rfl rfl
  setVariable hm hs := by
    obtain ⟨memory, changed, log, -, rfl⟩ := setVariable_eq hs
    exact hm.of_eq rfl rfl
  frames a o hm := hm.of_eq rfl rfl
  notify e _ hm := hm.of_eq (by simp) (by simp [heap])
  afterFrame hm := hm.of_eq rfl rfl

/-- The nested machine of an isolated call starts on the caller's workspace and heap. -/
theorem Holds.isolated (env : Environment) (s : Stack) (m : Machine) :
    Holds m.workspace m.heap (m.isolated env s) := by
  have hP := holds_lasting env m.workspace m.heap
  have hfresh := hP.assignEach (m := { m.nested m.remainingBudget with values := m.values })
    ⟨rfl, .refl _⟩ true m.active.bindings
  apply hP.insert
  exact hfresh.of_eq rfl rfl

/-- Nested machines of a machine only add stacks to its heap, if their runner does. -/
theorem holds_sheltered {run : Runner} (hrun : Adds run) (workspace : Workspace) (h : Heap) :
    Sheltered (Holds workspace h) env run where
  sample {m} hm bindings values s := by
    have hfresh : Holds m.workspace m.heap (make m.nestedBudget m.workspace m.world) :=
      ⟨rfl, .refl _⟩
    have hstart := (holds_lasting env m.workspace m.heap).trial hfresh bindings values s
    exact ⟨hm.1, hm.2.trans (hstart.trans (hrun _)).2⟩
  isolate {m} loc hm hmark := by
    -- the heap of the nested machine comes from that of the caller without the mark
    have hsub := ((Holds.isolated env ((m.obfuscate loc false).heap.get loc)
      (m.obfuscate loc false)).trans (hrun _)).2
    rw [callIsolated]
    generalize run ((m.obfuscate loc false).isolated env ((m.obfuscate loc false).heap.get loc)) =
      x at hsub
    obtain ⟨result, sub⟩ := x
    have hP := holds_lasting env m.workspace sub.heap
    have hback := hP.adopt (hP.assignEach
      (m := { (m.obfuscate loc false).withoutWorld with world := sub.world })
      ⟨rfl, .refl _⟩ false sub.mainFrame.bindings) result sub
    exact ⟨hback.1.trans hm.1, hm.2.trans (Heap.Grows.remark hmark (hsub.trans hback.2))⟩

/-- **Runs only add stacks**, however deep machines are nested in them. -/
theorem runAt_adds (env : Environment) (depth : Nat) : Adds (runAt env depth) := by
  induction depth with
  | zero =>
    intro m
    exact (Holds.self m).of_eq rfl rfl
  | succ depth ih =>
    intro m
    exact (holds_lasting env m.workspace m.heap).runSteps (holds_sheltered ih _ _)
      (fun hm => hm.of_eq rfl rfl) m.maxSteps ((Holds.self m).of_eq rfl rfl)

theorem run_adds (env : Environment) : Adds (run env) :=
  fun m => runAt_adds env m.maxSteps m

/-! ## Edited arrays -/

/-- Operands that fit their tags. -/
theorem fits_iff {tags : List Tag} {operands : List Block} :
    fits tags operands = true ↔ List.Forall₂ (fun t b => b.isA t = true) tags operands := by
  rw [fits]
  induction tags generalizing operands with
  | nil =>
    cases operands with
    | nil => simp
    | cons b operands => simp
  | cons t tags ih =>
    cases operands with
    | nil => simp
    | cons b operands =>
      rw [List.forall₂_cons, ← ih]
      simp only [List.length_cons, List.zip_cons_cons, List.all_cons]
      simp only [Bool.and_eq_true, beq_iff_eq, Nat.add_right_cancel_iff]
      tauto

theorem exists_stack_of_isA {b : Block} (h : b.isA .data = true) : ∃ loc, b.stack? = some loc := by
  cases b with
  | null loc | data loc _ | package loc => exact ⟨loc, rfl⟩
  | _ => cases h

theorem exists_float_of_isA {b : Block} (h : b.isA .number = true) : ∃ x, b.float? = some x := by
  cases b with
  | number r _ | randomInt r _ | randomReal r _ => exact ⟨r.value, rfl⟩
  | _ => cases h

theorem exists_string_of_isA {b : Block} (h : b.isA .string = true) : ∃ s, b.string? = some s := by
  cases b with
  | string s => exact ⟨s, rfl⟩
  | _ => cases h

/-- An operand that is an array denotes a stack. -/
theorem exists_dataLoc_of_isA {b : Block} (h : b.isA .data = true) (m : Machine) :
    ∃ loc, m.dataLoc? b = some loc := by
  obtain ⟨loc, hloc⟩ := exists_stack_of_isA h
  rw [dataLoc?, resolve]
  rcases m.workspace.resolve_cases m.heap b with heq | ⟨d, -, heq⟩ | ⟨name, target, heq⟩
  · exact ⟨loc, by rw [heq, hloc]⟩
  · exact ⟨d, by rw [heq]; rfl⟩
  · -- a call is no array
    have hne : (m.workspace.resolve m.heap b).stack? ≠ none := by
      cases b with
      | null loc | package loc => simp [Workspace.resolve, Block.stack?]
      | data loc resolved =>
        cases resolved with
        | true => simp [Workspace.resolve, Block.stack?]
        | false =>
          simp only [Workspace.resolve]
          split <;> simp [Block.stack?]
      | _ => cases h
    exact absurd (by rw [heq]; rfl) hne

/-- An answer on the values of `m`: a block that, if it is an array, is a stack that `m` does not
have. -/
def Fresh (m : Machine) (x : Option Block × Machine) : Prop :=
  ∃ b, x.1 = some b ∧ x.2.values = m.values ∧
    ∀ loc, b.stack? = some loc → m.heap.size ≤ loc ∧ loc < x.2.heap.size

theorem fresh_error (m : Machine) (message : String) : Fresh m (some (.error message), m) :=
  ⟨_, rfl, rfl, fun _ h => by cases h⟩

theorem nextName_rest (loc : Loc) (m : Machine) :
    (m.nextName loc).2.values = m.values ∧ (m.nextName loc).2.heap = m.heap := by
  rw [nextName]
  split
  · exact ⟨rfl, rfl⟩
  · exact ⟨rfl, rfl⟩

/-- A new version is a new stack. -/
theorem fresh_newVersion {m n : Machine} (hv : n.values = m.values) (hh : m.heap.size ≤ n.heap.size)
    (loc : Loc) (edit : List Block → List Block) :
    Fresh m (some (n.newVersion loc edit).1, (n.newVersion loc edit).2) := by
  obtain ⟨hvalues, hheap⟩ := nextName_rest loc n
  refine ⟨_, rfl, hvalues.trans hv, ?_⟩
  intro found hfound
  have hloc : (n.nextName loc).2.heap.size = found := Option.some.inj hfound
  have hsize := Heap.size_alloc (n.nextName loc).2.heap
    (Stack.make (n.nextName loc).1 (edit ((n.nextName loc).2.heap.blocks loc)))
  change m.heap.size ≤ found ∧ found < ((n.nextName loc).2.heap.alloc
    (Stack.make (n.nextName loc).1 (edit ((n.nextName loc).2.heap.blocks loc)))).2.size
  rw [hsize, ← hloc, hheap]
  exact ⟨hh, Nat.lt_succ_self _⟩

section Edits

variable {m : Machine} {array key : Block}

theorem fresh_editAt (ha : array.isA .data = true) (hk : key.isA .number = true) (l : Localizer)
    (mark : String) (edit : Nat → List Block → List Block) :
    Fresh m (m.editAt l mark edit array key) := by
  obtain ⟨loc, hloc⟩ := exists_dataLoc_of_isA ha m
  obtain ⟨x, hx⟩ := exists_float_of_isA hk
  simp only [editAt, hloc, hx]
  split
  · exact fresh_newVersion rfl (Nat.le_refl _) loc _
  · exact fresh_error m _

theorem fresh_setMember (ha : array.isA .data = true) (hk : key.isA .string = true)
    (value : Block) : Fresh m (m.setMember array value key) := by
  obtain ⟨loc, hloc⟩ := exists_dataLoc_of_isA ha m
  obtain ⟨s, hs⟩ := exists_string_of_isA hk
  have hgrows := Heap.size_lt_alloc m.heap (Stack.make s [value])
  simp only [setMember, hloc, hs]
  exact fresh_newVersion (m := m) (n := (m.newData s [value]).2) rfl (Nat.le_of_lt hgrows) loc _

theorem fresh_deleteMember (ha : array.isA .data = true) (hk : key.isA .string = true)
    (l : Localizer) : Fresh m (m.deleteMember l array key) := by
  obtain ⟨loc, hloc⟩ := exists_dataLoc_of_isA ha m
  obtain ⟨s, hs⟩ := exists_string_of_isA hk
  simp only [deleteMember, hloc, hs]
  split
  · exact fresh_newVersion rfl (Nat.le_refl _) loc _
  · exact fresh_error m _

theorem fresh_appendTo (ha : array.isA .data = true) (value : Block) :
    Fresh m (m.appendTo array value) := by
  obtain ⟨loc, hloc⟩ := exists_dataLoc_of_isA ha m
  simp only [appendTo, hloc]
  exact fresh_newVersion rfl (Nat.le_refl _) loc _

end Edits

/-- Operands are taken off the value stack, and the heap stays as it is. -/
theorem popOperands_rest (this : Block) (k : Nat) :
    ∀ m : Machine, (m.popOperands this k).2.values <:+ m.values ∧
      (m.popOperands this k).2.heap = m.heap := by
  induction k with
  | zero =>
    intro m
    exact ⟨List.suffix_refl _, rfl⟩
  | succ k ih =>
    intro m
    have hv : (m.pop (some this)).2.values <:+ m.values := by
      rw [pop_values]
      exact List.tail_suffix _
    have hh : (m.pop (some this)).2.heap = m.heap := by simp [heap]
    rw [popOperands]
    rcases hm : m.pop (some this) with ⟨_ | b, n⟩
    all_goals rw [hm] at hv hh
    · exact ⟨hv, hh⟩
    · obtain ⟨hv', hh'⟩ := ih n
      exact ⟨hv'.trans hv, hh'.trans hh⟩

/-- An operator either complains or gets operands that fit one of its lists of tags. -/
theorem takeFor_cases (env : Environment) (this : Block) {op : Operator}
    (hop : op.info.signature ≠ .custom) (m : Machine) :
    (∃ n message rest, m.takeFor env this op = (none, n) ∧ n.values = .error message :: rest ∧
        rest <:+ m.values) ∨
      ∃ operands i tags n, m.takeFor env this op = (some (operands, i), n) ∧
        op.info.signature.choices[i]? = some tags ∧ fits tags operands = true ∧
        n.values <:+ m.values ∧ n.heap = m.heap := by
  rw [takeFor]
  split
  · rename_i tags hsig
    obtain ⟨hv, hh⟩ := popOperands_rest this tags.length m
    simp only [takeOperands]
    split
    · rename_i hfit
      exact .inr ⟨_, 0, tags, _, rfl, by rw [hsig]; rfl, hfit, hv, hh⟩
    · exact .inl ⟨_, _, _, rfl, push_values _ _, hv⟩
  · rename_i combinations hsig
    obtain ⟨hv, hh⟩ := popOperands_rest this ((combinations.head?.map List.length).getD 0) m
    simp only [takeOverloaded]
    split
    · rename_i i hi
      obtain ⟨hlt, hfit, -⟩ := List.findIdx?_eq_some_iff_getElem.1 hi
      exact .inr ⟨_, i, combinations[i], _, rfl,
        by rw [hsig]; exact List.getElem?_eq_getElem hlt, hfit, hv, hh⟩
    · exact .inl ⟨_, _, _, rfl, push_values _ _, hv⟩
  · rename_i hsig
    exact absurd hsig hop

/-- One of two lists of tags. -/
theorem choices_pair {tags tags₀ tags₁ : List Tag} {i : Nat}
    (h : (Operator.Signature.overloaded [tags₀, tags₁]).choices[i]? = some tags) :
    i = 0 ∧ tags = tags₀ ∨ i = 1 ∧ tags = tags₁ := by
  rcases i with _ | _ | i
  · exact .inl ⟨rfl, (Option.some.inj h).symm⟩
  · exact .inr ⟨rfl, (Option.some.inj h).symm⟩
  · cases h

/-- An operator that edits an array, on operands that fit it. -/
theorem fresh_operate {op : Operator} (hop : op.edits = true) (d : Discipline) (env : Environment)
    (this : Block) {i : Nat} {tags : List Tag} {operands : List Block}
    (htags : op.info.signature.choices[i]? = some tags) (hfit : fits tags operands = true)
    (m : Machine) : Fresh m (m.operate d env this op i operands) := by
  have hall := fits_iff.1 hfit
  cases op with
  | append =>
    obtain ⟨rfl, rfl⟩ : i = 0 ∧ tags = [.data, .block] := by
      rcases i with _ | i
      · exact ⟨rfl, (Option.some.inj htags).symm⟩
      · cases htags
    obtain _ | ⟨ha, _ | ⟨-, _ | _⟩⟩ := hall
    simp only [operate]
    exact fresh_appendTo ha _
  | insert =>
    rcases choices_pair htags with ⟨rfl, rfl⟩ | ⟨rfl, rfl⟩
    · obtain _ | ⟨ha, _ | ⟨-, _ | ⟨hk, _ | _⟩⟩⟩ := hall
      simp only [operate, if_true]
      exact fresh_editAt ha hk _ _ _
    · obtain _ | ⟨ha, _ | ⟨-, _ | ⟨hk, _ | _⟩⟩⟩ := hall
      simp only [operate, Nat.one_ne_zero, if_false]
      exact fresh_setMember ha hk _
  | replace =>
    rcases choices_pair htags with ⟨rfl, rfl⟩ | ⟨rfl, rfl⟩
    · obtain _ | ⟨ha, _ | ⟨-, _ | ⟨hk, _ | _⟩⟩⟩ := hall
      simp only [operate, if_true]
      exact fresh_editAt ha hk _ _ _
    · obtain _ | ⟨ha, _ | ⟨-, _ | ⟨hk, _ | _⟩⟩⟩ := hall
      simp only [operate, Nat.one_ne_zero, if_false]
      exact fresh_setMember ha hk _
  | delete =>
    rcases choices_pair htags with ⟨rfl, rfl⟩ | ⟨rfl, rfl⟩
    · obtain _ | ⟨ha, _ | ⟨hk, _ | _⟩⟩ := hall
      simp only [operate, if_true]
      exact fresh_editAt ha hk _ _ _
    · obtain _ | ⟨ha, _ | ⟨hk, _ | _⟩⟩ := hall
      simp only [operate, Nat.one_ne_zero, if_false]
      exact fresh_deleteMember ha hk _
  | _ => cases hop

/-- **Edited arrays are new.** An operator that edits an array leaves one block in place of its
operands; if that is an array, its stack was not there before. -/
theorem edit_fresh {op : Operator} (hop : op.edits = true) (d : Discipline) (env : Environment)
    (m : Machine) :
    ∃ b rest, (m.evaluate d env (.operator op)).values = b :: rest ∧ rest <:+ m.values ∧
      ∀ loc, b.stack? = some loc →
        m.heap.size ≤ loc ∧ loc < (m.evaluate d env (.operator op)).heap.size := by
  have hsig : op.info.signature ≠ .custom := by
    cases op with
    | insert | append | replace | delete => simp [Operator.info]
    | _ => cases hop
  simp only [evaluate, evaluateOperator]
  rcases takeFor_cases env (.operator op) hsig m with
    ⟨n, message, rest, htake, hv, hrest⟩ | ⟨operands, i, tags, n, htake, htags, hfit, hv, hh⟩
  · rw [htake]
    exact ⟨_, rest, hv, hrest, fun _ h => by cases h⟩
  · obtain ⟨b, hb, hvalues, hfresh⟩ := fresh_operate hop d env (.operator op) htags hfit n
    rw [htake]
    simp only
    generalize n.operate d env (.operator op) op i operands = x at hb hvalues hfresh ⊢
    obtain ⟨answer, n'⟩ := x
    simp only at hb hvalues hfresh
    subst hb
    refine ⟨b, n.values, by rw [push_values, hvalues], hv, ?_⟩
    rw [← hh]
    simpa [heap] using hfresh

/-! ## Evaluation -/

/-- **Evaluation edits no stack.** A step leaves every stack as it is that was there before it, with
its name, blocks, inputs and marks, whatever nested machines do within the step, and so does a run.
Hence a run leaves the text of the workspace as it is; and operators that edit an array answer with a
stack that was not there. -/
theorem evaluation_persistent (env : Environment) (m : Machine) :
    (∀ loc, loc < m.heap.size →
      (m.advance env).2.heap.get loc = m.heap.get loc ∧
        (∀ depth, (m.step (splicing env (runAt env depth)) env).2.heap.get loc = m.heap.get loc) ∧
        (m.run env).2.heap.get loc = m.heap.get loc) ∧
      (m.workspace.Grounded m.heap →
        (m.run env).2.workspace.written (m.run env).2.heap = m.workspace.written m.heap) ∧
      ∀ (d : Discipline) (op : Operator), op.edits = true →
        ∃ b rest, (m.evaluate d env (.operator op)).values = b :: rest ∧ rest <:+ m.values ∧
          ∀ loc, b.stack? = some loc →
            m.heap.size ≤ loc ∧ loc < (m.evaluate d env (.operator op)).heap.size := by
  have hstep : ∀ {run : Runner}, Adds run →
      Holds m.workspace m.heap (m.step (splicing env run) env).2 := fun hrun =>
    (holds_lasting env m.workspace m.heap).step (holds_sheltered hrun _ _) (Holds.self m)
  obtain ⟨hworkspace, hgrows⟩ := run_adds env m
  refine ⟨?_, ?_, ?_⟩
  · intro loc hlt
    exact ⟨(hstep (run_adds env)).2.get hlt, fun depth => (hstep (runAt_adds env depth)).2.get hlt,
      hgrows.get hlt⟩
  · intro hgrounded
    rw [hworkspace]
    exact hgrounded.written hgrows
  · intro d op hop
    exact edit_fresh hop d env m

/-- A machine that appends a text to its own main stack, which holds a package. -/
def selfAppender : Machine :=
  { make 10 ⟨[1], 0⟩ ⟨⟨⟨#[Stack.make "a" [.string "a"], Stack.make "main" [.package 0, .data 1 true]]⟩,
      Dice.ofSeed 0⟩, [], []⟩ with
    active := ⟨[.block (.data 1 true), .block (.string "b"), .block (.operator .append)], [], "main"⟩ }

/-- Its run leaves the text of the main stack alone. -/
theorem evaluation_persistent_selfAppender :
    selfAppender.workspace.Grounded selfAppender.heap ∧
      (selfAppender.run Environment.standard).2.workspace.written
          (selfAppender.run Environment.standard).2.heap =
        selfAppender.workspace.written selfAppender.heap := by
  have hgrounded : selfAppender.workspace.Grounded selfAppender.heap := by
    refine ⟨by simp [selfAppender, make, heap, Heap.size], ?_⟩
    intro loc hloc b hb
    obtain rfl : loc = 1 := List.mem_singleton.1 hloc
    rcases List.mem_cons.1 hb with rfl | hb
    · have hinner : selfAppender.heap.blocks 0 = [.string "a"] := rfl
      exact ⟨[0], .wrapped hinner (.flat (by simp) (by simp))⟩
    · obtain rfl := List.mem_singleton.1 hb
      refine ⟨[], .flat (by simp) ?_⟩
      rintro loc resolved ⟨⟩
      exact Nat.lt_succ_self 1
  exact ⟨hgrounded, (evaluation_persistent Environment.standard selfAppender).2.1 hgrounded⟩

end Machine

end BlockMachine
