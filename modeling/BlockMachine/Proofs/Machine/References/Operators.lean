import BlockMachine.Proofs.Machine.References

/-!
# Operators bring in no reference

What an operator answers, and what it leaves on the machine, is made of its operands, of blocks of
the stacks that they refer to, and of new stacks.

* `Sound.editAt`, `Sound.write` and so on — the data operators, `Sound.round`, `Sound.filterFrom`
  and so on — the control operators, `Sound.store` — memory;
* `Operator.target?_calculate` — arithmetic gives blocks that refer to nothing;
* `operate_safe` — so operators that need no nested machine answer with blocks that they know.
-/

namespace BlockMachine

namespace Machine

/-! ## Data operators -/

section Data

variable {m : Machine} {array value key : Block}

theorem Sound.safe_none (h : m.Sound) : Safe ((none : Option Block), m) :=
  ⟨h, fun _ hb => by cases hb⟩

/-- An answer without references. -/
theorem Sound.safe_plain (h : m.Sound) {b : Block} (hb : b.target? = none) : Safe (some b, m) := by
  refine ⟨h, fun c hc => ?_⟩
  obtain rfl := Option.some.inj hc
  exact knows_of_none m hb

theorem Sound.count (h : m.Sound) (array : Block) : Safe (m.count array, m) := by
  rw [Machine.count]
  cases m.dataLoc? array with
  | none => exact h.safe_none
  | some loc => exact h.safe_plain rfl

theorem Sound.readAll (h : m.Sound) (array : Block) : (m.readAll array).Sound := by
  rw [Machine.readAll]
  split
  · exact h.pushAll _ fun b hb => h.blocks hb
  · exact h

theorem Sound.elementByIndex (h : m.Sound) (l : Localizer) (array i : Block) :
    Safe (m.elementByIndex l array i, m) := by
  refine ⟨h, fun b hb => ?_⟩
  obtain ⟨loc, -, hb⟩ := Option.bind_eq_some_iff.1 hb
  obtain ⟨x, -, hb⟩ := Option.bind_eq_some_iff.1 hb
  simp only at hb
  split at hb
  · exact h.blocks (List.mem_of_getElem? hb)
  · obtain rfl := Option.some.inj hb
    exact knows_of_none m rfl

theorem Sound.elementByKey (h : m.Sound) (l : Localizer) (array key : Block) :
    Safe (m.elementByKey l array key, m) := by
  refine ⟨h, fun b hb => ?_⟩
  obtain ⟨loc, -, hb⟩ := Option.bind_eq_some_iff.1 hb
  obtain ⟨name, -, hb⟩ := Option.bind_eq_some_iff.1 hb
  simp only at hb
  split at hb
  · rename_i value hvalue
    obtain rfl := Option.some.inj hb
    obtain ⟨member, -, hmember⟩ := Option.bind_eq_some_iff.1 hvalue
    exact h.blocks (List.mem_of_mem_head? hmember)
  · obtain rfl := Option.some.inj hb
    exact knows_of_none m rfl

/-- The next version of a stack is an answer that the machine knows. -/
theorem Sound.safe_newVersion (h : m.Sound) {loc : Loc} {edit : List Block → List Block} {b : Block}
    {n : Machine} (hn : m.newVersion loc edit = (b, n))
    (hedit : ∀ b ∈ edit (m.heap.blocks loc), m.Knows b) : Safe (some b, n) := by
  have hsafe := (h.newVersion loc hedit).1
  rwa [hn] at hsafe

theorem Sound.editAt (h : m.Sound) (l : Localizer) (mark : String)
    {edit : Nat → List Block → List Block}
    (hedit : ∀ i loc, ∀ b ∈ edit i (m.heap.blocks loc), m.Knows b) (array i : Block) :
    Safe (m.editAt l mark edit array i) := by
  rw [Machine.editAt]
  split
  · simp only
    split
    · exact (h.newVersion _ (hedit _ _)).1
    · exact h.safe_plain rfl
  · exact h.safe_none

theorem Sound.setMember (h : m.Sound) (hv : m.Knows value) (array key : Block) :
    Safe (m.setMember array value key) := by
  rw [Machine.setMember]
  split
  · rename_i loc name _ _
    obtain ⟨hmember, hknows⟩ := h.newData name [value] (by simpa using hv)
    have hnew : (m.newData name [value]).2.Knows (m.newData name [value]).1 :=
      hmember.2 _ rfl
    refine (hmember.1.newVersion loc fun b hb => ?_).1
    split at hb
    · rcases List.mem_or_eq_of_mem_set hb with hb | rfl
      · exact hmember.1.blocks hb
      · exact hnew
    · rcases List.mem_append.1 hb with hb | hb
      · exact hmember.1.blocks hb
      · obtain rfl := List.mem_singleton.1 hb
        exact hnew
  · exact h.safe_none

theorem Sound.insertAt (h : m.Sound) (hv : m.Knows value) (l : Localizer) (array i : Block) :
    Safe (m.insertAt l array value i) := by
  refine h.editAt l _ (fun place loc b hb => ?_) array i
  rcases List.eq_or_mem_of_mem_insertIdx hb with rfl | hb
  · exact hv
  · exact h.blocks hb

theorem Sound.replaceAt (h : m.Sound) (hv : m.Knows value) (l : Localizer) (array i : Block) :
    Safe (m.replaceAt l array value i) := by
  refine h.editAt l _ (fun place loc b hb => ?_) array i
  split at hb
  · rcases List.mem_or_eq_of_mem_set hb with hb | rfl
    · exact h.blocks hb
    · exact hv
  · rcases List.mem_append.1 hb with hb | hb
    · exact h.blocks hb
    · obtain rfl := List.mem_singleton.1 hb
      exact hv

theorem Sound.deleteAt (h : m.Sound) (l : Localizer) (array i : Block) :
    Safe (m.deleteAt l array i) :=
  h.editAt l _ (fun _ _ _ hb => h.blocks (List.mem_of_mem_eraseIdx hb)) array i

theorem Sound.deleteMember (h : m.Sound) (l : Localizer) (array key : Block) :
    Safe (m.deleteMember l array key) := by
  rw [Machine.deleteMember]
  split
  · split
    · split
      rename_i hn
      exact h.safe_newVersion hn fun _ hb => h.blocks (List.mem_of_mem_eraseIdx hb)
    · exact h.safe_plain rfl
  · exact h.safe_none

theorem Sound.appendTo (h : m.Sound) (hv : m.Knows value) (array : Block) :
    Safe (m.appendTo array value) := by
  rw [Machine.appendTo]
  split
  · split
    rename_i hn
    refine h.safe_newVersion hn fun b hb => ?_
    rcases List.mem_append.1 hb with hb | hb
    · exact h.blocks hb
    · obtain rfl := List.mem_singleton.1 hb
      exact hv
  · exact h.safe_none

/-- The blocks found so far are in flight. -/
theorem Sound.gather (this : Block) (count : Float) (fuel : Nat) :
    ∀ {m : Machine} (found : Float) (blocks : List Block), m.Sound → (∀ b ∈ blocks, m.Knows b) →
      (Machine.gather this count fuel found blocks m).2.Sound ∧
        ∀ bs, (Machine.gather this count fuel found blocks m).1 = .ok bs →
          ∀ b ∈ bs, (Machine.gather this count fuel found blocks m).2.Knows b := by
  induction fuel with
  | zero =>
    intro m found blocks h hblocks
    refine ⟨h, fun bs hbs => ?_⟩
    obtain rfl := Except.ok.inj hbs
    exact hblocks
  | succ fuel ih =>
    intro m found blocks h hblocks
    have hpop := h.pop (some this)
    have hknows := knows_pop m (some this)
    rw [Machine.gather]
    split
    · rcases hm : m.pop (some this) with ⟨_ | b, m'⟩
      all_goals rw [hm] at hpop hknows
      · exact ⟨hpop.1, fun bs hbs => by cases hbs⟩
      · refine ih _ (b :: blocks) hpop.1 fun c hc => ?_
        rcases List.mem_cons.1 hc with rfl | hc
        · exact hpop.2 _ rfl
        · exact (hknows c).2 (hblocks c hc)
    · refine ⟨h, fun bs hbs => ?_⟩
      obtain rfl := Except.ok.inj hbs
      exact hblocks

theorem Sound.write (h : m.Sound) (l : Localizer) (this : Block) : Safe (m.write l this) := by
  have hpop := (h.pop (some this)).1
  rw [Machine.write]
  rcases hm : m.pop (some this) with ⟨top, m'⟩
  rw [hm] at hpop
  simp only
  cases top.bind Block.float? with
  | none => exact hpop.safe_plain rfl
  | some k =>
    simp only
    have hgather := Sound.gather this (Decimal.floor k) (m'.nextAnonymous.2.values.length + 1) 0 []
      hpop.nextAnonymous (by simp)
    generalize Machine.gather this (Decimal.floor k) (m'.nextAnonymous.2.values.length + 1) 0 []
      m'.nextAnonymous.2 = x at hgather ⊢
    obtain ⟨found | bs, n⟩ := x
    · exact hgather.1.safe_plain rfl
    · exact (hgather.1.newData _ bs (hgather.2 bs rfl)).1

end Data

/-! ## Control operators -/

section Control

variable {env : Environment} {m : Machine} {array f value : Block}

theorem Sound.execute (h : m.Sound) (env : Environment) (f : Block) :
    (m.execute (Machine.insert env) f).Sound := by
  rw [Machine.execute]
  split
  · exact h.insert env fun b hb => h.blocks hb
  · exact h

theorem Sound.runHelper (h : m.Sound) (env : Environment) (name : String) {bs : List Block}
    (hbs : ∀ b ∈ bs, m.Knows b) : (m.runHelper (Machine.insert env) name bs).Sound :=
  h.insert env hbs

theorem Sound.mapArray (h : m.Sound) (env : Environment) (ha : m.Knows array) (hf : m.Knows f) :
    (m.mapArray (Machine.insert env) array f).Sound := by
  obtain ⟨happend, hknows⟩ := h.newData "append" [.operator .append]
    (by simpa using knows_of_none m rfl)
  obtain ⟨hnull, hknows'⟩ := happend.1.newNull
  refine hnull.1.runHelper env "map" ?_
  simp only [List.mem_cons, List.not_mem_nil, or_false, forall_eq_or_imp, forall_eq]
  exact ⟨hnull.2 _ rfl, hknows' _ (hknows _ (h.resolve ha)), hknows' _ (hknows _ (h.resolve hf)),
    hknows' _ (happend.2 _ rfl), knows_of_none _ rfl, knows_of_none _ rfl, knows_of_none _ rfl⟩

theorem Sound.round (h : m.Sound) (env : Environment) (name : String) (helper : Operator)
    {element : Block} (he : m.Knows element) (ha : m.Knows array) (hf : m.Knows f) (next : Float) :
    (m.round (Machine.insert env) name helper element array f next).Sound := by
  rw [Machine.round]
  split
  · rename_i call hcall
    refine h.runHelper env name ?_
    simp only [List.mem_cons, List.not_mem_nil, or_false, forall_eq_or_imp, forall_eq]
    exact ⟨he, h.callOf? hf hcall, h.resolve ha, h.resolve hf, knows_of_none _ rfl,
      knows_of_none _ rfl⟩
  · exact h

theorem Sound.foldArray (h : m.Sound) (env : Environment) (ha : m.Knows array) (hf : m.Knows f) :
    (m.foldArray (Machine.insert env) array f).Sound := by
  rw [Machine.foldArray]
  split
  · rename_i first hfirst
    obtain ⟨loc, -, hfirst⟩ := Option.bind_eq_some_iff.1 hfirst
    exact h.round env _ _ (h.blocks (List.mem_of_mem_head? hfirst)) ha hf _
  · exact h

theorem Sound.elementAt? (h : m.Sound) {loc : Loc} {i : Float} {element : Block}
    (he : Machine.elementAt? (m.heap.blocks loc) i = some element) : m.Knows element := by
  rw [Machine.elementAt?] at he
  split at he
  · cases he
  · exact h.blocks (List.mem_of_getElem? he)

theorem Sound.foldFrom (h : m.Sound) (env : Environment) (ha : m.Knows array) (hf : m.Knows f)
    (i : Block) : (m.foldFrom (Machine.insert env) array f i).Sound := by
  rw [Machine.foldFrom]
  split
  · rename_i x element hnext
    obtain ⟨y, -, hnext⟩ := Option.bind_eq_some_iff.1 hnext
    obtain ⟨loc, -, hnext⟩ := Option.bind_eq_some_iff.1 hnext
    obtain ⟨element', he, hnext⟩ := Option.bind_eq_some_iff.1 hnext
    obtain ⟨rfl, rfl⟩ := Prod.mk.inj (Option.some.inj hnext)
    exact h.round env _ _ (h.elementAt? he) ha hf _
  · exact h

theorem Sound.maybe (h : m.Sound) (env : Environment) {condition : Block} (hv : m.Knows value)
    (hc : m.Knows condition) (hf : m.Knows f) :
    (m.maybe (Machine.insert env) value condition f).Sound := by
  rw [Machine.maybe]
  split
  · rename_i test call htest hcall
    obtain ⟨hact, hknows⟩ := h.newData "do-op" [value, call]
      (by simpa using ⟨hv, h.callOf? hf hcall⟩)
    obtain ⟨hnull, hknows'⟩ := hact.1.newNull
    refine hnull.1.runHelper env "maybe" ?_
    simp only [List.mem_cons, List.not_mem_nil, or_false, forall_eq_or_imp, forall_eq]
    exact ⟨hknows' _ (hknows _ hv), hknows' _ (hknows _ (h.callOf? hc htest)),
      hknows' _ (hact.2 _ rfl), hnull.2 _ rfl, knows_of_none _ rfl⟩
  · exact h

theorem Sound.filterArray (h : m.Sound) (env : Environment) (ha : m.Knows array)
    (hf : m.Knows f) : Safe (m.filterArray (Machine.insert env) array f) := by
  rw [Machine.filterArray]
  split
  · split
    · rename_i first hfirst
      exact (h.round env _ _ (h.blocks (List.mem_of_mem_head? hfirst)) ha hf _).safe_none
    · refine ⟨h, fun b hb => ?_⟩
      obtain rfl := Option.some.inj hb
      exact h.resolve ha
  · exact h.safe_none

/-- The next round of a filter, once the array is settled. -/
theorem Sound.filterNext (h : m.Sound) (env : Environment) (ha : m.Knows array)
    (hf : m.Knows f) (i : Float) :
    Safe (match (array.stack?).bind fun loc => Machine.elementAt? (m.heap.blocks loc) i with
      | some element =>
        ((none : Option Block), m.round (Machine.insert env) "filter`" .filterHelper element array f
          (i + 1))
      | none => (some array, m)) := by
  split
  · rename_i element he
    obtain ⟨loc, -, he⟩ := Option.bind_eq_some_iff.1 he
    exact (h.round env _ _ (h.elementAt? he) ha hf _).safe_none
  · refine ⟨h, fun b hb => ?_⟩
    obtain rfl := Option.some.inj hb
    exact ha

theorem Sound.filterFrom (h : m.Sound) (env : Environment) (keep i : Block) (ha : m.Knows array)
    (hf : m.Knows f) : Safe (m.filterFrom (Machine.insert env) keep array f i) := by
  rw [Machine.filterFrom]
  split
  · rename_i keep loc x _ _ _
    cases keep with
    | true => exact h.filterNext env (h.resolve ha) hf x
    | false =>
      have hdropped : ∀ b ∈ dropBefore x (m.heap.blocks loc), m.Knows b := by
        intro b hb
        rw [dropBefore] at hb
        split at hb
        · exact h.blocks (List.mem_of_mem_eraseIdx hb)
        · exact h.blocks hb
      obtain ⟨hversion, hknows⟩ := h.newVersion loc hdropped
      exact hversion.1.filterNext env (hversion.2 _ rfl) (hknows f hf) _
  · exact h.safe_none

theorem Sound.repeatTimes (h : m.Sound) (env : Environment) (hf : m.Knows f) (k : Block) :
    (m.repeatTimes (Machine.insert env) f k).Sound := by
  rw [Machine.repeatTimes]
  split
  · rename_i call _ hcall
    split
    · exact h
    · refine h.runHelper env "repeat" ?_
      simp only [List.mem_cons, List.not_mem_nil, or_false, forall_eq_or_imp, forall_eq]
      exact ⟨h.callOf? hf hcall, h.resolve hf, knows_of_none _ rfl, knows_of_none _ rfl⟩
  · exact h

theorem Sound.iterate (h : m.Sound) (env : Environment) {i k : Block} (hf : m.Knows f)
    (hi : m.Knows i) (hk : m.Knows k) : (m.iterate (Machine.insert env) f i k).Sound := by
  rw [Machine.iterate]
  split
  · rename_i call _ _ hcall
    split
    · exact h
    · refine h.runHelper env "iter" ?_
      simp only [List.mem_cons, List.not_mem_nil, or_false, forall_eq_or_imp, forall_eq]
      exact ⟨hi, h.callOf? hf hcall, h.resolve hf, knows_of_none _ rfl, hk, knows_of_none _ rfl⟩
  · exact h

end Control

/-! ## Operands and memory -/

section Operands

variable {m : Machine} {b : Block}

theorem Sound.popOperands (this : Block) (k : Nat) :
    ∀ {m : Machine}, m.Sound → Safe (m.popOperands this k) := by
  induction k with
  | zero =>
    intro m h
    exact ⟨h, fun b hb => absurd hb List.not_mem_nil⟩
  | succ k ih =>
    intro m h
    have hpop := h.pop (some this)
    rw [Machine.popOperands]
    rcases hm : m.pop (some this) with ⟨_ | b, m'⟩
    all_goals rw [hm] at hpop
    · exact ⟨hpop.1, fun b hb => absurd hb List.not_mem_nil⟩
    · obtain ⟨hsound, hbs⟩ := ih hpop.1
      refine ⟨hsound, fun c hc => ?_⟩
      rcases List.mem_append.1 hc with hc | hc
      · exact hbs c hc
      · obtain rfl := List.mem_singleton.1 hc
        have hsize := congrArg Heap.size (popOperands_rest this k m').2
        exact Knows.of_size (hpop.2 _ rfl) hsize.ge

theorem Sound.takeOperands (h : m.Sound) (env : Environment) (this : Block) (name : String)
    (tags : List Tag) : (m.takeOperands env this name tags).2.Sound ∧
      ∀ bs, (m.takeOperands env this name tags).1 = some bs →
        ∀ b ∈ bs, (m.takeOperands env this name tags).2.Knows b := by
  obtain ⟨hsound, hbs⟩ := Sound.popOperands this tags.length h
  rw [Machine.takeOperands]
  simp only
  split
  · refine ⟨hsound, ?_⟩
    rintro _ ⟨⟩
    exact hbs
  · exact ⟨hsound.push (knows_of_none _ rfl), fun bs hbs => by cases hbs⟩

theorem Sound.takeOverloaded (h : m.Sound) (env : Environment) (this : Block) (name : String)
    (combinations : List (List Tag)) : (m.takeOverloaded env this name combinations).2.Sound ∧
      ∀ bs i, (m.takeOverloaded env this name combinations).1 = some (bs, i) →
        ∀ b ∈ bs, (m.takeOverloaded env this name combinations).2.Knows b := by
  obtain ⟨hsound, hbs⟩ :=
    Sound.popOperands this ((combinations.head?.map List.length).getD 0) h
  rw [Machine.takeOverloaded]
  simp only
  split
  · refine ⟨hsound, ?_⟩
    rintro _ _ ⟨⟩
    exact hbs
  · exact ⟨hsound.push (knows_of_none _ rfl), fun bs i hbs => by cases hbs⟩

theorem Sound.takeFor (h : m.Sound) (env : Environment) (this : Block) (op : Operator) :
    (m.takeFor env this op).2.Sound ∧ ∀ bs i, (m.takeFor env this op).1 = some (bs, i) →
      ∀ b ∈ bs, (m.takeFor env this op).2.Knows b := by
  rw [Machine.takeFor]
  split
  · rename_i tags _
    obtain ⟨hsound, hbs⟩ := h.takeOperands env this op.name tags
    refine ⟨hsound, fun bs i htaken => ?_⟩
    obtain ⟨operands, hoperands, heq⟩ := Option.map_eq_some_iff.1 htaken
    obtain ⟨rfl, -⟩ := Prod.mk.inj heq
    exact hbs _ hoperands
  · exact h.takeOverloaded env this op.name _
  · refine ⟨h, ?_⟩
    rintro _ _ ⟨⟩
    exact fun b hb => absurd hb List.not_mem_nil

theorem Sound.store (h : m.Sound) (l : Localizer) (id name : String) (hb : m.Knows b) :
    Safe (m.store l id name b) := by
  rw [Machine.store]
  split
  · rename_i m' hset
    obtain ⟨memory, changed, log, hmemory, rfl⟩ := setVariable_eq hset
    refine Sound.safe_none ⟨⟨h.world.workspace, h.world.heap, ?_⟩, h.values, h.frames⟩
    exact h.world.memory.setVariable hb hmemory
  · exact h.safe_plain rfl

theorem Sound.getSymbol (h : m.Sound) (env : Environment) (this : Block) (name : String) :
    (m.getSymbol env this name).Sound := by
  obtain ⟨hsound, -⟩ := h.takeOperands env this "GetSymbolOperator" [.memory]
  rw [Machine.getSymbol]
  split
  · rename_i id m' htaken
    rw [htaken] at hsound
    exact hsound.push (hsound.world.memory.variableOf _ _ _)
  · rename_i htaken
    rw [htaken] at hsound
    exact hsound

theorem Sound.setSymbol (h : m.Sound) (env : Environment) (this : Block) (name : String) :
    (m.setSymbol env this name).Sound := by
  obtain ⟨hsound, hbs⟩ := h.takeOperands env this "SetSymbolOperator" [.block, .memory]
  rw [Machine.setSymbol]
  split
  · rename_i b id m' htaken
    rw [htaken] at hsound hbs
    have hstore := Sound.store hsound env.localizer id name (hbs _ rfl b List.mem_cons_self)
    split
    · rename_i hs
      rw [hs] at hstore
      exact hstore.1.push (hstore.2 _ rfl)
    · rename_i hs
      rw [hs] at hstore
      exact hstore.1
  · rename_i htaken
    rw [htaken] at hsound
    exact hsound

theorem Sound.respread (h : m.Sound) (this : Block) (copies : Nat) (whenEmpty : String) :
    (m.respread this copies whenEmpty).Sound := by
  have hpop := h.pop (some this)
  rw [Machine.respread]
  rcases hm : m.pop (some this) with ⟨_ | b, m'⟩
  all_goals rw [hm] at hpop
  · exact hpop.1.push (knows_of_none _ rfl)
  · refine hpop.1.pushAll _ fun c hc => ?_
    obtain rfl := List.eq_of_mem_replicate hc
    exact hpop.2 _ rfl

end Operands

end Machine

/-! ## Operators -/

/-- A block that holds a number refers to nothing. -/
theorem Block.target?_of_float? {b : Block} {x : Float} (h : b.float? = some x) :
    b.target? = none := by
  cases b with
  | number r _ | randomInt r _ | randomReal r _ => rfl
  | _ => cases h

/-- Arithmetic gives numbers, truth values and errors. -/
theorem Operator.target?_calculate {l : Localizer} {h : Heap} {op : Operator}
    {operands : List Block} {b : Block} (hb : op.calculate l h operands = some b) :
    b.target? = none := by
  have hone : ∀ {α : Type} {x : Option α} {f : α → Block}, (x.bind fun a => some (f a)) = some b →
      (∀ a, x = some a → (f a).target? = none) → b.target? = none := by
    intro α x f hx hf
    obtain ⟨a, ha, hfa⟩ := Option.bind_eq_some_iff.1 hx
    obtain rfl := Option.some.inj hfa
    exact hf a ha
  have htwo : ∀ {α β : Type} {x : Option α} {y : Option β} {f : α → β → Block},
      (x.bind fun a => y.bind fun c => some (f a c)) = some b →
        (∀ a c, x = some a → y = some c → (f a c).target? = none) → b.target? = none := by
    intro α β x y f hx hf
    obtain ⟨a, ha, hx⟩ := Option.bind_eq_some_iff.1 hx
    obtain ⟨c, hc, hx⟩ := Option.bind_eq_some_iff.1 hx
    obtain rfl := Option.some.inj hx
    exact hf a c ha hc
  cases op with
  | plus | minus | multiply | divide | power | modulo | lessThan | greaterThan | lessOrEqual
  | greaterOrEqual | conjunction | disjunction | arcTangent2 =>
    match operands with
    | [_, _] => exact htwo hb fun _ _ _ _ => rfl
    | [] | [_] | _ :: _ :: _ :: _ => cases hb
  | ceil | floor | round | logarithm | naturalLogarithm | sine | cosine | tangent | arcSine
  | arcCosine | arcTangent | absolute | squareRoot | negate =>
    match operands with
    | [_] => exact hone hb fun _ _ => rfl
    | [] | _ :: _ :: _ => cases hb
  | minimum =>
    -- the answer is an operand, which is a number
    match operands with
    | [_, _] =>
      refine htwo hb fun x y hx hy => ?_
      split
      · exact Block.target?_of_float? hx
      · exact Block.target?_of_float? hy
    | [] | [_] | _ :: _ :: _ :: _ => cases hb
  | maximum =>
    match operands with
    | [_, _] =>
      refine htwo hb fun x y hx hy => ?_
      split
      · exact Block.target?_of_float? hy
      · exact Block.target?_of_float? hx
    | [] | [_] | _ :: _ :: _ :: _ => cases hb
  | factorial =>
    match operands with
    | [_] =>
      obtain ⟨x, -, hb⟩ := Option.bind_eq_some_iff.1 hb
      split at hb
      · obtain rfl := Option.some.inj hb
        rfl
      · obtain rfl := Option.some.inj hb
        rfl
    | [] | _ :: _ :: _ => cases hb
  | equal =>
    match operands with
    | [_, _] =>
      obtain rfl := Option.some.inj hb
      rfl
    | [] | [_] | _ :: _ :: _ :: _ => cases hb
  | _ => cases hb

namespace Machine

section Operators

variable {env : Environment} {m : Machine} {operands : List Block}

/-- Rolled numbers refer to nothing. -/
theorem target?_roll (m : Machine) : m.roll.1.target? = none := by
  rw [roll]
  split <;> rfl

/-- **Operators that need no nested machine** answer with blocks that they know. -/
theorem operate_safe (h : m.Sound) (run : Runner) (env : Environment) (this : Block)
    {op : Operator} (hop : op.isCalculus = false) (overload : Nat)
    (hbs : ∀ b ∈ operands, m.Knows b) :
    Safe (m.operate (splicing env run) env this op overload operands) := by
  have hnone := h.safe_none
  cases op with
  | random =>
    refine ⟨?_, ?_⟩
    · have hroll : (m.operate (splicing env run) env this .random overload operands).2 =
          m.roll.2 := rfl
      rw [hroll, roll_eq]
      exact ⟨⟨h.world.workspace, h.world.heap, h.world.memory⟩, h.values, h.frames⟩
    · rintro _ ⟨⟩
      exact knows_of_none _ (target?_roll m)
  | execute =>
    rcases operands with _ | ⟨f, _ | _⟩
    case cons.nil => exact (h.execute env f).safe_none
    all_goals exact hnone
  | branch =>
    rcases operands with _ | ⟨condition, _ | ⟨yes, _ | ⟨no, _ | _⟩⟩⟩
    case cons.cons.cons.nil =>
      simp only [operate]
      cases condition.boolean? with
      | none => exact hnone
      | some c => exact (h.execute env _).safe_none
    all_goals exact hnone
  | map =>
    rcases operands with _ | ⟨array, _ | ⟨f, _ | _⟩⟩
    case cons.cons.nil => exact (h.mapArray env (hbs _ (by simp)) (hbs _ (by simp))).safe_none
    all_goals exact hnone
  | fold =>
    rcases operands with _ | ⟨array, _ | ⟨f, _ | _⟩⟩
    case cons.cons.nil => exact (h.foldArray env (hbs _ (by simp)) (hbs _ (by simp))).safe_none
    all_goals exact hnone
  | foldHelper =>
    rcases operands with _ | ⟨array, _ | ⟨f, _ | ⟨i, _ | _⟩⟩⟩
    case cons.cons.cons.nil =>
      exact (h.foldFrom env (hbs _ (by simp)) (hbs _ (by simp)) i).safe_none
    all_goals exact hnone
  | maybe =>
    rcases operands with _ | ⟨value, _ | ⟨condition, _ | ⟨f, _ | _⟩⟩⟩
    case cons.cons.cons.nil =>
      exact (h.maybe env (hbs _ (by simp)) (hbs _ (by simp)) (hbs _ (by simp))).safe_none
    all_goals exact hnone
  | filter =>
    rcases operands with _ | ⟨array, _ | ⟨f, _ | _⟩⟩
    case cons.cons.nil => exact h.filterArray env (hbs _ (by simp)) (hbs _ (by simp))
    all_goals exact hnone
  | filterHelper =>
    rcases operands with _ | ⟨keep, _ | ⟨array, _ | ⟨f, _ | ⟨i, _ | _⟩⟩⟩⟩
    case cons.cons.cons.cons.nil =>
      exact h.filterFrom env keep i (hbs _ (by simp)) (hbs _ (by simp))
    all_goals exact hnone
  | compose =>
    rcases operands with _ | ⟨f, _ | ⟨k, _ | _⟩⟩
    case cons.cons.nil => exact (h.repeatTimes env (hbs _ (by simp)) k).safe_none
    all_goals exact hnone
  | iterate =>
    rcases operands with _ | ⟨f, _ | ⟨i, _ | ⟨k, _ | _⟩⟩⟩
    case cons.cons.cons.nil =>
      exact (h.iterate env (hbs _ (by simp)) (hbs _ (by simp)) (hbs _ (by simp))).safe_none
    all_goals exact hnone
  | count =>
    rcases operands with _ | ⟨array, _ | _⟩
    case cons.nil => exact h.count array
    all_goals exact hnone
  | read =>
    rcases operands with _ | ⟨array, _ | _⟩
    case cons.nil => exact (h.readAll array).safe_none
    all_goals exact hnone
  | elem =>
    rcases operands with _ | ⟨array, _ | ⟨key, _ | _⟩⟩
    case cons.cons.nil =>
      simp only [operate]
      split
      · exact h.elementByIndex _ _ _
      · exact h.elementByKey _ _ _
    all_goals exact hnone
  | insert =>
    rcases operands with _ | ⟨array, _ | ⟨value, _ | ⟨key, _ | _⟩⟩⟩
    case cons.cons.cons.nil =>
      simp only [operate]
      split
      · exact h.insertAt (hbs _ (by simp)) _ _ _
      · exact h.setMember (hbs _ (by simp)) _ _
    all_goals exact hnone
  | append =>
    rcases operands with _ | ⟨array, _ | ⟨value, _ | _⟩⟩
    case cons.cons.nil => exact h.appendTo (hbs _ (by simp)) array
    all_goals exact hnone
  | replace =>
    rcases operands with _ | ⟨array, _ | ⟨value, _ | ⟨key, _ | _⟩⟩⟩
    case cons.cons.cons.nil =>
      simp only [operate]
      split
      · exact h.replaceAt (hbs _ (by simp)) _ _ _
      · exact h.setMember (hbs _ (by simp)) _ _
    all_goals exact hnone
  | delete =>
    rcases operands with _ | ⟨array, _ | ⟨key, _ | _⟩⟩
    case cons.cons.nil =>
      simp only [operate]
      split
      · exact h.deleteAt _ _ _
      · exact h.deleteMember _ _ _
    all_goals exact hnone
  | write => exact h.write _ _
  | integral | derivative | sum | product | positiveLimit | negativeLimit | limit => cases hop
  | getMemory =>
    cases operands with
    | nil => exact hnone
    | cons object rest =>
      cases object with
      | memory id =>
        cases rest with
        | nil => exact hnone
        | cons reference rest =>
          cases reference with
          | memoryReference name =>
            cases rest with
            | nil =>
              refine ⟨h, ?_⟩
              rintro _ ⟨⟩
              exact h.world.memory.variableOf _ _ _
            | cons _ _ => exact hnone
          | _ => exact hnone
      | _ => exact hnone
  | setMemory =>
    cases operands with
    | nil => exact hnone
    | cons object rest =>
      cases object with
      | memory id =>
        rcases rest with _ | ⟨value, _ | ⟨reference, rest⟩⟩
        · exact hnone
        · exact hnone
        · cases reference with
          | memoryReference name =>
            cases rest with
            | nil => exact h.store _ id name (hbs _ (by simp))
            | cons _ _ => exact hnone
          | _ => exact hnone
      | _ => exact hnone
  | _ =>
    -- all others are calculated from the operands and the heap
    refine ⟨h, fun b hb => knows_of_none m (Operator.target?_calculate hb)⟩

end Operators

end Machine

end BlockMachine
