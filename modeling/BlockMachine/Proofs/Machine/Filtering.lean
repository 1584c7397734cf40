import BlockMachine.Proofs.Machine.FlatLoops
import BlockMachine.Proofs.Machine.Mapping
import Mathlib.Data.ENat.Basic

/-!
# Filtering an array

`filter` runs a predicate on each element and drops from a copy of the array those that it refuses.
The helper counts places from one and is always one place ahead of the element that it has a verdict
on; after a drop it goes back by one.

* `Goes` — steps before a point, whatever they ask for; `Offers` — and what a call was made on by
  the frame of a given depth;
* `Decides` — the call of a predicate replaces a literal by a verdict and changes nothing else, as
  long as a number of steps is not exceeded; `Decides.offers` — it is one call on that literal;
* `filterFrom_eq` — a turn of the helper;
* `Filtering` — the invariant, at the start of the round for an element, and `Judged` — in front of
  the helper's next turn: `Filtering.judged`, `Judged.goes_on` — one round; `Filtering.offers` — all
  of them, by induction on the elements that are left;
* `filter_selects` — `filter` is the list filter.
-/

namespace BlockMachine.Machine

/-! ## Steps and calls -/

/-- So many steps from one machine to another, each of which begins before a point. -/
def Goes (d : Discipline) (env : Environment) (k r : Nat) : Nat → Machine → Machine → Prop
  | 0, m, x => x = m
  | c + 1, m, x => m.isPast k r = false ∧ Goes d env k r c (m.step d env).2.counted x

/-- What lies on top, if the frame with `depth` frames around it is about to make a call. -/
def offer (depth : Nat) (call : Block) (m : Machine) : List Block :=
  if m.outer.length = depth ∧ m.active.program.head? = some (.block call) then m.values.take 1
  else []

/-- What the calls were made on in so many steps. -/
def offered (d : Discipline) (env : Environment) (depth : Nat) (call : Block) :
    Nat → Machine → List Block
  | 0, _ => []
  | c + 1, m => m.offer depth call ++ offered d env depth call c (m.step d env).2.counted

/-- Some steps from one machine to another, each of which begins before a point, in which the frame
with `depth` frames around it makes a call on each of the blocks `xs`, in this order, and no other.
-/
def Offers (d : Discipline) (env : Environment) (k r depth : Nat) (call : Block) (xs : List Block)
    (m x : Machine) : Prop :=
  ∃ c, Goes d env k r c m x ∧ offered d env depth call c m = xs

section Offers

variable {d : Discipline} {env : Environment} {run : Runner} {k r k' r' depth c : Nat}
  {call : Block} {xs ys : List Block} {m n x : Machine}

theorem Leads.goes (h : Leads d env k r c m x) : Goes d env k r c m x := by
  induction c generalizing m with
  | zero => exact h
  | succ c ih => exact ⟨h.1, ih h.2.2⟩

theorem Offers.refl (m : Machine) : Offers d env k r depth call [] m m :=
  ⟨0, rfl, rfl⟩

theorem Offers.trans (h : Offers d env k r depth call xs m n)
    (h' : Offers d env k r depth call ys n x) : Offers d env k r depth call (xs ++ ys) m x := by
  obtain ⟨c, hc, rfl⟩ := h
  obtain ⟨c', hc', rfl⟩ := h'
  induction c generalizing m with
  | zero =>
    obtain rfl : n = m := hc
    exact ⟨c', hc', rfl⟩
  | succ c ih =>
    obtain ⟨hbefore, hrest⟩ := hc
    obtain ⟨c'', hc'', hoffered⟩ := ih hrest
    refine ⟨c'' + 1, ⟨hbefore, hc''⟩, ?_⟩
    rw [offered, hoffered, offered, List.append_assoc]

theorem Goes.weaken (hearly : k < k' ∨ k = k' ∧ r ≤ r') (h : Goes d env k' r' c m x) :
    Goes d env k r c m x := by
  induction c generalizing m with
  | zero => exact h
  | succ c ih =>
    obtain ⟨hbefore, hrest⟩ := h
    refine ⟨?_, ih hrest⟩
    rw [not_isPast_iff] at hbefore ⊢
    omega

theorem Chained.goes (hm : Chained m) (h : Goes (splicing env run) env k r c m x) : Chained x := by
  induction c generalizing m with
  | zero =>
    obtain rfl : x = m := h
    exact hm
  | succ c ih => exact ih (hm.step env run).counted h.2

theorem Chained.offers (hm : Chained m)
    (h : Offers (splicing env run) env k r depth call xs m x) : Chained x := by
  obtain ⟨c, hc, -⟩ := h
  exact hm.goes hc

/-- The step limit stays. -/
theorem Offers.limit (h : Offers (splicing env run) env k r depth call xs m x) :
    x.limit = m.limit := by
  obtain ⟨c, hc, -⟩ := h
  induction c generalizing m with
  | zero =>
    obtain rfl : x = m := hc
    rfl
  | succ c ih =>
    have hpaced : Paced m (m.step (splicing env run) env).2 :=
      (paced_lasting env m).step (paced_sheltered env run m) ⟨rfl, rfl, rfl, rfl⟩
    have hlimit : (m.step (splicing env run) env).2.counted.limit = m.limit := by
      rw [Machine.limit, Machine.limit, ← hpaced.maxSteps, ← hpaced.budget]
      rfl
    exact (ih hc.2).trans hlimit

/-- A step that evaluates another block makes no call. -/
theorem Leads.offers_none {b : Block} {rest : List Pending} (h : Leads d env k r 1 m n)
    (hp : m.active.program = .block b :: rest) (hb : b ≠ call) (depth : Nat) :
    Offers d env k r depth call [] m n := by
  refine ⟨1, h.goes, ?_⟩
  rw [offered, offered, List.append_nil, offer, if_neg]
  rintro ⟨-, hhead⟩
  rw [hp] at hhead
  exact hb (Pending.block.inj (Option.some.inj hhead))

/-- Values are pushed one by one, without a call. -/
theorem offers_values (env : Environment) (run : Runner) (depth : Nat)
    (hcall : call.isValue = false) {rest : List Pending} (bs : List Block)
    (hb : ∀ b ∈ bs, b.isValue = true) (hrest : rest ≠ []) :
    ∀ {m : Machine}, Chained m → m.active.program = bs.map .block ++ rest →
      (k < m.outer.length ∨ m.outer.length = k ∧ r ≤ rest.length) →
      ∃ n, Offers (splicing env run) env k r depth call [] m n ∧
        Moved m ((bs.map m.resolve).reverse ++ m.values) rest n := by
  induction bs with
  | nil =>
    intro m hm hp hk
    have hself := moved_self m
    rw [hp] at hself
    exact ⟨m, .refl m, hself⟩
  | cons b bs ih =>
    intro m hm hp hk
    have hvalue := hb b List.mem_cons_self
    have hpast : m.isPast k r = false := by
      rw [not_isPast_iff, hp]
      simp only [List.map_cons, List.cons_append, List.length_cons, List.length_append]
      omega
    obtain ⟨n, hn, hmoved⟩ := leads_value env run hm hp hvalue (by simp [hrest]) hpast
    have hne : b ≠ call := by
      rintro rfl
      rw [hvalue] at hcall
      cases hcall
    obtain ⟨x, hx, hmoved'⟩ := ih (fun b hb' => hb b (List.mem_cons_of_mem _ hb')) (hm.leads hn)
      (by rw [hmoved.active]; rfl) (by rw [hmoved.outer]; exact hk)
    refine ⟨x, (hn.offers_none hp hne depth).trans hx, ?_⟩
    have hboth := hmoved.trans hmoved'
    rw [hmoved.values, show n.resolve = m.resolve from funext hmoved.resolve] at hboth
    simpa using hboth

end Offers

/-! ## Predicates -/

/-- The stack at a location decides literals: its call on a literal `x`, wherever the variables, the
memory and the stacks of `m` are seen, leaves the verdict `P x` in its place and changes nothing
else. Only calls that begin within so many steps count, as a call may run out of steps. -/
def Decides (env : Environment) (run : Runner) (m : Machine) (loc : Loc) (last : ℕ∞)
    (P : Block → Bool) : Prop :=
  ∀ (n : Machine) (x : Block) (vals : List Block) (rest : List Pending), Sees m n →
    n.limit = m.limit → n.steps ≤ last → Chained n →
    n.active.program = .block (callTo m.heap loc) :: rest → rest ≠ [] → x.isLiteral = true →
    n.values = x :: vals →
    ∃ c y, Goes (splicing env run) env n.outer.length rest.length c n y ∧
      Passed n (.boolean (P x) :: vals) rest y

section Decides

variable {env : Environment} {run : Runner} {m n y : Machine} {loc : Loc} {last : ℕ∞}
  {P : Block → Bool} {x : Block} {vals : List Block} {rest : List Pending} {k r c : Nat}

/-- While a frame waits for a child, it makes no call. -/
theorem offered_of_stands (call : Block) {ps : List (List Pending)} (hn : Chained n)
    (hstands : Stands rest ps n)
    (hy : Goes (splicing env run) env ps.length rest.length c n y) :
    offered (splicing env run) env ps.length call c n = [] := by
  induction c generalizing n with
  | zero => rfl
  | succ c ih =>
    obtain ⟨hbefore, hy⟩ := hy
    rcases hstands with hprograms | hwaits
    · -- the child is closed, which is the point
      obtain ⟨hactive, houter⟩ := List.cons.inj hprograms
      rw [not_isPast_iff, hactive, ← houter, List.length_map] at hbefore
      omega
    · have hdeep := hwaits.length_le
      rw [List.length_cons, List.length_map] at hdeep
      have hoffer : n.offer ps.length call = [] := by
        rw [offer, if_neg (by omega)]
      rw [offered, hoffer, List.nil_append]
      exact ih (hn.step env run).counted (stands_step_waiting env run hn hwaits) hy

/-- **One call** decides a literal. -/
theorem Decides.offers (hP : Decides env run m loc last P) (hsees : Sees m n)
    (hlimit : n.limit = m.limit) (hlast : n.steps ≤ last) (hn : Chained n)
    (hp : n.active.program = .block (callTo m.heap loc) :: rest) (hrest : rest ≠ [])
    (hx : x.isLiteral = true) (hv : n.values = x :: vals)
    (hk : k < n.outer.length ∨ n.outer.length = k ∧ r ≤ rest.length) :
    ∃ y, Offers (splicing env run) env k r n.outer.length (callTo m.heap loc) [x] n y ∧
      Passed n (.boolean (P x) :: vals) rest y := by
  obtain ⟨c, y, hy, hpassed⟩ := hP n x vals rest hsees hlimit hlast hn hp hrest hx hv
  refine ⟨y, ⟨c, hy.weaken (by omega), ?_⟩, hpassed⟩
  cases c with
  | zero =>
    obtain rfl : y = n := hy
    have hlen := congrArg (fun f : Frame => f.program.length) hpassed.active
    rw [hp] at hlen
    simp at hlen
  | succ c =>
    have hprograms :
        n.programs = (.block (callTo m.heap loc) :: rest) :: n.outer.map Frame.program := by
      rw [← hp]
      rfl
    have hstands := stands_step_active env run hn hrest hprograms
    have hquiet := offered_of_stands (callTo m.heap loc) (hn.step env run).counted hstands
      (by rw [List.length_map]; exact hy.2)
    rw [List.length_map] at hquiet
    have hoffer : n.offer n.outer.length (callTo m.heap loc) = [x] := by
      rw [offer, if_pos ⟨rfl, by rw [hp]; rfl⟩, hv]
      rfl
    rw [offered, hoffer, hquiet]
    rfl

end Decides

/-! ## A turn of the helper -/

/-- What is left of the elements `pre` and `e` of an array, after a verdict on `e`. -/
def kept (keep : Bool) (pre : List Block) (e : Block) : List Block :=
  if keep then pre ++ [e] else pre

theorem length_kept (keep : Bool) (pre : List Block) (e : Block) :
    (kept keep pre e).length = if keep then pre.length + 1 else pre.length := by
  rw [kept]
  split
  · rw [List.length_append, List.length_singleton]
  · rfl

section Turn

open Decimal (form_ofNat form_ofInt)

variable {pre post : List Block} {e : Block}

/-- The block that holds a place. -/
def placeBlock (i : Nat) : Block :=
  .ofFloat (Float.ofNat i)

theorem float?_placeBlock {i : Nat} (hi : i ≤ 2 ^ 53) :
    (placeBlock i).float? = some (Float.ofNat i) := by
  rw [placeBlock, Block.float?_ofFloat]
  exact congrArg some (Decimal.ofInt_div_one (z := i) (by omega))

/-- The element before the place of the helper is dropped. -/
theorem dropBefore_ofNat (hlen : (pre ++ e :: post).length < 2 ^ 53) :
    dropBefore (Float.ofNat (pre.length + 2)) (pre ++ e :: post) = pre ++ post := by
  rw [List.length_append, List.length_cons] at hlen
  have hform := form_ofNat (n := pre.length + 2) (by omega)
  have htwo : (2 : Float) ≤ Float.ofNat (pre.length + 2) := by
    rw [show (2 : Float) = Float.ofNat 2 from rfl, (form_ofNat (by decide)).le_iff hform]
    omega
  have hsub : Float.ofNat (pre.length + 2) - 2 = Float.ofInt pre.length := by
    have := Decimal.sub_ofNat hform (w := 2) (by decide) (by decide) (by omega)
    rw [show ((pre.length + 2 : Nat) : Int) - (2 : Nat) = pre.length by omega] at this
    exact this
  have hwhole := (form_ofInt (z := pre.length) (by omega)).wholePart
  rw [dropBefore, if_pos htwo, hsub, hwhole, Int.natAbs_natCast,
    List.eraseIdx_append_of_length_le (Nat.le_refl _), Nat.sub_self]
  rfl

/-- The place of the helper, after it has gone back if an element was dropped. -/
theorem place_kept (hlen : (pre ++ e :: post).length < 2 ^ 53) (keep : Bool) :
    (if keep then Float.ofNat (pre.length + 2) else Float.ofNat (pre.length + 2) - 1) =
      Float.ofNat ((kept keep pre e).length + 1) := by
  rw [List.length_append, List.length_cons] at hlen
  rw [length_kept]
  cases keep with
  | true => rfl
  | false =>
    rw [if_neg Bool.false_ne_true, if_neg Bool.false_ne_true,
      Decimal.sub_one (form_ofNat (by omega)) (by omega),
      show ((pre.length + 2 : Nat) : Int) - 1 = (pre.length + 1 : Nat) by omega]
    rfl

/-- The end of a turn: an element is tested with another turn at a place behind it, or there is none
and the array is given. -/
def nextRound (insert : Inserter) (al loc : Loc) (place : Float) (y : Machine) :
    Option Block → Option Block × Machine
  | some element =>
    (none, y.round insert "filter`" .filterHelper element (.data al true) (.data loc true) place)
  | none => (some (.data al true), y)

/-- The element behind what is left of the tested ones is tested next. -/
theorem nextRound_elementAt? {front : List Block} (hlen : (front ++ post).length < 2 ^ 53)
    (insert : Inserter) (al loc : Loc) (y : Machine) :
    nextRound insert al loc (Float.ofNat (front.length + 1) + 1) y
        (elementAt? (front ++ post) (Float.ofNat (front.length + 1))) =
      nextRound insert al loc (Float.ofNat (front.length + 2)) y post.head? := by
  rw [List.length_append] at hlen
  rw [elementAt?_ofNat _ (by omega), List.getElem?_append_right (Nat.le_refl _), Nat.sub_self,
    ← List.head?_eq_getElem?]
  cases post with
  | nil => rfl
  | cons e' post =>
    rw [List.length_cons] at hlen
    rw [Decimal.ofNat_add_one (by omega)]

/-- **A turn of the helper**: the array is what is left of it, and the element behind that is tested
next. -/
theorem filterFrom_eq {x : Machine} {al : Loc} (hblocks : x.heap.blocks al = pre ++ e :: post)
    (hal : al < x.heap.size) (hlen : (pre ++ e :: post).length < 2 ^ 53) (keep : Bool)
    (insert : Inserter) (loc : Loc) :
    ∃ al' y, Passed x x.values x.active.program y ∧ al' < y.heap.size ∧
      y.heap.blocks al' = kept keep pre e ++ post ∧ (if keep then al' = al else x.heap.size ≤ al') ∧
      x.filterFrom insert (.boolean keep) (.data al true) (.data loc true)
          (placeBlock (pre.length + 2)) =
        nextRound insert al' loc (Float.ofNat ((kept keep pre e).length + 2)) y post.head? := by
  have hplace := place_kept hlen keep
  rw [List.length_append, List.length_cons] at hlen
  have hlen' : (kept keep pre e ++ post).length < 2 ^ 53 := by
    rw [List.length_append, length_kept]
    split <;> omega
  have hfloat := float?_placeBlock (i := pre.length + 2) (by omega)
  have hloc : x.dataLoc? (.data al true) = some al := rfl
  cases keep with
  | true =>
    have hblocks' : x.heap.blocks al = kept true pre e ++ post := by simp [hblocks, kept]
    refine ⟨al, x, (moved_self x).passed, hal, hblocks', rfl, ?_⟩
    rw [← nextRound_elementAt? hlen', ← hblocks', ← hplace]
    simp only [filterFrom, Block.boolean?, hloc, hfloat, if_true]
    rfl
  | false =>
    obtain ⟨y, hversion, hpassed, hsize, hget⟩ :=
      newVersion_eq al (dropBefore (Float.ofNat (pre.length + 2))) x
    have hblocks' : y.heap.blocks x.heap.size = kept false pre e ++ post := by
      rw [Heap.blocks, hget, hblocks, dropBefore_ofNat (by simpa using hlen)]
      rfl
    refine ⟨x.heap.size, y, hpassed, hsize, hblocks', Nat.le_refl _, ?_⟩
    rw [← nextRound_elementAt? hlen', ← hblocks', ← hplace]
    simp only [filterFrom, Block.boolean?, hloc, hfloat, Bool.false_eq_true, if_false, hversion]
    rfl

/-- The blocks of a round: an element, the call of the predicate and the helper's next turn. -/
def helperRound (call : Block) (al loc : Loc) (e : Block) (place : Nat) : List Block :=
  [e, call, .data al true, .data loc true, placeBlock place, .operator .filterHelper]

theorem round_eq {workspace : Workspace} {h : Heap} {y : Machine} (hy : Holds workspace h y)
    {loc : Loc} (hloc : loc < h.size) (insert : Inserter) (name : String) (e : Block) (al : Loc)
    (place : Nat) :
    y.round insert name .filterHelper e (.data al true) (.data loc true) (Float.ofNat place) =
      insert (Stack.make name (helperRound (callTo h loc) al loc e place)) y := by
  rw [round, hy.callOf? hloc]
  rfl

/-- The operator of the helper, as the last block of its frame. -/
theorem evaluate_filterHelper {workspace : Workspace} {h : Heap} {n : Machine} {al loc : Loc}
    {keep : Bool} {vals : List Block} (hn : Holds workspace h n) (hloc : loc < h.size)
    (hblocks : n.heap.blocks al = pre ++ e :: post) (hal : al < n.heap.size)
    (hlen : (pre ++ e :: post).length < 2 ^ 53)
    (hv : n.values = placeBlock (pre.length + 2) :: .data loc true :: .data al true ::
      .boolean keep :: vals) (env : Environment) (run : Runner) :
    ∃ al' y, Passed n vals [] y ∧ al' < y.heap.size ∧ y.heap.blocks al' = kept keep pre e ++ post ∧
      (if keep then al' = al else n.heap.size ≤ al') ∧
      (post = [] → (n.withProgram []).evaluate (splicing env run) env (.operator .filterHelper) =
        y.push (.data al' true)) ∧
      ∀ e' post', post = e' :: post' →
        (n.withProgram []).evaluate (splicing env run) env (.operator .filterHelper) =
          y.insert env (Stack.make "filter`"
            (helperRound (callTo h loc) al' loc e' ((kept keep pre e).length + 2))) := by
  have hsignature :
      Operator.filterHelper.info.signature = .fixed [.boolean, .data, .data, .number] := rfl
  have hfits : fits [.boolean, .data, .data, .number] [.boolean keep, .data al true,
      .data loc true, placeBlock (pre.length + 2)] = true :=
    fits_iff.2 (.cons rfl (.cons rfl (.cons rfl (.cons rfl .nil))))
  obtain ⟨x, hmoved, heval⟩ := evaluate_fixed (m := n.withProgram []) hsignature hfits hv
    (splicing env run) env
  have hx := ((moved_withProgram [] n).trans hmoved).passed
  have hheap : x.heap = n.heap := hmoved.heap
  obtain ⟨al', y, hpassed, hal', hblocks', hwhich, hturn⟩ := filterFrom_eq (x := x)
    (by rw [hheap]; exact hblocks) (by rw [hheap]; exact hal) hlen keep (insert env) loc
  rw [hx.values, hx.active] at hpassed
  have hy := hx.trans hpassed
  have hoperate : x.operate (splicing env run) env (.operator .filterHelper) .filterHelper 0
      [.boolean keep, .data al true, .data loc true, placeBlock (pre.length + 2)] =
        nextRound (insert env) al' loc (Float.ofNat ((kept keep pre e).length + 2)) y post.head? :=
    hturn
  rw [hoperate] at heval
  rw [hheap] at hwhich
  refine ⟨al', y, hy, hal', hblocks', hwhich, ?_, ?_⟩
  · rintro rfl
    exact heval
  · rintro e' post' rfl
    refine heval.trans ?_
    exact round_eq ⟨hy.holds.1.trans hn.1, hn.2.trans hy.holds.2⟩ hloc (insert env) "filter`" e' al'
      ((kept keep pre e).length + 2)

end Turn

/-! ## The frame of the helper -/

theorem Helping.outer_length {m n : Machine} (h : Helping m n) :
    n.outer.length = m.helperDepth := by
  rw [helperDepth]
  rcases h.placed with ⟨hp, ho, -⟩ | ⟨hp, ho, -⟩
  · rw [if_pos hp, ho]
  · rw [if_neg hp, ho, List.length_cons]

/-- A frame that a stack without parameters is run in has its name. -/
theorem insert_name {s : Stack} (hinputs : s.inputs = []) (hblocks : s.blocks ≠ [])
    (env : Environment) (m : Machine) : (m.insert env s).active.name = s.name := by
  by_cases hp : m.active.program = []
  · rw [(insert_spliced hinputs hblocks env hp).2.1]
  · rw [(insert_opened hinputs hblocks env hp).2.1]

/-- The last block of a helper runs another stack: it is run in its place. -/
theorem Helping.insert {m n : Machine} {s : Stack} (h : Helping m n) (hp : n.active.program = [])
    (hinputs : s.inputs = []) (hblocks : s.blocks ≠ []) (env : Environment) :
    Helping m (n.insert env s) ∧ Same n (n.insert env s) ∧
      (n.insert env s).active.program = s.blocks.map .block := by
  obtain ⟨hsame, hactive, houter⟩ := insert_spliced hinputs hblocks env hp
  exact ⟨h.same hsame (by rw [hactive]) houter, hsame, by rw [hactive]⟩

/-! ## All rounds -/

/-- A filter that was run from `m` is about to test the element `e` of its array. It has tested the
elements `seen`, and `post` are left. -/
structure Filtering (m : Machine) (array loc : Loc) (P : Block → Bool) (seen : List Block)
    (e : Block) (post : List Block) (n : Machine) : Prop where
  chained : Chained n
  helping : Helping m n
  named : n.active.name = "filter" ∨ n.active.name = "filter`"
  values : n.values = m.values
  limit : n.limit = m.limit
  /-- The array holds those of the tested elements that are kept, and the others behind them. -/
  round : ∃ al, al < n.heap.size ∧ n.heap.blocks al = seen.filter P ++ e :: post ∧
    (if seen.all P then al = array else m.heap.size ≤ al) ∧
    n.active.program = (helperRound (callTo m.heap loc) al loc e
      ((seen.filter P).length + 2)).map .block

/-- The element has been tested, and the helper is about to take its next turn. -/
structure Judged (m : Machine) (array loc : Loc) (P : Block → Bool) (seen : List Block) (e : Block)
    (post : List Block) (n : Machine) : Prop where
  chained : Chained n
  helping : Helping m n
  named : n.active.name = "filter" ∨ n.active.name = "filter`"
  limit : n.limit = m.limit
  program : n.active.program = [.block (.operator .filterHelper)]
  turn : ∃ al, al < n.heap.size ∧ n.heap.blocks al = seen.filter P ++ e :: post ∧
    (if seen.all P then al = array else m.heap.size ≤ al) ∧
    n.values = placeBlock ((seen.filter P).length + 2) :: .data loc true :: .data al true ::
      .boolean (P e) :: m.values

/-- A filter that was run from `m` has come to its end: it leaves one array in place of its
operands, with the elements that `P` accepts, in order. That is the given array if it accepts all of
them, and a new one otherwise. Nothing else has changed. -/
structure Filtered (m : Machine) (array : Loc) (P : Block → Bool) (y : Machine) : Prop where
  past : y.isPast m.outer.length m.active.program.length = true
  result : ∃ selected, y.values = .data selected true :: m.values ∧ selected < y.heap.size ∧
    y.heap.blocks selected = (m.heap.blocks array).filter P ∧
    if (m.heap.blocks array).all P then selected = array else m.heap.size ≤ selected
  holds : Holds m.workspace m.heap y
  memory : y.world.memory = m.world.memory
  frames : m.active.program ≠ [] → y.frames = m.frames

theorem filter_concat (P : Block → Bool) (seen : List Block) (e : Block) :
    (seen ++ [e]).filter P = kept (P e) (seen.filter P) e := by
  rw [List.filter_append, kept]
  cases he : P e with
  | true => rw [List.filter_cons_of_pos he, List.filter_nil, if_pos rfl]
  | false => simp [he]

section Filtering

variable {env : Environment} {run : Runner} {m n : Machine} {array loc : Loc} {P : Block → Bool}
  {seen post : List Block} {e e' : Block} {last : ℕ∞}

/-- A round begins when the stack of its blocks is run. -/
theorem offers_round {op : Operator} {al : Loc} {s : Stack} {rest : List Pending} {x z : Machine}
    (hz : Chained z) (hlimit : z.limit = m.limit)
    (hp : z.active.program = .block (.operator op) :: rest) (hplain : op.isCalculus = false)
    (hpast : z.isPast m.outer.length m.active.program.length = false) (hinputs : s.inputs = [])
    (hs : s.blocks = helperRound (callTo m.heap loc) al loc e ((seen.filter P).length + 2))
    (hname : s.name = "filter" ∨ s.name = "filter`")
    (heval : (z.withProgram rest).evaluate (splicing env run) env (.operator op) = x.insert env s)
    (hrun : Helping m (x.insert env s) ∧ Same x (x.insert env s) ∧
      (x.insert env s).active.program = s.blocks.map .block)
    (hvalues : x.values = m.values) (hal : al < x.heap.size)
    (hblocks : x.heap.blocks al = seen.filter P ++ e :: post)
    (hwhich : if seen.all P then al = array else m.heap.size ≤ al) :
    ∃ y, Offers (splicing env run) env m.outer.length m.active.program.length m.helperDepth
        (callTo m.heap loc) [] z y ∧ Filtering m array loc P seen e post y := by
  obtain ⟨hhelping, hsame, hprogram⟩ := hrun
  obtain ⟨y, hy, hsame', hactive', houter'⟩ := leads_open env run (k := m.outer.length)
    (r := m.active.program.length) hz hp (runsInline_operator hplain z) hpast (by
      rw [heval, Frame.isFinished, hprogram, hs]
      simp [helperRound])
  rw [heval] at hsame' hactive' houter'
  have hoffers : Offers (splicing env run) env m.outer.length m.active.program.length
      m.helperDepth (callTo m.heap loc) [] z y :=
    hy.offers_none hp (by rintro ⟨⟩) m.helperDepth
  have hheap : y.heap = x.heap := (alike_congruent.heap (hsame.trans hsame')).symm
  refine ⟨y, hoffers, hz.offers hoffers, hhelping.same hsame' (by rw [hactive']) houter', ?_,
    (hsame.trans hsame').values.symm.trans hvalues, hoffers.limit.trans hlimit, al, ?_, ?_, hwhich,
    ?_⟩
  · rw [hactive', insert_name hinputs (by rw [hs]; exact List.cons_ne_nil _ _)]
    exact hname
  · rw [hheap]
    exact hal
  · rw [hheap]
    exact hblocks
  · rw [hactive', hprogram, hs]

/-- **A test.** The element is pushed and the predicate is called on it, unless too many steps were
taken. -/
theorem Filtering.judged (h : Filtering m array loc P seen e post n)
    (hP : Decides env run m loc last P) (he : e.isLiteral = true) :
    ∃ xs y, Offers (splicing env run) env m.outer.length m.active.program.length m.helperDepth
        (callTo m.heap loc) xs n y ∧
      (last < y.steps ∨ xs = [e] ∧ Judged m array loc P seen e post y) := by
  obtain ⟨al, hal, hblocks, hwhich, hprogram⟩ := h.round
  obtain ⟨hvalue, hresolve⟩ := Block.isValue_of_isLiteral he
  have hbefore := h.helping.before
  have hdepth := h.helping.outer_length
  have hcall : (callTo m.heap loc).isValue = false := rfl
  -- the element
  obtain ⟨n₁, hn₁, hmoved⟩ := offers_values env run (k := m.outer.length)
    (r := m.active.program.length) m.helperDepth hcall [e] (by simpa using hvalue)
    (List.cons_ne_nil _ _) h.chained hprogram (by omega)
  have hpassed₁ := hmoved.passed
  rw [List.map_singleton, hresolve, h.values] at hpassed₁
  by_cases hlast : n₁.steps ≤ last
  swap
  · exact ⟨[], n₁, hn₁, .inl (not_le.1 hlast)⟩
  have hhelping₁ := h.helping.passed hpassed₁
  have hchain₁ := h.chained.offers hn₁
  -- the call
  obtain ⟨n₂, hn₂, hpassed₂⟩ := hP.offers (k := m.outer.length) (r := m.active.program.length)
    ⟨hhelping₁.holds, hhelping₁.memory, hhelping₁.fetch⟩ (hn₁.limit.trans h.limit) hlast hchain₁
    (by rw [hpassed₁.active]; rfl) (List.cons_ne_nil _ _) he hpassed₁.values
    (by rw [hpassed₁.outer]; omega)
  rw [hpassed₁.outer, hdepth] at hn₂
  have hpassed₁₂ := hpassed₁.trans hpassed₂
  have hchain₂ := hchain₁.offers hn₂
  -- the operands of the helper
  obtain ⟨n₃, hn₃, hmoved₃⟩ := offers_values env run (k := m.outer.length)
    (r := m.active.program.length) m.helperDepth hcall
    [.data al true, .data loc true, placeBlock ((seen.filter P).length + 2)]
    (by simp [Block.isValue, placeBlock, Block.ofFloat, Block.ofFraction])
    (List.cons_ne_nil (.block (.operator .filterHelper)) []) hchain₂
    (by rw [hpassed₁₂.active]; rfl) (by rw [hpassed₁₂.outer]; omega)
  have hpassed := hpassed₁₂.trans hmoved₃.passed
  have hoffers := (hn₁.trans hn₂).trans hn₃
  refine ⟨_, n₃, hoffers, .inr ⟨rfl, ?_⟩⟩
  refine ⟨h.chained.offers hoffers, h.helping.passed hpassed, ?_, hoffers.limit.trans h.limit,
    by rw [hpassed.active], al, Nat.lt_of_lt_of_le hal hpassed.holds.2.size, ?_, hwhich, ?_⟩
  · rw [hpassed.active]
    exact h.named
  · rw [hpassed.holds.blocks hal, hblocks]
  · rw [hmoved₃.values, hpassed₁₂.values]
    rfl

/-- What the helper does in its turn. -/
theorem Judged.evaluate (h : Judged m array loc P seen e post n) (hloc : loc < m.heap.size)
    (hlen : (seen ++ e :: post).length < 2 ^ 53) (env : Environment) (run : Runner) :
    ∃ al y, Passed n m.values [] y ∧ al < y.heap.size ∧
      y.heap.blocks al = (seen ++ [e]).filter P ++ post ∧
      (if (seen ++ [e]).all P then al = array else m.heap.size ≤ al) ∧
      (post = [] → (n.withProgram []).evaluate (splicing env run) env (.operator .filterHelper) =
        y.push (.data al true)) ∧
      ∀ e' post', post = e' :: post' →
        (n.withProgram []).evaluate (splicing env run) env (.operator .filterHelper) =
          y.insert env (Stack.make "filter`" (helperRound (callTo m.heap loc) al loc e'
            (((seen ++ [e]).filter P).length + 2))) := by
  obtain ⟨al, hal, hblocks, hwhich, hvalues⟩ := h.turn
  have hlen' : (seen.filter P ++ e :: post).length < 2 ^ 53 := by
    have hle := List.length_filter_le P seen
    rw [List.length_append] at hlen ⊢
    omega
  obtain ⟨al', y, hy, hal', hblocks', hwhich', hlast, hnext⟩ :=
    evaluate_filterHelper h.helping.holds hloc hblocks hal hlen' hvalues env run
  rw [← filter_concat] at hblocks' hnext
  refine ⟨al', y, hy, hal', hblocks', ?_, hlast, hnext⟩
  cases he : P e with
  | true =>
    rw [he, if_pos rfl] at hwhich'
    simpa [List.all_append, he, hwhich'] using hwhich
  | false =>
    rw [he, if_neg Bool.false_ne_true] at hwhich'
    simpa [List.all_append, he] using Nat.le_trans h.helping.holds.2.size hwhich'

/-- **A turn**, with an element left: its round begins. -/
theorem Judged.goes_on (h : Judged m array loc P seen e (e' :: post) n) (hloc : loc < m.heap.size)
    (hlen : (seen ++ e :: e' :: post).length < 2 ^ 53) (env : Environment) (run : Runner) :
    ∃ y, Offers (splicing env run) env m.outer.length m.active.program.length m.helperDepth
        (callTo m.heap loc) [] n y ∧ Filtering m array loc P (seen ++ [e]) e' post y := by
  obtain ⟨al, x, hpassed, hal, hblocks, hwhich, -, hnext⟩ := h.evaluate hloc hlen env run
  exact offers_round h.chained h.limit h.program rfl
    (h.helping.not_isPast (by rw [h.program]; exact List.cons_ne_nil _ _)) rfl rfl (.inr rfl)
    (hnext e' post rfl)
    ((h.helping.passed hpassed).insert (by rw [hpassed.active]) rfl (List.cons_ne_nil _ _) env)
    hpassed.values hal hblocks hwhich

/-- **The last turn** gives the array. -/
theorem Judged.ends (h : Judged m array loc P seen e [] n) (hloc : loc < m.heap.size)
    (hall : seen ++ [e] = m.heap.blocks array) (hlen : (seen ++ [e]).length < 2 ^ 53)
    (hquiet : env.QuietOn "filter" ∧ env.QuietOn "filter`") (run : Runner) :
    ∃ y, Offers (splicing env run) env m.outer.length m.active.program.length m.helperDepth
        (callTo m.heap loc) [] n y ∧ Filtered m array P y := by
  obtain ⟨al, x, hpassed, hal, hblocks, hwhich, hlast, -⟩ := h.evaluate hloc hlen env run
  have heval := hlast rfl
  have hpushed : Passed n (.data al true :: m.values) []
      ((n.withProgram []).evaluate (splicing env run) env (.operator .filterHelper)) := by
    have hpush := (moved_push (.data al true) x).passed
    rw [hpassed.values, hpassed.active] at hpush
    rw [heval]
    exact hpassed.trans hpush
  have hquiet' : env.QuietOn n.active.name := by
    rcases h.named with hname | hname
    · exact hname ▸ hquiet.1
    · exact hname ▸ hquiet.2
  obtain ⟨y, hy, hpast, hsame, hframes⟩ :=
    h.helping.ends h.chained h.program (runsInline_operator rfl n) hquiet' hpushed
  have hoffers : Offers (splicing env run) env m.outer.length m.active.program.length
      m.helperDepth (callTo m.heap loc) [] n y :=
    hy.offers_none h.program (by rintro ⟨⟩) m.helperDepth
  have hhelping := h.helping.passed hpushed
  have hheap : y.heap = x.heap := by
    rw [← alike_congruent.heap hsame, heval]
    exact (moved_push _ x).heap
  rw [List.append_nil] at hblocks
  rw [hall] at hblocks hwhich
  refine ⟨y, hoffers, hpast, ⟨al, hsame.values.symm.trans hpushed.values, ?_, ?_, hwhich⟩,
    hhelping.holds.of_eq hsame.workspace.symm (alike_congruent.heap hsame).symm,
    hsame.memory.symm.trans hhelping.memory, hframes⟩
  · rw [hheap]
    exact hal
  · rw [hheap]
    exact hblocks

/-- **All rounds**, by induction on the elements that are left. -/
theorem Filtering.offers (hP : Decides env run m loc last P) (hloc : loc < m.heap.size)
    (hliteral : ∀ x ∈ m.heap.blocks array, x.isLiteral = true)
    (hlen : (m.heap.blocks array).length < 2 ^ 53)
    (hquiet : env.QuietOn "filter" ∧ env.QuietOn "filter`") (post : List Block) :
    ∀ {seen : List Block} {e : Block} {n : Machine}, Filtering m array loc P seen e post n →
      seen ++ e :: post = m.heap.blocks array →
      ∃ xs y, Offers (splicing env run) env m.outer.length m.active.program.length m.helperDepth
          (callTo m.heap loc) xs n y ∧
        (last < y.steps ∨ xs = e :: post ∧ Filtered m array P y) := by
  induction post with
  | nil =>
    intro seen e n h hall
    obtain ⟨xs, z, hz, hlast | ⟨rfl, hjudged⟩⟩ :=
      h.judged hP (hliteral e (by rw [← hall]; simp))
    · exact ⟨xs, z, hz, .inl hlast⟩
    · obtain ⟨y, hy, hfiltered⟩ := hjudged.ends hloc hall (by rw [hall]; exact hlen) hquiet run
      exact ⟨[e], y, hz.trans hy, .inr ⟨rfl, hfiltered⟩⟩
  | cons e' post ih =>
    intro seen e n h hall
    obtain ⟨xs, z, hz, hlast | ⟨rfl, hjudged⟩⟩ :=
      h.judged hP (hliteral e (by rw [← hall]; simp))
    · exact ⟨xs, z, hz, .inl hlast⟩
    · obtain ⟨z', hz', hround⟩ := hjudged.goes_on hloc (by rw [hall]; exact hlen) env run
      obtain ⟨xs, y, hy, hend⟩ := ih hround (by rw [List.append_assoc]; exact hall)
      refine ⟨[e] ++ ([] ++ xs), y, hz.trans (hz'.trans hy), ?_⟩
      rcases hend with hlast | ⟨rfl, hfiltered⟩
      · exact .inl hlast
      · exact .inr ⟨rfl, hfiltered⟩

end Filtering

/-! ## Filtering -/

section Filter

variable {env : Environment} {run : Runner} {m z : Machine} {array loc : Loc} {P : Block → Bool}
  {e : Block} {post : List Block}

/-- What `filter` does: an empty array is given, another one gets its first round. -/
theorem evaluate_filter (hloc : loc < m.heap.size)
    (hmoved : Moved m (.data loc true :: .data array true :: m.values)
      (.block (.operator .filter) :: m.active.program) z) (env : Environment) (run : Runner) :
    ∃ x, Moved z m.values m.active.program x ∧
      (m.heap.blocks array = [] →
        (z.withProgram m.active.program).evaluate (splicing env run) env (.operator .filter) =
          x.push (.data array true)) ∧
      ∀ e post, m.heap.blocks array = e :: post →
        (z.withProgram m.active.program).evaluate (splicing env run) env (.operator .filter) =
          x.insert env (Stack.make "filter" (helperRound (callTo m.heap loc) array loc e 2)) := by
  have hsignature : Operator.filter.info.signature = .fixed [.data, .data] := rfl
  have hfits : fits [.data, .data] [.data array true, .data loc true] = true := rfl
  obtain ⟨x, hx, heval⟩ := evaluate_fixed (m := z.withProgram m.active.program) hsignature hfits
    hmoved.values (splicing env run) env
  have hmoved' : Moved z m.values m.active.program x :=
    (moved_withProgram m.active.program z).trans hx
  have hoperate : x.operate (splicing env run) env (.operator .filter) .filter 0
      [.data array true, .data loc true] =
        x.filterArray (insert env) (.data array true) (.data loc true) := rfl
  have harray : x.dataLoc? (.data array true) = some array := rfl
  rw [hoperate, filterArray, harray] at heval
  simp only [hmoved'.heap, hmoved.heap] at heval
  refine ⟨x, hmoved', ?_, ?_⟩
  · intro hempty
    rw [hempty] at heval
    exact heval
  · intro e post hblocks
    rw [hblocks] at heval
    exact heval.trans
      (round_eq (hmoved.trans hmoved').passed.holds hloc (insert env) "filter" e array 2)

/-- An operator that leaves the frames alone comes to the point behind it. -/
theorem leads_behind {op : Operator} {vs ws : List Block} (hplain : op.isCalculus = false)
    (hz : Chained z) (hmoved : Moved m ws (.block (.operator op) :: m.active.program) z)
    (hquiet : env.QuietOn m.active.name)
    (hpushed : Moved z vs m.active.program
      ((z.withProgram m.active.program).evaluate (splicing env run) env (.operator op))) :
    ∃ y, Leads (splicing env run) env m.outer.length m.active.program.length 1 z y ∧
      y.isPast m.outer.length m.active.program.length = true ∧
      Same ((z.withProgram m.active.program).evaluate (splicing env run) env (.operator op)) y ∧
      (m.active.program ≠ [] → y.frames = m.frames) := by
  have hprogram : z.active.program = .block (.operator op) :: m.active.program := by
    rw [hmoved.active]
  by_cases hlast : m.active.program = []
  · -- the frame ends with the operator, as that of a helper does
    have hhelping : Helping m z := ⟨hmoved.passed.holds, hmoved.passed.memory,
      .inl ⟨hlast, hmoved.outer, by rw [hmoved.active]⟩⟩
    rw [hlast] at hprogram hpushed ⊢
    have hends := hhelping.ends hz hprogram (runsInline_operator hplain z)
      (by rw [hmoved.active]; exact hquiet) hpushed.passed
    rw [hlast] at hends
    exact hends
  · have hpast : z.isPast m.outer.length m.active.program.length = false := by
      rw [not_isPast_iff, hmoved.outer, hprogram]
      exact .inr ⟨rfl, Nat.lt_succ_self _⟩
    obtain ⟨y, hy, hpassed, hsame⟩ := leads_passed hplain hz hprogram hlast hpast hpushed.passed
    have hframes : y.frames = m.frames := by
      rw [frames, hpassed.active, hpassed.outer, hmoved.active, hmoved.outer]
      rfl
    refine ⟨y, hy, ?_, hsame, fun _ => hframes⟩
    obtain ⟨hactive, houter⟩ := List.cons.inj hframes
    rw [isPast_iff, hactive, houter]
    exact .inr ⟨rfl, Nat.le_refl _⟩

/-- An empty array stays as it is. -/
theorem offers_empty (hloc : loc < m.heap.size) (harray : array < m.heap.size)
    (hempty : m.heap.blocks array = []) (hz : Chained z)
    (hmoved : Moved m (.data loc true :: .data array true :: m.values)
      (.block (.operator .filter) :: m.active.program) z)
    (hquiet : env.QuietOn m.active.name) (run : Runner) :
    ∃ y, Offers (splicing env run) env m.outer.length m.active.program.length m.helperDepth
        (callTo m.heap loc) [] z y ∧ Filtered m array P y := by
  obtain ⟨x, hx, hgiven, -⟩ := evaluate_filter hloc hmoved env run
  have hprogram : z.active.program = .block (.operator .filter) :: m.active.program := by
    rw [hmoved.active]
  have hpushed : Moved z (.data array true :: m.values) m.active.program
      ((z.withProgram m.active.program).evaluate (splicing env run) env (.operator .filter)) := by
    have hpush := moved_push (.data array true) x
    rw [hx.values, hx.active] at hpush
    rw [hgiven hempty]
    exact hx.trans hpush
  have hall := hmoved.trans hpushed
  obtain ⟨y, hy, hend, hsame, hframes⟩ := leads_behind rfl hz hmoved hquiet hpushed
  have hoffers : Offers (splicing env run) env m.outer.length m.active.program.length
      m.helperDepth (callTo m.heap loc) [] z y :=
    hy.offers_none hprogram (by rintro ⟨⟩) m.helperDepth
  have hheap : y.heap = m.heap := (alike_congruent.heap hsame).symm.trans hall.heap
  refine ⟨y, hoffers, hend, ⟨array, hsame.values.symm.trans hall.values, ?_, ?_, ?_⟩,
    hall.passed.holds.of_eq hsame.workspace.symm (alike_congruent.heap hsame).symm,
    hsame.memory.symm.trans hall.passed.memory, hframes⟩
  · rw [hheap]
    exact harray
  · rw [hheap, hempty]
    rfl
  · rw [hempty]
    rfl

/-- The first round begins. -/
theorem offers_first (hloc : loc < m.heap.size) (harray : array < m.heap.size)
    (hblocks : m.heap.blocks array = e :: post) (hz : Chained z) (hlimit : z.limit = m.limit)
    (hmoved : Moved m (.data loc true :: .data array true :: m.values)
      (.block (.operator .filter) :: m.active.program) z) (env : Environment) (run : Runner) :
    ∃ y, Offers (splicing env run) env m.outer.length m.active.program.length m.helperDepth
        (callTo m.heap loc) [] z y ∧ Filtering m array loc P [] e post y := by
  obtain ⟨x, hx', -, hfirst⟩ := evaluate_filter hloc hmoved env run
  have hx := hmoved.trans hx'
  have hprogram : z.active.program = .block (.operator .filter) :: m.active.program := by
    rw [hmoved.active]
  refine offers_round hz hlimit hprogram rfl ?_ rfl rfl (.inl rfl) (hfirst e post hblocks)
    (hx.passed.insert rfl (List.cons_ne_nil _ _) env) hx.values ?_ ?_ rfl
  · rw [not_isPast_iff, hmoved.outer, hprogram]
    exact .inr ⟨rfl, Nat.lt_succ_self _⟩
  · rw [hx.heap]
    exact harray
  · rw [hx.heap]
    exact hblocks

end Filter

/-- **`filter` is list filter.** If the call of a stack decides literals by `P`, then `filter` comes
to its end with one array in place of its operands: the elements that `P` accepts, in order; the
given array itself if it accepts them all, and a new one otherwise. The predicate is called once on
each element, in order. Nothing else changes. If calls decide only within so many steps, then so it
is unless more steps are taken on the way. -/
theorem filter_selects (env : Environment) (run : Runner) (m : Machine) (hm : Chained m)
    (hquiet : ∀ name ∈ [m.active.name, "filter", "filter`"], env.QuietOn name) (a f : Block)
    (array loc : Loc) (ha : m.resolve a = .data array true) (hf : m.resolve f = .data loc true)
    (harray : array < m.heap.size) (hloc : loc < m.heap.size)
    (hliteral : ∀ x ∈ m.heap.blocks array, x.isLiteral = true)
    (hlen : (m.heap.blocks array).length < 2 ^ 53) (P : Block → Bool) (last : ℕ∞)
    (hP : Decides env run m loc last P) :
    ∃ xs y, Offers (splicing env run) env m.outer.length m.active.program.length m.helperDepth
        (callTo m.heap loc) xs (m.running [a, f, .operator .filter]) y ∧
      (last < y.steps ∨ xs = m.heap.blocks array ∧ Filtered m array P y) := by
  have hchain := hm.running [a, f, .operator .filter]
  obtain ⟨z, hz, hmoved⟩ := offers_values env run (k := m.outer.length)
    (r := m.active.program.length) m.helperDepth
    (show (callTo m.heap loc).isValue = false from rfl) [a, f]
    (by simp [isValue_of_resolve ha, isValue_of_resolve hf])
    (List.cons_ne_nil (.block (.operator .filter)) m.active.program) hchain rfl
    (.inr ⟨rfl, by simp⟩)
  have hmoved' : Moved m (.data loc true :: .data array true :: m.values)
      (.block (.operator .filter) :: m.active.program) z := by
    rw [← ha, ← hf]
    exact (moved_withProgram _ m).trans hmoved
  have hchain' := hchain.offers hz
  cases hblocks : m.heap.blocks array with
  | nil =>
    obtain ⟨y, hy, hfiltered⟩ := offers_empty (P := P) hloc harray hblocks hchain' hmoved'
      (hquiet _ List.mem_cons_self) run
    exact ⟨[], y, hz.trans hy, .inr ⟨rfl, hfiltered⟩⟩
  | cons e post =>
    obtain ⟨u, hu, hround⟩ := offers_first (P := P) hloc harray hblocks hchain' hz.limit hmoved'
      env run
    obtain ⟨xs, y, hy, hend⟩ := Filtering.offers hP hloc hliteral hlen
      ⟨hquiet _ (by simp), hquiet _ (by simp)⟩ post hround hblocks.symm
    exact ⟨xs, y, (hz.trans hu).trans hy, hend⟩

/-! ## A predicate -/

/-- A stack that compares a literal with another one decides by that comparison. -/
theorem decides_equal {env : Environment} (hquiet : env.Quiet) (run : Runner) {m : Machine}
    {loc : Loc} (hloc : loc < m.heap.size) {name : String} {v : Block} (hv : v.isLiteral = true)
    (hget : m.heap.get loc = Stack.make name [v, .operator .equal]) :
    Decides env run m loc ⊤ fun x => x.plainEquals v := by
  intro n x vals rest hsees _ _ hn hp hrest hx hvalues
  have hget' : n.heap.get loc = Stack.make name [v, .operator .equal] :=
    (hsees.holds.2.get hloc).trans hget
  obtain ⟨u, hu, hsame, hactive, houter⟩ := leads_call env run (k := n.outer.length)
    (r := rest.length) (by rw [hget']; rfl) (by rw [hget']; exact List.cons_ne_nil _ _)
    (by rw [hget']; rfl) hn hp hrest (by
      rw [not_isPast_iff, hp]
      exact .inr ⟨rfl, Nat.lt_succ_self _⟩)
  rw [hget'] at hactive
  obtain ⟨c, y, hy, hsame', hactive', houter'⟩ := leads_compared (k := n.outer.length)
    (r := rest.length) hquiet run (hn.leads hu) (by rw [hactive]; rfl) houter (Nat.le_refl _) hx hv
    (hsame.values.symm.trans hvalues)
  have hall := hu.trans hy
  exact ⟨_, y, hall.goes, hsame'.values.symm, (Holds.self n).leads hall,
    hsame'.memory.symm.trans hsame.memory.symm, hactive', houter'⟩

/-- The elements of an array that are equal to a string. -/
theorem filter_selects_equal :
    let m := shelf [] [Stack.make "a" [.string "x", .boolean true, .string "y", .string "x"],
      Stack.make "p" [.string "x", .operator .equal]]
    ∃ y selected, Offers (splicing .standard idle) .standard 0 1 1 (.code "p" (some 1))
        [.string "x", .boolean true, .string "y", .string "x"]
        (m.running [.data 0 true, .data 1 true, .operator .filter]) y ∧
      y.values = [.data selected true] ∧ 2 ≤ selected ∧
      y.heap.blocks selected = [.string "x", .string "x"] := by
  intro m
  obtain ⟨xs, y, hy, hlast | ⟨rfl, hfiltered⟩⟩ :=
    filter_selects .standard idle m (chained_shelf [] _) (fun name _ => standard_quiet.on name)
      (.data 0 true) (.data 1 true) 0 1 rfl rfl (by decide) (by decide) (by decide) (by decide)
      (fun x => x.plainEquals (.string "x")) ⊤
      (decides_equal standard_quiet idle (by decide) rfl rfl)
  · exact absurd hlast not_top_lt
  · obtain ⟨selected, hvalues, -, hblocks, hnew⟩ := hfiltered.result
    exact ⟨y, selected, hy, hvalues, hnew, hblocks⟩

end BlockMachine.Machine
