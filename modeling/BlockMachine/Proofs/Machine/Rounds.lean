import BlockMachine.Proofs.Machine.HelperFrames

/-!
# Rounds of a loop

No operator loops by itself: a round of a loop is a helper stack that runs the blocks of the round,
pushes the bookkeeping of the loop and ends with the operator that does the next round. Here such a
loop is compared with the straight list of the blocks of all its rounds.

* `Loop` — how a loop goes on, `Loop.round` — the blocks of a round;
* `Starts` — what an operator does with its operands: nothing, or a round;
* `Unrolled` — the blocks of all rounds;
* `unrolled_of_leads` — a loop that comes to its end is unrolled, and the straight list does the
  same;
* `Starts.unrolls` — so it is for the operator that starts the loop, in front of another block;
* `Loop.Keeps` — an invariant of the rounds, `Loop.Keeps.leads` — with it, a loop that has an
  unrolling comes to its last turn.
-/

namespace BlockMachine.Machine

open BlockMachine.Frame (Beside Clear)

/-- A loop that an operator drives. It counts in a number, which is among the `operands` of the
operator; `turn` says what the operator does then: nothing, or a round of some blocks, after which
the loop is at another number. -/
structure Loop where
  driver : Operator
  operands : Float → List Block
  turn : Float → Option (List Block × Float)

/-- The blocks of a round: its own ones, and behind them the next turn of the loop. -/
def Loop.round (L : Loop) (body : List Block) (next : Float) : List Block :=
  body ++ (L.operands next ++ [.operator L.driver])

/-- The machine after a turn, with the helper stack of the round under a name. -/
def Loop.turned (L : Loop) (insert : Inserter) (name : String) :
    Option (List Block × Float) → Machine → Machine
  | none, m => m
  | some (body, next), m => insert (Stack.make name (L.round body next)) m

/-- What an operator does with operands on every machine that holds a workspace and a heap: nothing,
or a round of a loop. -/
structure Starts (L : Loop) (workspace : Workspace) (h : Heap) (op : Operator)
    (operands : List Block) (turn : Option (List Block × Float)) : Prop where
  fit : ∃ tags, op.info.signature = .fixed tags ∧ fits tags operands = true
  plain : op.isCalculus = false
  operate : ∃ name, ∀ (d : Discipline) (env : Environment) {m : Machine}, Holds workspace h m →
    m.operate d env (.operator op) op 0 operands = (none, L.turned d.insert name turn m)

/-- The driver of a loop does the turns of the loop, and its operands are data. -/
structure Loop.Sound (L : Loop) (workspace : Workspace) (h : Heap) : Prop where
  starts : ∀ i, Starts L workspace h L.driver (L.operands i) (L.turn i)
  value : ∀ i, ∀ b ∈ L.operands i, b.isValue = true
  resolved : ∀ i, ∀ b ∈ L.operands i, ∀ m : Machine, m.resolve b = b

/-- The blocks of all rounds of a loop, from a turn on. -/
inductive Unrolled (L : Loop) : Option (List Block × Float) → List Block → Prop where
  | done : Unrolled L none []
  | round {body : List Block} {next : Float} {bs : List Block} :
    Unrolled L (L.turn next) bs → Unrolled L (some (body, next)) (body ++ bs)

/-- A loop has one unrolling. -/
theorem Unrolled.unique {L : Loop} {turn : Option (List Block × Float)} {bs bs' : List Block}
    (h : Unrolled L turn bs) (h' : Unrolled L turn bs') : bs = bs' := by
  induction h generalizing bs' with
  | done =>
    cases h'
    rfl
  | round _ ih =>
    cases h' with
    | round h' => rw [ih h']

theorem Loop.round_ne_nil (L : Loop) (body : List Block) (next : Float) :
    L.round body next ≠ [] := by
  simp [Loop.round]

/-! ## Turns -/

section Turns

variable {L : Loop} {workspace : Workspace} {h : Heap} {op : Operator} {operands vals : List Block}
  {k r : Nat} {m : Machine}

theorem runsInline_operator (hop : op.isCalculus = false) (m : Machine) :
    m.runsInline (.operator op) = true := by
  simp [runsInline, Block.samples, hop, isolates?]

/-- The operator takes its operands and does its turn. -/
theorem Starts.evaluate {turn : Option (List Block × Float)}
    (hS : Starts L workspace h op operands turn) (hm : Holds workspace h m)
    (hv : m.values = operands.reverse ++ vals) (rest : List Pending) (env : Environment)
    (run : Runner) :
    ∃ x name, Moved m vals rest x ∧ (m.withProgram rest).evaluate (splicing env run) env
      (.operator op) = L.turned (insert env) name turn x := by
  obtain ⟨tags, hsig, hfit⟩ := hS.fit
  obtain ⟨name, hoperate⟩ := hS.operate
  obtain ⟨x, hmoved, heval⟩ :=
    evaluate_fixed (m := m.withProgram rest) hsig hfit hv (splicing env run) env
  have hx := (moved_withProgram rest m).trans hmoved
  refine ⟨x, name, hx, ?_⟩
  rw [heval, hoperate (splicing env run) env (hx.holds hm)]
  rfl

variable {rest : List Pending} {body : List Block} {next : Float} {f : Frame} {fs : List Frame}

/-- The last turn, as the last block of a child: the child is closed. -/
theorem Starts.leads_last (hS : Starts L workspace h op operands none) {env : Environment}
    (hquiet : env.Quiet)
    (hm : Chained m) (hh : Holds workspace h m) (hp : m.active.program = [.block (.operator op)])
    (hv : m.values = operands.reverse ++ vals) (ho : m.outer = f :: fs)
    (hpast : m.isPast k r = false) (run : Runner) :
    ∃ n, Leads (splicing env run) env k r 1 m n ∧ Same { m with values := vals } n ∧
      n.active = { f with program := f.program.tail } ∧ n.outer = fs := by
  obtain ⟨x, name, hx, heval⟩ := hS.evaluate hh hv [] env run
  rw [Loop.turned] at heval
  obtain ⟨n, hn, hsame, hactive, houter⟩ := leads_close env run hquiet hm hp
    (runsInline_operator hS.plain m) hpast (by rw [heval, hx.outer]; exact ho)
    (congrArg List.length ho) (by rw [heval, hx.active]; rfl)
  rw [heval] at hsame
  exact ⟨n, hn, hx.same.trans hsame, hactive, houter⟩

/-- No turn, in front of another block. -/
theorem Starts.leads_past (hS : Starts L workspace h op operands none) (hm : Chained m)
    (hh : Holds workspace h m) (hp : m.active.program = .block (.operator op) :: rest)
    (hrest : rest ≠ []) (hv : m.values = operands.reverse ++ vals) (hpast : m.isPast k r = false)
    (env : Environment) (run : Runner) :
    ∃ n, Leads (splicing env run) env k r 1 m n ∧ Moved m vals rest n := by
  obtain ⟨x, name, hx, heval⟩ := hS.evaluate hh hv rest env run
  rw [Loop.turned] at heval
  obtain ⟨n, hn, hsame, hactive, houter⟩ := leads_open env run hm hp
    (runsInline_operator hS.plain m) hpast (by
      rw [heval, hx.active]
      simp [Frame.isFinished, hrest])
  rw [heval] at hsame hactive houter
  exact ⟨n, hn, hx.same.trans hsame, hactive.trans hx.active, houter.trans hx.outer⟩

/-- A turn runs a helper stack: the step ends where the stack has been inserted. -/
theorem Starts.leads_round (hS : Starts L workspace h op operands (some (body, next)))
    (hm : Chained m) (hh : Holds workspace h m)
    (hp : m.active.program = .block (.operator op) :: rest)
    (hv : m.values = operands.reverse ++ vals) (hpast : m.isPast k r = false)
    (env : Environment) (run : Runner) :
    ∃ x s n, Moved m vals rest x ∧ s.inputs = [] ∧ s.blocks = L.round body next ∧
      Leads (splicing env run) env k r 1 m n ∧ Same { m with values := vals } n ∧
      n.active = (x.insert env s).active ∧ n.outer = (x.insert env s).outer := by
  obtain ⟨x, name, hx, heval⟩ := hS.evaluate hh hv rest env run
  rw [Loop.turned] at heval
  have hblocks : (Stack.make name (L.round body next)).blocks ≠ [] := L.round_ne_nil body next
  have hopen : Same x (x.insert env (Stack.make name (L.round body next))) ∧
      (x.insert env (Stack.make name (L.round body next))).active.isFinished = false := by
    by_cases hprogram : x.active.program = []
    · obtain ⟨hsame, hactive, -⟩ := insert_spliced rfl hblocks env hprogram
      refine ⟨hsame, ?_⟩
      rw [hactive]
      simpa [Frame.isFinished] using hblocks
    · obtain ⟨hsame, hactive, -⟩ := insert_opened rfl hblocks env hprogram
      refine ⟨hsame, ?_⟩
      rw [hactive]
      simpa [Frame.isFinished] using hblocks
  obtain ⟨n, hn, hsame, hactive, houter⟩ := leads_open env run hm hp
    (runsInline_operator hS.plain m) hpast (by rw [heval, hopen.2]; simp)
  rw [heval] at hsame hactive houter
  exact ⟨x, _, n, hx, rfl, rfl, hn, (hx.same.trans hopen.1).trans hsame, hactive, houter⟩

/-- Another turn, as the last block of a child: the child goes on with the round. -/
theorem Starts.leads_again (hS : Starts L workspace h op operands (some (body, next)))
    (hm : Chained m) (hh : Holds workspace h m) (hp : m.active.program = [.block (.operator op)])
    (hv : m.values = operands.reverse ++ vals) (hpast : m.isPast k r = false)
    (env : Environment) (run : Runner) :
    ∃ n, Leads (splicing env run) env k r 1 m n ∧ Same { m with values := vals } n ∧
      n.active.program = (L.round body next).map .block ∧
      n.active.bindings = m.active.bindings ∧ n.outer = m.outer := by
  obtain ⟨x, s, n, hx, hinputs, hblocks, hn, hsame, hactive, houter⟩ :=
    hS.leads_round hm hh hp hv hpast env run
  obtain ⟨-, hactive', houter'⟩ := insert_spliced hinputs
    (by rw [hblocks]; exact L.round_ne_nil _ _) env (m := x) (by rw [hx.active])
  refine ⟨n, hn, hsame, ?_, ?_, ?_⟩
  · rw [hactive, hactive', hblocks]
  · rw [hactive, hactive', hx.active]
  · rw [houter, houter', hx.outer]

/-- A turn, in front of another block: the round runs in a child. -/
theorem Starts.leads_first (hS : Starts L workspace h op operands (some (body, next)))
    (hm : Chained m) (hh : Holds workspace h m)
    (hp : m.active.program = .block (.operator op) :: rest) (hrest : rest ≠ [])
    (hv : m.values = operands.reverse ++ vals) (hpast : m.isPast k r = false)
    (env : Environment) (run : Runner) :
    ∃ n, Leads (splicing env run) env k r 1 m n ∧ Same { m with values := vals } n ∧
      n.active.program = (L.round body next).map .block ∧ n.active.bindings = [] ∧
      n.outer = { m.active with program := .child :: rest } :: m.outer := by
  obtain ⟨x, s, n, hx, hinputs, hblocks, hn, hsame, hactive, houter⟩ :=
    hS.leads_round hm hh hp hv hpast env run
  obtain ⟨-, hactive', houter'⟩ := insert_opened hinputs (by rw [hblocks]; exact L.round_ne_nil _ _)
    env (m := x) (by rw [hx.active]; exact hrest)
  refine ⟨n, hn, hsame, ?_, ?_, ?_⟩
  · rw [hactive, hactive', hblocks]
  · rw [hactive, hactive']
  · rw [houter, houter', waiting, hx.active, hx.outer]

end Turns

/-! ## Rounds -/

/-- A machine at the start of a round: the helper's frame is active, and its caller waits with the
rest of its program. -/
structure InRound (L : Loop) (workspace : Workspace) (h : Heap) (rest : List Pending) (k : Nat)
    (body : List Block) (next : Float) (m : Machine) : Prop where
  chained : Chained m
  holds : Holds workspace h m
  program : m.active.program = (L.round body next).map .block
  caller : ∃ g fs, m.outer = { g with program := .child :: rest } :: fs ∧ fs.length = k ∧
    Clear m.active g

/-- A machine in a helper's frame, and one that has blocks to run in front of the rest of the
caller's program instead. -/
structure Facing (rest : List Pending) (k : Nat) (bs : List Block) (m n : Machine) : Prop where
  same : Same m n
  right : Chained n
  caller : ∃ g, m.outer = { g with program := .child :: rest } :: n.outer ∧
    n.active = { g with program := bs.map .block ++ rest } ∧ n.outer.length = k ∧ Clear m.active g

section Rounds

variable {L : Loop} {workspace : Workspace} {h : Heap} {rest : List Pending} {k : Nat}
  {body : List Block} {next next' : Float} {env : Environment} {run : Runner} {m n x y : Machine}

/-- What the helper has behind the blocks of the round. -/
def Loop.after (L : Loop) (next : Float) : List Pending :=
  (L.operands next ++ [Block.operator L.driver]).map .block

theorem Loop.after_ne_nil (L : Loop) (next : Float) : L.after next ≠ [] := by
  simp [Loop.after]

/-- Both machines run the blocks of the round. -/
theorem InRound.abreast (hm : InRound L workspace h rest k body next m) {bs : List Block}
    (hn : Facing rest k (body ++ bs) m n) :
    Abreast (Beside (L.after next) (bs.map .block ++ rest) (.child :: rest) k) m n := by
  obtain ⟨g, ho, hactive, hk, hclear⟩ := hn.caller
  refine ⟨hn.same, ?_, hm.chained, hn.right⟩
  have hbase := Beside.base (p := L.after next) (q := bs.map .block ++ rest) (w := .child :: rest)
    (body.map .block) hclear hk
  have hprogram : body.map .block ++ L.after next = m.active.program := by
    rw [hm.program, Loop.round, List.map_append]
    rfl
  rw [hprogram, ← List.append_assoc, ← List.map_append] at hbase
  simp only [frames]
  rw [ho, hactive]
  exact hbase

/-- After the blocks of the round both face each other again. -/
theorem Abreast.facing {bs : List Block}
    (hxy : Abreast (Beside (L.after next) (bs.map .block ++ rest) (.child :: rest) k) x y)
    (hpast : x.isPast (k + 1) (L.after next).length = true) :
    x.active.program = L.after next ∧ Facing rest k bs x y := by
  obtain ⟨c, g, hclear, hk, hactive, ho, hactive'⟩ := hxy.arrive hpast
  refine ⟨by rw [hactive], hxy.same, hxy.right, g, ho, hactive', hk, ?_⟩
  rw [hactive]
  exact hclear

/-- With no blocks left to run, the machine without the helper is where the helper's frame is
closed. -/
theorem Facing.closed (hmn : Facing rest k [] m n) {g : Frame} {fs : List Frame}
    (ho : m.outer = { g with program := .child :: rest } :: fs) :
    n.frames = { g with program := rest } :: fs ∧ n.isPast k rest.length = true := by
  obtain ⟨g', ho', hactive, hk, -⟩ := hmn.caller
  obtain ⟨hg, rfl⟩ := List.cons.inj (ho.symm.trans ho')
  have hg' : { g with program := rest } = { g' with program := rest } :=
    congrArg (fun f : Frame => { f with program := rest }) hg
  refine ⟨?_, ?_⟩
  · rw [frames, hactive, hg']
    rfl
  · rw [isPast_iff, hactive]
    exact .inr ⟨hk, Nat.le_refl _⟩

/-- There is a machine without the helper. -/
theorem InRound.exists_facing (hm : InRound L workspace h rest k body next m)
    (hc : .child ∉ rest) (bs : List Block) : ∃ n, Facing rest k bs m n := by
  obtain ⟨g, fs, ho, hk, hclear⟩ := hm.caller
  refine ⟨{ m with active := { g with program := bs.map .block ++ rest }, outer := fs },
    alike_blind.frames _ _ _ _ (Alike.refl m), ⟨?_, ?_⟩, g, ho, rfl, hk, hclear⟩
  · rw [List.mem_append, not_or]
    exact ⟨child_not_mem_blocks bs, hc⟩
  · intro f hf
    exact hm.chained.outer f (by rw [ho]; exact List.mem_cons_of_mem _ hf)

/-- The values are those before the operands were pushed. -/
theorem Moved.restore {vs : List Block} {program : List Pending} (hmoved : Moved m vs program n)
    (hx : Same { n with values := m.values } x) : Same m x :=
  (hmoved.same.withValues m.values).trans hx

/-- Behind the blocks of a round, the operands for the next turn are pushed. -/
theorem Loop.Sound.leads_operands (hL : L.Sound workspace h) {r : Nat} (hm : Chained m)
    (hp : m.active.program = L.after next)
    (hk : k < m.outer.length ∨ m.outer.length = k ∧ r = 0) (env : Environment) (run : Runner) :
    ∃ z, Leads (splicing env run) env k r (L.operands next).length m z ∧
      Moved m ((L.operands next).reverse ++ m.values) [.block (.operator L.driver)] z := by
  have hprogram : m.active.program =
      (L.operands next).map .block ++ [.block (.operator L.driver)] := by
    rw [hp, Loop.after, List.map_append]
    rfl
  obtain ⟨z, hz, hmoved⟩ := leads_values env run (k := k) (r := r) (L.operands next)
    (hL.value next) (by simp) hm hprogram (by omega)
  have hresolved : (L.operands next).map m.resolve = L.operands next := by
    rw [List.map_congr_left (fun b hb => hL.resolved next b hb m), List.map_id']
  rw [hresolved] at hmoved
  exact ⟨z, hz, hmoved⟩

theorem Moved.not_isPast {vs : List Block} {op : Pending} {r : Nat} (hmoved : Moved m vs [op] n)
    (hk : k < m.outer.length ∨ m.outer.length = k ∧ r = 0) : n.isPast k r = false := by
  rw [not_isPast_iff, hmoved.outer, hmoved.active]
  simpa [Nat.pos_iff_ne_zero] using hk

/-- **The next turn**, if there is one: the frame goes on with its round. -/
theorem Loop.Sound.leads_on (hL : L.Sound workspace h) {r : Nat} (hm : Chained m)
    (hh : Holds workspace h m) (hp : m.active.program = L.after next)
    (hk : k < m.outer.length ∨ m.outer.length = k ∧ r = 0)
    (hturn : L.turn next = some (body, next')) (env : Environment) (run : Runner) :
    ∃ c u, Leads (splicing env run) env k r (c + 1) m u ∧ Same m u ∧
      u.active.program = (L.round body next').map .block ∧
      u.active.bindings = m.active.bindings ∧ u.outer = m.outer := by
  obtain ⟨z, hz, hmoved⟩ := hL.leads_operands hm hp hk env run
  have hstarts := hL.starts next
  rw [hturn] at hstarts
  obtain ⟨u, hu, hsame, hprogram, hbindings, houter⟩ := hstarts.leads_again (hm.leads hz)
    (hh.leads hz) (by rw [hmoved.active]) hmoved.values (hmoved.not_isPast hk) env run
  refine ⟨_, u, hz.trans hu, hmoved.restore hsame, hprogram, ?_, houter.trans hmoved.outer⟩
  rw [hbindings, hmoved.active]

/-- **No further turn**, in a child: the child is closed. -/
theorem Loop.Sound.leads_done (hL : L.Sound workspace h) (hquiet : env.Quiet) {r : Nat}
    (hm : Chained m) (hh : Holds workspace h m) (hp : m.active.program = L.after next)
    (hk : k < m.outer.length) (hturn : L.turn next = none) {f : Frame} {fs : List Frame}
    (ho : m.outer = f :: fs) (run : Runner) :
    ∃ c u, Leads (splicing env run) env k r c m u ∧ Same m u ∧
      u.active = { f with program := f.program.tail } ∧ u.outer = fs := by
  obtain ⟨z, hz, hmoved⟩ := hL.leads_operands hm hp (.inl hk) env run
  have hstarts := hL.starts next
  rw [hturn] at hstarts
  obtain ⟨u, hu, hsame, hactive, houter⟩ := hstarts.leads_last hquiet (hm.leads hz) (hh.leads hz)
    (by rw [hmoved.active]) hmoved.values (hmoved.outer.trans ho) (hmoved.not_isPast (.inl hk)) run
  exact ⟨_, u, hz.trans hu, hmoved.restore hsame, hactive, houter⟩

/-- **A round.** On the way to the caller's next block, the blocks of the round are run. -/
theorem InRound.leads (hquiet : env.Quiet) (hrest : rest ≠ []) (hc : .child ∉ rest)
    (hm : InRound L workspace h rest k body next m) {j : Nat}
    (hx : Leads (splicing env run) env k rest.length j m x)
    (hpast : x.isPast k rest.length = true) :
    ∃ i y j', Leads (splicing env run) env (k + 1) (L.after next).length i m y ∧
      y.isPast (k + 1) (L.after next).length = true ∧ y.active.program = L.after next ∧
      (∃ n, Facing rest k [] y n) ∧ Leads (splicing env run) env k rest.length j' y x ∧ j' ≤ j := by
  obtain ⟨i, j', y, rfl, hi, hy, hj'⟩ :=
    hx.stopover (k + 1) (L.after next).length (by omega) hpast
  obtain ⟨n, hn⟩ := hm.exists_facing hc (body ++ [])
  obtain ⟨n', -, hyn⟩ := (hm.abreast hn).leads hquiet (L.after_ne_nil next)
    (child_not_mem_blocks _) (by simpa using hrest) run run hi
  obtain ⟨hprogram, hfacing⟩ := hyn.facing hy
  exact ⟨i, y, j', hi, hy, hprogram, ⟨n', hfacing⟩, hj', by omega⟩

/-- **Loops unroll.** A loop that comes to its end has an unrolling, and the straight list of its
blocks leads a machine without the helper to the same end. -/
theorem unrolled_of_leads (hL : L.Sound workspace h) (hquiet : env.Quiet) (hrest : rest ≠ [])
    (hc : .child ∉ rest) (j : Nat) :
    ∀ {m x : Machine} {body : List Block} {next : Float},
      InRound L workspace h rest k body next m →
      Leads (splicing env run) env k rest.length j m x → x.isPast k rest.length = true →
      ∃ bs, Unrolled L (some (body, next)) bs ∧
        ∀ n, Facing rest k bs m n → ∃ y, Reaches (splicing env run) env k rest.length n y ∧
          Same x y ∧ x.frames = y.frames := by
  induction j using Nat.strongRecOn with
  | ind j ih =>
    intro m x body next hm hx hpast
    obtain ⟨i, y, j', hi, hy, hafter, ⟨n₀, hn₀⟩, hj', hle⟩ := hm.leads hquiet hrest hc hx hpast
    obtain ⟨g, ho, -, hk, hclear⟩ := hn₀.caller
    have hchain := hm.chained.leads hi
    have hholds := hm.holds.leads hi
    have hdeep : k < y.outer.length := by
      rw [ho, List.length_cons]
      omega
    -- the straight list gets to where the blocks of the round have been run
    have hfollow : ∀ bs n, Facing rest k (body ++ bs) m n →
        ∃ n', Leads (splicing env run) env k rest.length i n n' ∧ Facing rest k bs y n' := by
      intro bs n hn
      obtain ⟨n', hn', hyn'⟩ := (hm.abreast hn).leads hquiet (L.after_ne_nil next)
        (child_not_mem_blocks _) (by simp [hrest]) run run hi
      refine ⟨n', hn'.weaken (.inr ⟨rfl, ?_⟩), (hyn'.facing hy).2⟩
      rw [List.length_append]
      omega
    cases hturn : L.turn next with
    | none =>
      obtain ⟨c, u, hu, hsame, hactive, houter⟩ :=
        hL.leads_done hquiet hchain hholds hafter hdeep hturn ho run
      obtain ⟨j'', -, hj''⟩ := hu.resume hj' hpast
      have hupast : u.isPast k rest.length = true := by
        rw [isPast_iff, hactive, houter]
        exact .inr ⟨hk, Nat.le_refl _⟩
      obtain rfl : x = u :=
        Reaches.unique ⟨j'', hj'', hpast⟩ ⟨0, rfl, hupast⟩
      refine ⟨body ++ [], .round (hturn ▸ .done), ?_⟩
      intro n hn
      obtain ⟨n', hn', hfacing⟩ := hfollow [] n hn
      obtain ⟨hframes, hnpast⟩ := hfacing.closed ho
      refine ⟨n', ⟨i, hn', hnpast⟩, hsame.symm.trans hfacing.same, ?_⟩
      rw [hframes, frames, hactive, houter]
      rfl
    | some turn =>
      obtain ⟨body', next'⟩ := turn
      obtain ⟨c, u, hu, hsame, hprogram, hbindings, houter⟩ :=
        hL.leads_on hchain hholds hafter (.inl hdeep) hturn env run
      obtain ⟨j'', rfl, hj''⟩ := hu.resume hj' hpast
      have hclears : ∀ g', Clear y.active g' → Clear u.active g' := by
        intro g' hg'
        rw [Clear, hbindings]
        exact hg'
      have hround : InRound L workspace h rest k body' next' u :=
        ⟨hchain.leads hu, hholds.leads hu, hprogram, g, n₀.outer, by rw [houter, ho], hk,
          hclears g hclear⟩
      obtain ⟨bs, hbs, hstraight⟩ := ih j'' (by omega) hround hj'' hpast
      refine ⟨body ++ bs, .round (hturn ▸ hbs), ?_⟩
      intro n hn
      obtain ⟨n', hn', hfacing⟩ := hfollow bs n hn
      obtain ⟨g', ho', hactive', hk', hclear'⟩ := hfacing.caller
      obtain ⟨v, hv, hxv, hframes⟩ := hstraight n' ⟨hsame.symm.trans hfacing.same,
        hfacing.right, g', by rw [houter, ho'], hactive', hk', hclears g' hclear'⟩
      exact ⟨v, hn'.reaches hv, hxv, hframes⟩

/-- An invariant of a loop on the way to a point, which depends on the blocks that are left to run.
It is about what blocks can see, it holds before the point only, and the blocks of a round keep it.
-/
structure Loop.Keeps (L : Loop) (workspace : Workspace) (h : Heap) (env : Environment)
    (run : Runner) (k r : Nat) (P : List Block → Machine → Prop) : Prop where
  stable : ∀ {bs : List Block} {m n : Machine}, P bs m → Same m n →
    n.active.bindings = m.active.bindings → n.outer = m.outer → P bs n
  before : ∀ {bs : List Block} {m : Machine}, P bs m →
    k < m.outer.length ∨ m.outer.length = k ∧ r = 0
  body : ∀ {i next : Float} {body bs : List Block} {m : Machine}, L.turn i = some (body, next) →
    P (body ++ bs) m → Chained m → Holds workspace h m →
    m.active.program = (L.round body next).map .block →
    ∃ c n, Leads (splicing env run) env k r c m n ∧ P bs n ∧ n.active.program = L.after next

/-- An operator on its operands as all that its frame has left to run. -/
structure Due (L : Loop) (workspace : Workspace) (h : Heap) (turn : Option (List Block × Float))
    (m : Machine) (op : Operator) (operands vals : List Block) : Prop where
  starts : Starts L workspace h op operands turn
  chained : Chained m
  holds : Holds workspace h m
  program : m.active.program = [.block (.operator op)]
  values : m.values = operands.reverse ++ vals

/-- **All rounds.** A loop with an unrolling gets to its last turn, and its invariant is kept. -/
theorem Loop.Keeps.leads {P : List Block → Machine → Prop} {r : Nat}
    (hP : L.Keeps workspace h env run k r P) (hL : L.Sound workspace h)
    {i : Float} {bs : List Block} (hbs : Unrolled L (L.turn i) bs) :
    ∀ {m : Machine} {op : Operator} {operands vals : List Block},
      Due L workspace h (L.turn i) m op operands vals → P bs { m with values := vals } →
      ∃ c z op' operands' vals', Leads (splicing env run) env k r c m z ∧
        Due L workspace h none z op' operands' vals' ∧ P [] { z with values := vals' } := by
  generalize hturn : L.turn i = turn at hbs
  induction hbs generalizing i with
  | done =>
    intro m op operands vals hm hp
    exact ⟨0, m, op, operands, vals, rfl, hm, hp⟩
  | @round body next bs _ ih =>
    rintro m op operands vals hm hp
    have hpast : m.isPast k r = false := by
      have hbefore := hP.before hp
      dsimp only at hbefore
      rw [not_isPast_iff, hm.program]
      simp only [List.length_cons, List.length_nil]
      omega
    obtain ⟨u, hu, hsame, hprogram, hbindings, houter⟩ :=
      hm.starts.leads_again hm.chained hm.holds hm.program hm.values hpast env run
    obtain ⟨c, y, hy, hpy, hafter⟩ := hP.body hturn (hP.stable hp hsame hbindings houter)
      (hm.chained.leads hu) (hm.holds.leads hu) hprogram
    have hchain := (hm.chained.leads hu).leads hy
    have hholds := (hm.holds.leads hu).leads hy
    obtain ⟨z, hz, hmoved⟩ := hL.leads_operands hchain hafter (hP.before hpy) env run
    have hpz : P bs { z with values := y.values } := by
      refine hP.stable hpy (hmoved.restore (Alike.refl _)) ?_ hmoved.outer
      change z.active.bindings = _
      rw [hmoved.active]
    obtain ⟨c', z', op', operands', vals', hz', hlast, hp'⟩ := ih rfl
      ⟨hL.starts next, hchain.leads hz, hholds.leads hz, by rw [hmoved.active], hmoved.values⟩ hpz
    exact ⟨_, z', op', operands', vals', ((hu.trans hy).trans hz).trans hz', hlast, hp'⟩

end Rounds

/-! ## Loops -/

/-- **An operator that starts a loop**, in front of another block: if it comes to its end there, the
loop has an unrolling, and the straight list of its blocks comes to the same end. -/
theorem Starts.unrolls {L : Loop} {workspace : Workspace} {h : Heap} {op : Operator}
    {turn : Option (List Block × Float)} {entry : List Block} {env : Environment} {run : Runner}
    {m x : Machine} (hL : L.Sound workspace h)
    (hS : Starts L workspace h op (entry.map m.resolve) turn)
    (hentry : ∀ b ∈ entry, b.isValue = true) (hquiet : env.Quiet) (hm : Chained m)
    (hh : Holds workspace h m) (hrest : m.active.program ≠ [])
    (hx : Reaches (splicing env run) env m.outer.length m.active.program.length
      (m.running (entry ++ [.operator op])) x) :
    ∃ bs y, Unrolled L turn bs ∧
      Reaches (splicing env run) env m.outer.length m.active.program.length (m.running bs) y ∧
      Same x y ∧ x.frames = y.frames := by
  obtain ⟨j, hj, hpast⟩ := hx
  have hchain := hm.running (entry ++ [.operator op])
  have hpushed : ∀ b : Block, (m.running (entry ++ [.operator op])).resolve b = m.resolve b :=
    fun b => rfl
  have hprogram : (m.running (entry ++ [.operator op])).active.program =
      entry.map .block ++ .block (.operator op) :: m.active.program := by
    simp [running, withProgram]
  obtain ⟨z, hz, hmoved⟩ := leads_values env run (k := m.outer.length)
    (r := m.active.program.length) entry hentry (by simp) hchain hprogram (.inr ⟨rfl, by simp⟩)
  rw [List.map_congr_left (fun b _ => hpushed b)] at hmoved
  have hvalues : z.values = (entry.map m.resolve).reverse ++ m.values := hmoved.values
  have hactive :
      z.active = { m.active with program := .block (.operator op) :: m.active.program } :=
    hmoved.active
  have houter : z.outer = m.outer := hmoved.outer
  have hsame : ∀ {u : Machine}, Same { z with values := m.values } u → Same m u :=
    fun hu => (moved_withProgram _ m).same.trans (hmoved.restore hu)
  have hzpast : z.isPast m.outer.length m.active.program.length = false := by
    rw [not_isPast_iff, hactive, houter]
    exact .inr ⟨rfl, Nat.lt_succ_self _⟩
  have hzchain := hchain.leads hz
  have hzholds : Holds workspace h z := (hh.of_eq rfl rfl : Holds workspace h
    (m.running (entry ++ [.operator op]))).leads hz
  obtain ⟨j', rfl, hj'⟩ := hz.resume hj hpast
  cases turn with
  | none =>
    obtain ⟨u, hu, hmoved'⟩ := hS.leads_past hzchain hzholds
      (by rw [hactive]) hrest hvalues hzpast env run
    obtain ⟨j'', -, hj''⟩ := hu.resume hj' hpast
    have hupast : u.isPast m.outer.length m.active.program.length = true := by
      rw [isPast_iff, hmoved'.active, hmoved'.outer, houter]
      exact .inr ⟨rfl, Nat.le_refl _⟩
    obtain rfl : x = u := Reaches.unique ⟨j'', hj'', hpast⟩ ⟨0, rfl, hupast⟩
    refine ⟨[], m.running [], .done, ⟨0, rfl, ?_⟩, ?_, ?_⟩
    · rw [isPast_iff]
      exact .inr ⟨rfl, Nat.le_refl _⟩
    · exact (hsame hmoved'.same).symm.trans (alike_blind.frames _ _ _ _ (Alike.refl m))
    · simp only [frames]
      rw [hmoved'.active, hmoved'.outer, hactive, houter]
      rfl
  | some turn =>
    obtain ⟨body, next⟩ := turn
    obtain ⟨u, hu, hsame', hprogram', hbindings, houter'⟩ := hS.leads_first hzchain hzholds
      (by rw [hactive]) hrest hvalues hzpast env run
    obtain ⟨j'', -, hj''⟩ := hu.resume hj' hpast
    have houter'' :
        u.outer = { m.active with program := .child :: m.active.program } :: m.outer := by
      rw [houter', hactive, houter]
    have hclear := Frame.clear_of_nil (c := u.active) m.active hbindings
    obtain ⟨bs, hbs, hstraight⟩ := unrolled_of_leads hL hquiet hrest hm.active j''
      ⟨hzchain.leads hu, hzholds.leads hu, hprogram', m.active, m.outer, houter'', rfl, hclear⟩ hj''
      hpast
    obtain ⟨y, hy, hxy, hframes⟩ := hstraight (m.running bs)
      ⟨(hsame hsame').symm.trans (alike_blind.frames _ _ _ _ (Alike.refl m)), hm.running bs,
        m.active, houter'', rfl, rfl, hclear⟩
    exact ⟨bs, y, hbs, hy, hxy, hframes⟩

end BlockMachine.Machine
