import BlockMachine.Proofs.Machine.Observers
import Mathlib.Data.String.Basic

/-!
# Variables after an isolated call

What an isolated call assigned is read off the variables that its machine has at the end, and those
that are parameters by then are left out. An inline call assigns as it goes along. For calls from the
main program's frame that are not in tail position, the two differ in the names that end up as
parameters: what was assigned to such a name before it became one is lost.

* `Keyed.Ordered` — the names of a frame are in order, so each is bound once;
* `Frame.Mirrors` — a child on top of the caller's frame, beside the single frame of an isolated call;
* `isolated_call_writes_back` — what the caller's variables are after both calls, and when they agree.
-/

namespace BlockMachine

namespace Keyed

variable {α : Type} {m : Keyed α}

/-- The keys are strictly ascending. -/
def Ordered (m : Keyed α) : Prop :=
  m.Pairwise fun p q => p.1 < q.1

theorem Ordered.insert (h : Ordered m) (key : String) (value : α) :
    Ordered (Keyed.insert key value m) := by
  induction m with
  | nil => exact List.pairwise_singleton _ _
  | cons p rest ih =>
    obtain ⟨k, v⟩ := p
    obtain ⟨hk, hrest⟩ := List.pairwise_cons.1 h
    rw [Keyed.insert]
    split
    · rename_i heq
      subst heq
      exact List.pairwise_cons.2 ⟨hk, hrest⟩
    · rename_i hne
      split
      · rename_i hlt
        refine List.pairwise_cons.2 ⟨?_, h⟩
        intro q hq
        rcases List.mem_cons.1 hq with rfl | hq
        · exact hlt
        · exact lt_trans hlt (hk q hq)
      · rename_i hge
        have hgt : k < key := lt_of_le_of_ne (not_lt.1 hge) (Ne.symm hne)
        refine List.pairwise_cons.2 ⟨?_, ih hrest⟩
        intro q hq
        rcases mem_insert hq with rfl | hq
        · exact hgt
        · exact hk q hq

theorem Ordered.nodup (h : Ordered m) : (m.map Prod.fst).Nodup :=
  List.pairwise_map.2 (h.imp ne_of_lt)

/-- A look-up among the values that pass a test. -/
theorem find?_filter (hkeys : (m.map Prod.fst).Nodup) (test : α → Bool) (key : String) :
    find? (m.filter fun p => test p.2) key = (find? m key).filter test := by
  induction m with
  | nil => rfl
  | cons p rest ih =>
    obtain ⟨k, v⟩ := p
    rw [List.map_cons, List.nodup_cons] at hkeys
    have hrest := ih hkeys.2
    by_cases hk : key = k
    · subst hk
      have hself : find? ((key, v) :: rest) key = some v := by simp [find?]
      rw [find?_eq_none hkeys.1] at hrest
      rw [hself]
      cases hv : test v with
      | true =>
        rw [List.filter_cons_of_pos (by simpa using hv), Option.filter_some_pos hv]
        simp [find?]
      | false =>
        rw [List.filter_cons_of_neg (by simpa using hv), hrest,
          Option.filter_some_neg (by simpa using hv)]
        rfl
    · have hne : (key == k) = false := by simpa using hk
      cases hv : test v with
      | true =>
        rw [List.filter_cons_of_pos (by simpa using hv)]
        simpa [find?, List.lookup_cons, hne] using hrest
      | false =>
        rw [List.filter_cons_of_neg (by simpa using hv)]
        simpa [find?, List.lookup_cons, hne] using hrest

end Keyed

namespace Frame

/-! ## Frames -/

theorem fetch_singleton (f : Frame) (name : String) :
    fetch [f] name = (f.bindings.find? name).map Binding.block := by
  rw [fetch_cons]
  cases f.bindings.find? name <;> rfl

/-- An assignment to a frame leaves the marks of its names as they are. -/
theorem isParameter_bind (f : Frame) (name : String) (b : Block) (other : String) :
    (f.bind name (f.isParameter name) b).isParameter other = f.isParameter other := by
  by_cases h : other = name
  · rw [h, isParameter_bind_self]
  · exact isParameter_bind_of_ne f _ b h

/-- A frame on top of the caller's, and a single frame that started with the caller's variables. Both
have the same parameters; all else that is bound in the upper frame is bound alike in the caller's. -/
inductive Mirrors (caller : Frame) : List Frame → Frame → Prop where
  | intro {f c g : Frame} : f.program = g.program →
    (∀ name, f.isParameter name = g.isParameter name) →
    (∀ name, fetch [f, c] name = fetch [g] name) →
    (∀ name, f.isParameter name = false → fetch [f, c] name = fetch [c] name) →
    (∀ name, (fetch [caller] name).isSome = true → (fetch [g] name).isSome = true) →
    Keyed.Ordered g.bindings → Mirrors caller [f, c] g

theorem Mirrors.ordered {caller g : Frame} {fs : List Frame} (h : Mirrors caller fs g) :
    g.bindings.Ordered := by
  obtain ⟨-, -, -, -, -, hordered⟩ := h
  exact hordered

theorem Mirrors.eq_pair {caller g : Frame} {fs : List Frame} (h : Mirrors caller fs g) :
    ∃ f c, fs = [f, c] := by
  obtain ⟨⟩ := h
  exact ⟨_, _, rfl⟩

theorem fetch_cons_congr {f f' : Frame} (h : f'.bindings = f.bindings) (fs : List Frame)
    (name : String) : fetch (f' :: fs) name = fetch (f :: fs) name := by
  rw [fetch_cons, fetch_cons, h]

theorem fetch_bind_self (f : Frame) (name : String) (parameter : Bool) (b : Block)
    (fs : List Frame) : fetch (f.bind name parameter b :: fs) name = some b := by
  rw [fetch_cons, find?_bind_self]
  rfl

theorem fetch_bind_of_ne (f : Frame) {name other : String} (parameter : Bool) (b : Block)
    (h : other ≠ name) (fs : List Frame) :
    fetch (f.bind name parameter b :: fs) other = fetch (f :: fs) other := by
  rw [fetch_cons, fetch_cons, find?_bind_of_ne f parameter b h]

/-- Both frames go on with a program of their own. -/
theorem Mirrors.reload {caller f f' g g' : Frame} {fs : List Frame} (h : Mirrors caller (f :: fs) g)
    (hf : f'.bindings = f.bindings) (hg : g'.bindings = g.bindings)
    (hp : f'.program = g'.program) : Mirrors caller (f' :: fs) g' := by
  obtain ⟨-, hmarks, hfetch, hplain, hbound, hordered⟩ := h
  refine ⟨hp, ?_, ?_, ?_, ?_, ?_⟩
  · intro name
    rw [isParameter, isParameter, hf, hg]
    exact hmarks name
  · intro name
    rw [fetch_cons_congr hf, fetch_cons_congr hg]
    exact hfetch name
  · intro name hname
    rw [isParameter, hf] at hname
    rw [fetch_cons_congr hf]
    exact hplain name hname
  · intro name hname
    rw [fetch_cons_congr hg]
    exact hbound name hname
  · rw [hg]
    exact hordered

/-- An assignment reaches the caller's frame unless the name is a parameter of the frame above. -/
theorem bindUp_pair (name : String) (b : Block) (f c : Frame) :
    bindUp name b false [f, c] = [f.bind name (f.isParameter name) b,
      if f.isParameter name then c else c.bind name (c.isParameter name) b] := by
  rw [bindUp_cons, Bool.false_or]
  split
  · rfl
  · rw [bindUp_singleton]

/-- An assignment to a name binds it in the single frame as well. -/
theorem isSome_fetch_bind {g : Frame} {name other : String} (parameter : Bool) (b : Block)
    (h : (fetch [g] other).isSome = true) :
    (fetch [g.bind name parameter b] other).isSome = true := by
  by_cases hne : other = name
  · rw [hne, fetch_bind_self]
    rfl
  · rw [fetch_bind_of_ne g parameter b hne]
    exact h

/-- An assignment to the upper frames is mirrored by one to the single frame. -/
theorem Mirrors.bindUp {caller g : Frame} {fs : List Frame} (h : Mirrors caller fs g)
    (name : String) (b : Block) :
    Mirrors caller (Frame.bindUp name b false fs) (g.bind name (g.isParameter name) b) := by
  obtain @⟨f, c, _, hp, hmarks, hfetch, hplain, hbound, hordered⟩ := h
  have hframes := bindUp_pair name b f c
  rw [hframes]
  refine ⟨hp, ?_, ?_, ?_, fun other hother => isSome_fetch_bind _ b (hbound other hother),
    hordered.insert _ _⟩
  · intro other
    rw [isParameter_bind, isParameter_bind]
    exact hmarks other
  · intro other
    by_cases hne : other = name
    · rw [hne, fetch_bind_self, fetch_bind_self]
    · rw [fetch_bind_of_ne g _ b hne, ← hfetch other, ← hframes]
      exact (bindUp_of_ne b hne _).1
  · -- what is no parameter above was bound in the caller's frame as well
    intro other hother
    rw [isParameter_bind] at hother
    by_cases hne : other = name
    · rw [hne] at hother
      rw [hne, fetch_bind_self, hother, if_neg Bool.false_ne_true, fetch_bind_self]
    · rw [← hframes, (bindUp_of_ne b hne _).1, hplain other hother]
      split
      · rfl
      · exact (fetch_bind_of_ne c _ b hne []).symm

/-- A parameter is bound in the uppermost frame and in the single one. -/
theorem Mirrors.bind {caller f g : Frame} {fs : List Frame} (h : Mirrors caller (f :: fs) g)
    (name : String) (b : Block) :
    Mirrors caller (f.bind name true b :: fs) (g.bind name true b) := by
  obtain @⟨_, c, _, hp, hmarks, hfetch, hplain, hbound, hordered⟩ := h
  refine ⟨hp, ?_, ?_, ?_, fun other hother => isSome_fetch_bind _ b (hbound other hother),
    hordered.insert _ _⟩
  · intro other
    by_cases hne : other = name
    · rw [hne, isParameter_bind_self, isParameter_bind_self]
    · rw [isParameter_bind_of_ne f true b hne, isParameter_bind_of_ne g true b hne]
      exact hmarks other
  · intro other
    by_cases hne : other = name
    · rw [hne, fetch_bind_self, fetch_bind_self]
    · rw [fetch_bind_of_ne f true b hne, fetch_bind_of_ne g true b hne]
      exact hfetch other
  · intro other hother
    have hne : other ≠ name := by
      rintro rfl
      rw [isParameter_bind_self] at hother
      cases hother
    rw [isParameter_bind_of_ne f true b hne] at hother
    rw [fetch_bind_of_ne f true b hne]
    exact hplain other hother

theorem mirrors_footing (unbound : String → Block) (caller : Frame) :
    Footing unbound 1 (Mirrors caller) where
  length h := by
    obtain ⟨⟩ := h
    rfl
  program h := by
    obtain ⟨hp, -⟩ := h
    exact hp
  seen h name := by
    obtain ⟨-, -, hfetch, -⟩ := h
    rw [seen, seen, hfetch]
  reload h := h.reload
  bindUp h := h.bindUp
  bind h := h.bind

/-- What is written back to the caller's frame from the single one, and what is there already. -/
theorem Mirrors.writtenBack {caller f c g : Frame} (h : Mirrors caller [f, c] g) (name : String) :
    (((g.bindings.find? name).filter fun v => !v.parameter).map Binding.block).or
        (fetch [caller] name) =
      if g.isParameter name then fetch [caller] name else fetch [c] name := by
  obtain ⟨-, hmarks, hfetch, hplain, hbound, -⟩ := h
  cases hfind : g.bindings.find? name with
  | none =>
    -- the name is bound nowhere, as the single frame keeps the caller's names
    have hmark : g.isParameter name = false := by rw [isParameter, hfind]; rfl
    have hnone : fetch [g] name = none := by rw [fetch_singleton, hfind]; rfl
    rw [hmark, if_neg Bool.false_ne_true, ← hplain name ((hmarks name).trans hmark), hfetch, hnone]
    have hcaller : (fetch [caller] name).isSome ≠ true := by
      intro hsome
      have := hbound name hsome
      rw [hnone] at this
      cases this
    simpa using hcaller
  | some v =>
    have hmark : g.isParameter name = v.parameter := by rw [isParameter, hfind]; rfl
    have hsome : fetch [g] name = some v.block := by rw [fetch_singleton, hfind]; rfl
    cases hv : v.parameter with
    | true =>
      rw [hmark, hv, if_pos rfl, Option.filter_some_neg (by simp [hv])]
      rfl
    | false =>
      rw [hmark, hv, if_neg Bool.false_ne_true, Option.filter_some_pos (by simp [hv]),
        ← hplain name ((hmarks name).trans (hmark.trans hv)), hfetch, hsome]
      rfl

end Frame

namespace Machine

/-! ## The start -/

/-- A frame into which the variables of a map are assigned stays in order and gets no parameter. -/
theorem bindAll_ordered (bindings : Keyed Binding) :
    ∀ {f g : Frame}, f.bindings.Ordered → bindAll bindings [f] = [g] →
      g.bindings.Ordered ∧ ∀ name, g.isParameter name = f.isParameter name := by
  induction bindings with
  | nil =>
    intro f g hf hg
    obtain rfl := (List.cons.inj hg).1
    exact ⟨hf, fun _ => rfl⟩
  | cons p bindings ih =>
    intro f g hf hg
    rw [bindAll, List.foldl_cons, Frame.bindUp_singleton] at hg
    obtain ⟨hordered, hmarks⟩ := ih (hf.insert p.1 ⟨f.isParameter p.1, p.2.block⟩) hg
    refine ⟨hordered, ?_⟩
    intro name
    rw [hmarks]
    exact Frame.isParameter_bind f p.1 p.2.block name

/-- The machine of an isolated call starts like its caller, -/
theorem alike_bare {m : Machine} {naming : Bool} (hnaming : naming = true → m.anonymous = 0) :
    Alike (naming = true) False m m.bare := by
  obtain ⟨active, outer, log, ha⟩ := assignEach_eq true m.active.bindings
    { m.nested m.remainingBudget with values := m.values }
  rw [bare, ha]
  exact ⟨rfl, rfl, rfl, rfl, hnaming, False.elim, False.elim⟩

/-- and with a frame that shows what the caller's shows. -/
theorem bare_frame {m : Machine} (hkeys : (m.active.bindings.map Prod.fst).Nodup) :
    m.bare.outer = [] ∧ m.bare.active.program = [] ∧ m.bare.active.bindings.Ordered ∧
      (∀ name, m.bare.active.isParameter name = false) ∧
      ∀ name, Frame.fetch [m.bare.active] name = Frame.fetch [m.active] name := by
  have hframes : m.bare.frames = bindAll m.active.bindings [Frame.empty] :=
    assignEach_frames m.active.bindings { m.nested m.remainingBudget with values := m.values }
  obtain ⟨g, hg, hp, hfetch⟩ := bindAll_singleton m.active.bindings hkeys Frame.empty
  obtain ⟨hordered, hmarks⟩ := bindAll_ordered m.active.bindings (f := Frame.empty) .nil hg
  rw [hg] at hframes
  obtain ⟨hactive, houter⟩ := List.cons.inj hframes
  rw [hactive]
  refine ⟨houter, hp, hordered, hmarks, ?_⟩
  intro name
  rw [hfetch name, Frame.fetch_singleton m.active]
  exact Option.or_none

/-- In a call from the only frame, which has work left, the child mirrors that frame at the start. -/
theorem mirrors_bare {m : Machine} (houter : m.outer = []) (hwork : m.active.program ≠ [])
    (hkeys : (m.active.bindings.map Prod.fst).Nodup) :
    Frame.Mirrors m.active m.entry m.bare.active := by
  obtain ⟨-, hp, hordered, hmarks, hfetch⟩ := bare_frame hkeys
  have hentry : m.entry = [Frame.empty, waiting m.active] := by
    rw [entry, houter, if_neg]
    simpa [Frame.isFinished] using hwork
  rw [hentry]
  refine ⟨hp.symm, fun name => (hmarks name).symm, ?_, fun _ _ => rfl, ?_, hordered⟩
  · intro name
    exact (hfetch name).symm
  · intro name hname
    rw [hfetch]
    exact hname

/-! ## The end -/

/-- What an inline call leaves of the caller's frame. -/
theorem fetch_mainFrame_of_leaves {f c : Frame} {p : Machine} (h : Leaves [f, c] p) (name : String) :
    Frame.fetch [p.mainFrame] name = Frame.fetch [c] name := by
  rcases h with h | ⟨f', c', rest, hfs, h⟩
  · obtain ⟨-, houter⟩ := List.cons.inj h
    rw [mainFrame, houter]
    rfl
  · cases hfs
    obtain ⟨hactive, houter⟩ := List.cons.inj h
    rw [mainFrame, houter, hactive]
    rfl

theorem assignEach_false (bindings : Keyed Binding) (m : Machine) :
    m.assignEach false bindings = m.assignEach true (bindings.filter fun p => !p.2.parameter) := by
  rw [assignEach, assignEach, List.foldl_filter]
  rfl

/-- The variables of a frame after those of a map are written back to it. -/
theorem fetch_assignEach {m : Machine} (houter : m.outer = []) {bindings : Keyed Binding}
    (hkeys : (bindings.map Prod.fst).Nodup) (name : String) :
    (m.assignEach false bindings).fetch name =
      (((bindings.find? name).filter fun v => !v.parameter).map Binding.block).or (m.fetch name) := by
  have hfiltered : ((bindings.filter fun p => !p.2.parameter).map Prod.fst).Nodup :=
    hkeys.sublist (List.filter_sublist.map _)
  obtain ⟨g, hg, -, hfetch⟩ := bindAll_singleton _ hfiltered m.active
  have hframes : m.frames = [m.active] := by rw [frames, houter]
  rw [fetch, fetch, assignEach_false, assignEach_frames, hframes, hg, hfetch,
    Keyed.find?_filter hkeys (fun v => !v.parameter)]

/-- The variables that an isolated call leaves. -/
theorem fetch_callIsolated {run : Runner} {env : Environment} {loc : Loc} {m sub : Machine}
    {result : List Block} (houter : m.outer = [])
    (hrun : run (m.callee env loc) = (result, sub))
    (hkeys : (sub.mainFrame.bindings.map Prod.fst).Nodup) (name : String) :
    (m.callIsolated run env loc).fetch name =
      (((sub.mainFrame.bindings.find? name).filter fun v => !v.parameter).map Binding.block).or
        (m.fetch name) := by
  let caller : Machine := { (m.obfuscate loc false).withoutWorld with world := sub.world }
  have hcaller : caller.outer = [] := houter
  rw [callee] at hrun
  rw [callIsolated, hrun]
  have hwritten := fetch_assignEach hcaller hkeys name
  -- the caller's frames are not touched after that
  obtain ⟨hactive, houter'⟩ := (kept_frames _ _).adopt
    (m := caller.assignEach false sub.mainFrame.bindings) ⟨rfl, rfl⟩ result sub
  rw [fetch, ← frames_eq hactive houter'] at hwritten
  exact hwritten

/-! ## Both calls -/

section Calls

variable {env : Environment} {run : Runner} {name : String} {target : Option Loc} {loc : Loc}
  {naming : Bool} {m p q : Machine}

/-- The two calls start in lockstep. -/
theorem lockstep_mirrors (env : Environment) (s : Stack) {m : Machine} (hc : Chained m)
    (houter : m.outer = []) (hwork : m.active.program ≠ [])
    (hkeys : (m.active.bindings.map Prod.fst).Nodup) {naming : Bool}
    (hnaming : naming = true → m.anonymous = 0) :
    Lockstep naming (Frame.Mirrors m.active) (m.insert env s) (m.isolated env s) := by
  have halike := alike_bare hnaming
  obtain ⟨ho, hp, -⟩ := bare_frame hkeys
  refine lockstep_insert (Frame.mirrors_footing (unbound env) m.active) env s ?_ hc ?_ ?_ ?_
  · exact { halike with }
  · exact ho
  · exact hp
  · exact mirrors_bare houter hwork hkeys

/-- They end so that the child of the inline call, which may be closed by then, and the caller's frame
mirror the single frame of the isolated call. -/
theorem ends_mirrored (hq : env.Quiet) (hc : Chained m) (houter : m.outer = [])
    (hwork : m.active.program ≠ []) (hkeys : (m.active.bindings.map Prod.fst).Nodup)
    (hres : m.resolve (.code name target) = .code name (some loc)) (hloc : loc < m.heap.size)
    (hnaming : naming = true → m.anonymous = 0)
    (hp : InlineCall env run name target loc m naming p)
    (hiso : IsolatedCall env run name target loc m q) :
    ∃ sub f c, run (m.callee env loc) = (sub.result, sub) ∧ sub.mainFrame = sub.active ∧
      Frame.Mirrors m.active [f, c] sub.active ∧ Leaves [f, c] p := by
  obtain ⟨⟨depth, hrun, hcompletes⟩, -⟩ := hiso
  rw [InlineCall, call_inline hres hloc] at hp
  have hB := Frame.mirrors_footing (unbound env) m.active
  have hlock := lockstep_mirrors env ((m.obfuscate loc false).heap.get loc)
    (m := m.obfuscate loc false) ⟨hc.active, hc.outer⟩ houter hwork hkeys hnaming
  -- a run starts with a count of steps, of which lockstep takes no notice
  have hstarted : Lockstep naming (Frame.Mirrors m.active) _ (m.callee env loc).started :=
    ⟨hlock.alike.trans ⟨rfl, rfl, rfl, rfl, fun _ => rfl, False.elim, False.elim⟩, hlock.based,
      hlock.left, ⟨hlock.right.active, hlock.right.outer⟩⟩
  -- the child of the inline call has one frame below it
  have hlen := insert_outer_length env ((m.obfuscate loc false).heap.get loc) (m.obfuscate loc false)
  rw [hB.length (mirrors_bare (m := m.obfuscate loc false) houter hwork hkeys)] at hlen
  rw [Nat.add_right_cancel hlen] at hp
  obtain ⟨sub, hsub, hend⟩ := Lockstep.finishes hq hB hp hstarted hcompletes
  obtain ⟨fs, hmirrors, hleaves⟩ := hend.frames
  obtain ⟨f, c, rfl⟩ := hmirrors.eq_pair
  refine ⟨sub, f, c, hrun.trans hsub, ?_, hmirrors, hleaves⟩
  rw [mainFrame, hend.alone]
  rfl

/-- **Variables after an isolated call** from the main program's frame that is not in tail position.
A name that ends as a parameter of the called stack, or of one that it calls in tail position, is
bound as before the call; any other name is bound as after an inline call. So the calls leave the same
variables if and only if the inline call leaves the names alone that end as parameters. The calls that
are compared finish, evaluate plain blocks only, roll no dice and name anonymous stacks only if the
caller has named none so far. -/
theorem isolated_call_writes_back (env : Environment) (hq : env.Quiet) (m : Machine) (hc : Chained m)
    (houter : m.outer = []) (hwork : m.active.program ≠ [])
    (hkeys : (m.active.bindings.map Prod.fst).Nodup) (run : Runner) (name : String)
    (target : Option Loc) (loc : Loc) (naming : Bool) (p q : Machine)
    (hres : m.resolve (.code name target) = .code name (some loc)) (hloc : loc < m.heap.size)
    (hnaming : naming = true → m.anonymous = 0)
    (hp : InlineCall env run name target loc m naming p)
    (hiso : IsolatedCall env run name target loc m q) :
    (∀ x, q.fetch x = if (run (m.callee env loc)).2.mainFrame.isParameter x then m.fetch x
        else Frame.fetch [p.mainFrame] x) ∧
      ((∀ x, q.fetch x = Frame.fetch [p.mainFrame] x) ↔
        ∀ x, (run (m.callee env loc)).2.mainFrame.isParameter x = true →
          Frame.fetch [p.mainFrame] x = m.fetch x) := by
  have hfetch : ∀ x, q.fetch x = if (run (m.callee env loc)).2.mainFrame.isParameter x then m.fetch x
      else Frame.fetch [p.mainFrame] x := by
    intro x
    obtain ⟨sub, f, c, hrun, hmain, hmirrors, hleaves⟩ :=
      ends_mirrored hq hc houter hwork hkeys hres hloc hnaming hp hiso
    have hcallee : (m.obfuscate loc true).callee env loc = m.callee env loc := by
      rw [callee, callee, obfuscate_obfuscate]
    have hcaller : m.fetch x = Frame.fetch [m.active] x := by rw [fetch, frames, houter]
    have hback := fetch_callIsolated (m := m.obfuscate loc true) houter (hcallee ▸ hrun)
      (by rw [hmain]; exact hmirrors.ordered.nodup) x
    rw [hiso.2, call_marked hres hloc, hback, hrun, fetch_mainFrame_of_leaves hleaves, hmain, hcaller]
    exact hcaller ▸ hmirrors.writtenBack x
  refine ⟨hfetch, ?_, ?_⟩
  · intro hagree x hx
    rw [← hagree x, hfetch x, if_pos hx]
  · intro hkept x
    rw [hfetch x]
    split
    · rename_i hx
      exact (hkept x hx).symm
    · rfl

end Calls

/-- The run to the point at which a frame has nothing left to run, if it takes at most so many
steps. -/
def returns? (d : Discipline) (env : Environment) (naming : Bool) (k : Nat) :
    Nat → Machine → Option Machine
  | 0, _ => none
  | left + 1, m =>
    if m.isOver k then some m
    else if m.isCalm naming then returns? d env naming k left (m.step d env).2.counted
    else none

theorem Returns.of_returns? {d : Discipline} {env : Environment} {naming : Bool} {k : Nat}
    {p : Machine} (left : Nat) :
    ∀ {m : Machine}, m.returns? d env naming k left = some p → Returns d env naming k m p := by
  induction left with
  | zero =>
    intro m h
    cases h
  | succ left ih =>
    intro m h
    rw [returns?] at h
    split at h
    · rename_i hover
      obtain rfl := Option.some.inj h
      exact .ended hover
    · rename_i hover
      split at h
      · rename_i hcalm
        exact .next (by simpa using hover) hcalm rfl (ih h)
      · cases h

/-- A caller with two stacks: the first assigns a text to a name and calls the second in tail
position, which has that name as its parameter. -/
def rebinder : Machine :=
  { make 20 Workspace.empty ⟨⟨⟨#[
        Stack.make "f" [.string "a", .assign "y", .string "b", .code "g" (some 1)],
        { Stack.make "g" [.fetch "y"] with inputs := ["y"] }]⟩, Dice.ofSeed 0⟩, [], []⟩ with
    active := ⟨[.block (.string "c")], [], "main"⟩ }

/-- What the first stack assigns is there after an inline call and lost after an isolated one. -/
theorem isolated_call_writes_back_rebinder :
    Environment.standard.Quiet ∧ Chained rebinder ∧ rebinder.outer = [] ∧
      rebinder.active.program ≠ [] ∧ (rebinder.active.bindings.map Prod.fst).Nodup ∧
      rebinder.resolve (.code "f" (some 0)) = .code "f" (some 0) ∧ 0 < rebinder.heap.size ∧
      ∃ p q, InlineCall Environment.standard (runAt Environment.standard 1) "f" (some 0) 0 rebinder
          false p ∧
        IsolatedCall Environment.standard (runAt Environment.standard 1) "f" (some 0) 0 rebinder q ∧
        Frame.fetch [p.mainFrame] "y" = some (.string "a") ∧ q.fetch "y" = none ∧
        ¬ ∀ x, q.fetch x = Frame.fetch [p.mainFrame] x := by
  have hq : Environment.standard.Quiet := fun e he => absurd he List.not_mem_nil
  have hc : Chained rebinder := by
    refine ⟨by simp [rebinder], ?_⟩
    exact fun f hf => absurd hf List.not_mem_nil
  have hwork : rebinder.active.program ≠ [] := List.cons_ne_nil _ _
  have hkeys : (rebinder.active.bindings.map Prod.fst).Nodup := List.nodup_nil
  have hloc : 0 < rebinder.heap.size := by decide +kernel
  -- the inline call, run
  have hfound : (returns? (splicing Environment.standard (runAt Environment.standard 1))
      Environment.standard false 1 8 ((rebinder.obfuscate 0 false).call
        (splicing Environment.standard (runAt Environment.standard 1)) Environment.standard "f"
        (some 0))).map (fun p => Frame.fetch [p.mainFrame] "y") = some (some (.string "a")) := by
    decide +kernel
  obtain ⟨p, hp, hassigned⟩ := Option.map_eq_some_iff.1 hfound
  have hinline : InlineCall Environment.standard (runAt Environment.standard 1) "f" (some 0) 0
      rebinder false p := by
    have hdepth : ((rebinder.obfuscate 0 false).call
        (splicing Environment.standard (runAt Environment.standard 1)) Environment.standard "f"
        (some 0)).outer.length = 1 := by decide +kernel
    rw [InlineCall, hdepth]
    exact .of_returns? 8 hp
  have hiso : IsolatedCall Environment.standard (runAt Environment.standard 1) "f" (some 0) 0
      rebinder ((rebinder.obfuscate 0 true).call
        (splicing Environment.standard (runAt Environment.standard 1)) Environment.standard "f"
        (some 0)) := ⟨⟨0, rfl, by decide +kernel⟩, rfl⟩
  obtain ⟨hfetch, hagree⟩ := isolated_call_writes_back Environment.standard hq rebinder hc rfl hwork
    hkeys _ "f" (some 0) 0 false p _ rfl hloc (fun h => by cases h) hinline hiso
  have hparameter : (runAt Environment.standard 1
      (rebinder.callee Environment.standard 0)).2.mainFrame.isParameter "y" = true := by
    decide +kernel
  refine ⟨hq, hc, rfl, hwork, hkeys, rfl, hloc, p, _, hinline, hiso, hassigned, ?_, ?_⟩
  · rw [hfetch, if_pos hparameter]
    rfl
  · rw [hagree]
    intro hkept
    have hlost := hkept "y" hparameter
    rw [hassigned] at hlost
    cases hlost

end Machine

end BlockMachine
