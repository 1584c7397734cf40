import BlockMachine.Proofs.Machine.WriteBack
import Mathlib.Data.Nat.Find

/-!
# How far an assignment reaches

The frames of a machine by depth: the main program's frame has depth zero, and the active frame is
the deepest. A name belongs to the deepest frame in which it is a parameter, or to the main program
if it is a parameter nowhere. An assignment binds the name from the active frame up to that frame,
and leaves all that lies further out.

* `Machine.frameAt`, `Machine.fetchAt` — a frame, and a look-up, at a depth;
* `Machine.ownerDepth` — the frame that a name belongs to;
* `Frame.Rebound` — a frame in which one name is bound anew and nothing else has changed;
* `drop_bindUp` — what binding a name does from some frame on outwards;
* `assign_reaches_owner` — the frames after an assignment, and what is seen from each of them.
-/

namespace BlockMachine

namespace Frame

/-- The second frame is the first with one name bound anew. -/
structure Rebound (name : String) (binding : Binding) (f f' : Frame) : Prop where
  bound : f'.bindings.find? name = some binding
  others : ∀ other, other ≠ name → f'.bindings.find? other = f.bindings.find? other
  program : f'.program = f.program
  stack : f'.name = f.name

theorem rebound_bind (f : Frame) (name : String) (parameter : Bool) (b : Block) :
    Rebound name ⟨parameter, b⟩ f (f.bind name parameter b) where
  bound := find?_bind_self f name parameter b
  others _ h := find?_bind_of_ne f parameter b h
  program := rfl
  stack := rfl

/-- A binding goes past the frames in which the name is no parameter, and not past one in which it
is. -/
theorem drop_bindUp (name : String) (b : Block) (fs : List Frame) (n : Nat) :
    (bindUp name b false fs).drop n =
      if (fs.take n).any (fun f => f.isParameter name) then fs.drop n
      else bindUp name b false (fs.drop n) := by
  induction fs generalizing n with
  | nil => simp [bindUp]
  | cons f outer ih =>
    cases n with
    | zero => simp
    | succ n =>
      rw [bindUp_cons]
      simp only [List.drop_succ_cons, List.take_succ_cons, List.any_cons, Bool.false_or]
      cases hf : f.isParameter name with
      | true => simp
      | false => simpa using ih n

end Frame

namespace Machine

/-! ## Depths -/

theorem sub_depth_lt_frames (m : Machine) (depth : Nat) :
    m.outer.length - depth < m.frames.length := by
  simp only [frames, List.length_cons]
  omega

/-- The frame at a depth. -/
def frameAt (m : Machine) (depth : Nat) : Frame :=
  m.frames.get ⟨m.outer.length - depth, m.sub_depth_lt_frames depth⟩

/-- The innermost binding of a name that is seen from the frame at a depth. -/
def fetchAt (m : Machine) (depth : Nat) (name : String) : Option Block :=
  Frame.fetch (m.frames.drop (m.outer.length - depth)) name

/-- The depth of the frame that a name belongs to: the deepest in which it is a parameter, and zero
if there is none. -/
def ownerDepth (m : Machine) (name : String) : Nat :=
  Nat.findGreatest (fun depth => (m.frameAt depth).isParameter name = true) m.outer.length

theorem drop_frames (m : Machine) (depth : Nat) :
    m.frames.drop (m.outer.length - depth) =
      m.frameAt depth :: m.frames.drop (m.outer.length - depth + 1) :=
  List.drop_eq_getElem_cons _

/-- The frame at a depth is the first that is left without the deeper ones. -/
theorem frameAt_eq_of_drop {m : Machine} {depth : Nat} {f : Frame} {fs : List Frame}
    (h : m.frames.drop (m.outer.length - depth) = f :: fs) : m.frameAt depth = f := by
  rw [drop_frames] at h
  exact (List.cons.inj h).1

/-- A name is a parameter in a deeper frame if and only if it belongs to a deeper frame. -/
theorem any_deeper_iff (m : Machine) (name : String) (depth : Nat) :
    ((m.frames.take (m.outer.length - depth)).any fun f => f.isParameter name) = true ↔
      depth < m.ownerDepth name := by
  have hlength : m.frames.length = m.outer.length + 1 := rfl
  constructor
  · intro h
    obtain ⟨f, hf, hp⟩ := List.any_eq_true.1 h
    obtain ⟨n, hn, rfl⟩ := List.mem_take_iff_getElem.1 hf
    have hat : m.frameAt (m.outer.length - n) = m.frames[n] := by
      simp only [frameAt, List.get_eq_getElem]
      congr 1
      omega
    have hle : m.outer.length - n ≤ m.ownerDepth name :=
      Nat.le_findGreatest (Nat.sub_le _ _) (by rw [hat]; exact hp)
    omega
  · intro h
    have hle : m.ownerDepth name ≤ m.outer.length := Nat.findGreatest_le _
    have hp : (m.frameAt (m.ownerDepth name)).isParameter name = true :=
      Nat.findGreatest_of_ne_zero rfl (Nat.ne_zero_of_lt h)
    refine List.any_eq_true.2 ⟨_, List.mem_take_iff_getElem.2 ⟨_, ?_, rfl⟩, hp⟩
    omega

/-- A frame deeper than the one a name belongs to does not have it as a parameter. -/
theorem isParameter_eq_false_of_ownerDepth_lt {m : Machine} {name : String} {depth : Nat}
    (h : m.ownerDepth name < depth) (hle : depth ≤ m.outer.length) :
    (m.frameAt depth).isParameter name = false :=
  Bool.eq_false_iff.2 (Nat.findGreatest_is_greatest h hle)

/-! ## Assignments -/

/-- What an assignment leaves from a frame on outwards. -/
theorem drop_assign (m : Machine) (name : String) (b : Block) (depth : Nat) :
    (m.assign name b false).frames.drop ((m.assign name b false).outer.length - depth) =
      if depth < m.ownerDepth name then m.frames.drop (m.outer.length - depth)
      else Frame.bindUp name b false (m.frames.drop (m.outer.length - depth)) := by
  rw [assign_outer_length, assign_frames, Frame.drop_bindUp]
  exact if_congr (any_deeper_iff m name depth) rfl rfl

/-- Further out than the frame that a name belongs to, an assignment changes nothing. -/
theorem assign_of_lt_ownerDepth {m : Machine} {name : String} (b : Block) {depth : Nat}
    (h : depth < m.ownerDepth name) :
    (m.assign name b false).frameAt depth = m.frameAt depth ∧
      ∀ other, (m.assign name b false).fetchAt depth other = m.fetchAt depth other := by
  have hdrop := drop_assign m name b depth
  rw [if_pos h] at hdrop
  refine ⟨frameAt_eq_of_drop (hdrop.trans (drop_frames m depth)), ?_⟩
  intro other
  rw [fetchAt, hdrop]
  rfl

/-- From the frame that a name belongs to inwards, every frame binds the name, as a parameter where
it was one. -/
theorem assign_of_ownerDepth_le {m : Machine} {name : String} (b : Block) {depth : Nat}
    (h : m.ownerDepth name ≤ depth) :
    (m.assign name b false).frameAt depth =
        (m.frameAt depth).bind name ((m.frameAt depth).isParameter name) b ∧
      (m.assign name b false).fetchAt depth name = some b ∧
      ∀ other, other ≠ name →
        (m.assign name b false).fetchAt depth other = m.fetchAt depth other := by
  have hdrop := drop_assign m name b depth
  rw [if_neg (Nat.not_lt.2 h)] at hdrop
  refine ⟨?_, ?_, ?_⟩
  · rw [drop_frames m depth, Frame.bindUp_cons] at hdrop
    exact frameAt_eq_of_drop hdrop
  · rw [fetchAt, hdrop, drop_frames m depth]
    exact Frame.fetch_bindUp_self ..
  · intro other hne
    rw [fetchAt, hdrop]
    exact (Frame.bindUp_of_ne b hne _).1

/-- Binding a parameter reaches the active frame only. -/
theorem assign_parameter_frames (m : Machine) (name : String) (b : Block) :
    (m.assign name b true).frames = m.active.bind name true b :: m.outer := by
  rw [assign_frames]
  rfl

/-- An assignment binds the name in the frames from its owner inwards. There the owner alone keeps
the name as a parameter, if it was one, and the value is seen from each of these frames. Frames
further out, what is seen from them, and all other names stay as they were. Binding a parameter
changes the active frame only. -/
theorem assign_reaches_owner (m : Machine) (name : String) (b : Block) :
    (m.assign name b false).outer.length = m.outer.length ∧
    (∀ depth, m.ownerDepth name ≤ depth → depth ≤ m.outer.length →
      Frame.Rebound name
          ⟨decide (depth = m.ownerDepth name) && (m.frameAt depth).isParameter name, b⟩
          (m.frameAt depth) ((m.assign name b false).frameAt depth) ∧
        (m.assign name b false).fetchAt depth name = some b) ∧
    (∀ depth, depth < m.ownerDepth name →
      (m.assign name b false).frameAt depth = m.frameAt depth ∧
        (m.assign name b false).fetchAt depth name = m.fetchAt depth name) ∧
    (∀ depth other, other ≠ name →
      (m.assign name b false).fetchAt depth other = m.fetchAt depth other) ∧
    (m.assign name b true).outer.length = m.outer.length ∧
    Frame.Rebound name ⟨true, b⟩ (m.frameAt m.outer.length)
      ((m.assign name b true).frameAt m.outer.length) ∧
    (∀ depth, depth < m.outer.length →
      (m.assign name b true).frameAt depth = m.frameAt depth) := by
  refine ⟨assign_outer_length .., ?_, ?_, ?_, assign_outer_length .., ?_, ?_⟩
  · intro depth howner hle
    obtain ⟨hframe, hfetch, -⟩ := assign_of_ownerDepth_le b howner
    have hmark : (decide (depth = m.ownerDepth name) && (m.frameAt depth).isParameter name) =
        (m.frameAt depth).isParameter name := by
      rcases Nat.eq_or_lt_of_le howner with rfl | hlt
      · simp
      · simp [isParameter_eq_false_of_ownerDepth_lt hlt hle]
    rw [hmark, hframe]
    exact ⟨Frame.rebound_bind .., hfetch⟩
  · intro depth h
    exact (assign_of_lt_ownerDepth b h).imp id fun hfetch => hfetch name
  · intro depth other hne
    rcases Nat.lt_or_ge depth (m.ownerDepth name) with h | h
    · exact (assign_of_lt_ownerDepth b h).2 other
    · exact (assign_of_ownerDepth_le b h).2.2 other hne
  · have hactive : (m.assign name b true).frameAt m.outer.length = m.active.bind name true b := by
      apply frameAt_eq_of_drop
      rw [assign_outer_length, Nat.sub_self, assign_parameter_frames]
      rfl
    have hwas : m.frameAt m.outer.length = m.active :=
      frameAt_eq_of_drop (by rw [Nat.sub_self]; rfl)
    rw [hactive, hwas]
    exact Frame.rebound_bind ..
  · intro depth h
    obtain ⟨n, hn⟩ : ∃ n, m.outer.length - depth = n + 1 := ⟨m.outer.length - depth - 1, by omega⟩
    have hdrop : (m.assign name b true).frames.drop ((m.assign name b true).outer.length - depth) =
        m.frames.drop (m.outer.length - depth) := by
      rw [assign_outer_length, assign_parameter_frames, hn]
      rfl
    exact frameAt_eq_of_drop (hdrop.trans (drop_frames m depth))

end Machine

end BlockMachine
