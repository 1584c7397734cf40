import BlockMachine.Machine.Frame

/-!
# Observing a machine

* `Event` — what an observer can hear of;
* `View` — who hears of it: nobody, a recorder, or the view of an isolated call, which counts pushes
  and pops and passes on only assignments and memory writes;
* `View.report` — what the recorder at the end hears of an event.
-/

namespace BlockMachine

/-- Something that happened in a machine. -/
inductive Event where
  | evaluated (b : Block)
  | pushed (b : Block)
  | popped (b : Block)
  /-- A child frame was opened. -/
  | opened (f : Frame)
  /-- A stack was loaded into a frame with nothing left to run. -/
  | spliced (f : Frame)
  /-- A child frame finished. -/
  | closed (f : Frame)
  | assigned (name : String) (b : Block) (parameter : Bool)
  | stored (object name : String) (b : Block)
  | consumed (b consumer : Block)
deriving Repr

/-- The observer of a machine. -/
inductive View where
  | none
  | recorder
  /-- The observer of an isolated call: `depth` is the height of the value stack, `untouched` the
  least it ever was, and `parameters` are the caller's parameters. -/
  | isolated (parent : View) (parameters : List String) (depth untouched : Nat)
deriving Repr

namespace View

/-- After a push. -/
def pushed : View → View
  | .isolated parent parameters depth untouched =>
    .isolated parent parameters (depth + 1) untouched
  | v => v

/-- After a pop. -/
def popped : View → View
  | .isolated parent parameters depth untouched =>
    .isolated parent parameters (depth - 1) (min untouched (depth - 1))
  | v => v

/-- How many of the caller's blocks an isolated call never popped. -/
def untouched : View → Nat
  | .isolated _ _ _ untouched => untouched
  | _ => 0

/-- What the recorder hears of an event, if there is one and it hears of it. Of an isolated call it
hears only of memory writes and of assignments to names that are no parameters there; these carry
the mark that the name has in the caller. -/
def report : View → Event → Option Event
  | .none, _ => Option.none
  | .recorder, e => some e
  | .isolated parent parameters _ _, e =>
    match e with
    | .assigned name b false => parent.report (.assigned name b (parameters.contains name))
    | .stored object name b => parent.report (.stored object name b)
    | _ => Option.none

end View

/-- The text of an event. -/
def Event.text (l : Localizer) (h : Heap) : Event → String
  | .evaluated b => "evaluated " ++ h.written b
  | .pushed b => "pushed " ++ h.written b
  | .popped b => "popped " ++ h.written b
  | .opened f => "pushed_state " ++ f.name ++ " " ++ h.shownFrame l f
  | .spliced f => "tail_recursed " ++ f.name ++ " " ++ h.shownFrame l f
  | .closed f => "popped_state " ++ f.name ++ " " ++ h.shownFrame l f
  | .assigned name b parameter =>
    "variable " ++ name ++ "=" ++ h.written b ++ " " ++ (if parameter then "true" else "false")
  | .stored object name b => "memory " ++ object ++ "." ++ name ++ "=" ++ h.written b
  | .consumed b consumer => "consumed " ++ h.written b ++ " by " ++ h.written consumer

end BlockMachine
