import BlockMachine.Grammar.Record
import BlockMachine.Text.Roman

/-!
# Workspaces

A workspace is a list of stacks with names. Data and code blocks refer to stacks by name until they
are resolved: then they are bound to the first stack of that name, for good.

* `Workspace.find?` — the stack of a name;
* `Workspace.resolve`, `Workspace.link` — binding a block, and all blocks of all stacks;
* `Workspace.parse`, `Workspace.written` — reading and writing a workspace;
* `Workspace.parseBlocks` — reading a list of blocks against a workspace.
-/

namespace BlockMachine

/-- Named stacks in order. -/
structure Workspace where
  /-- Where they are in the heap. -/
  locs : List Loc
  /-- How many stacks were made without a name. -/
  unnamed : Nat
deriving Repr, DecidableEq

namespace Workspace

/-- The workspace without stacks. -/
def empty : Workspace :=
  ⟨[], 0⟩

/-- The first stack of a name. -/
def find? (ws : Workspace) (h : Heap) (name : String) : Option Loc :=
  ws.locs.find? fun loc => h.nameOf loc == name

/-- Adds a stack at the end. A stack of the same name that came earlier keeps being found. -/
def add (ws : Workspace) (loc : Loc) : Workspace :=
  { ws with locs := ws.locs ++ [loc] }

/-- Adds an empty stack; without a name it is called by the next roman numeral. -/
def create (ws : Workspace) (name : Option String) (st : Store) : Loc × Workspace × Store :=
  let (name, ws) := match name with
    | some name => (name, ws)
    | none => (Text.roman (ws.unnamed + 1), { ws with unnamed := ws.unnamed + 1 })
  let (loc, st) := st.alloc (Stack.make name [])
  (loc, ws.add loc, st)

/-! ## Resolving -/

/-- Binds an unresolved data or code block to the first stack of its name, if there is one. -/
def resolve (ws : Workspace) (h : Heap) : Block → Block
  | .data loc false =>
    match ws.find? h (h.nameOf loc) with
    | some found => .data found true
    | none => .data loc false
  | .code name none => .code name (ws.find? h name)
  | b => b

/-- Resolves the blocks of all stacks. -/
def link (ws : Workspace) (h : Heap) : Heap :=
  ws.locs.foldl
    (fun acc loc => acc.modify loc fun s => { s with blocks := s.blocks.map (ws.resolve h) }) h

/-! ## Text -/

/-- Allocates the stacks of records, in order. -/
def allocRecords (l : Localizer) : List Record → Workspace → Store → Workspace × Store
  | [], ws, st => (ws, st)
  | r :: rs, ws, st =>
    let (blocks, st) := Literal.makeAll l r.body st
    let (loc, st) := st.alloc { Stack.make r.name blocks with inputs := r.inputs }
    allocRecords l rs (ws.add loc) st

/-- The workspace of records, with its references bound. A stack may refer to later ones. -/
def ofRecords (l : Localizer) (records : List Record) (st : Store) : Workspace × Store :=
  let (ws, st) := allocRecords l records empty st
  (ws, { st with heap := ws.link st.heap })

/-- Reads a workspace. -/
def parse (g : Grammar) (l : Localizer) (text : String) (st : Store) :
    Except Error (Workspace × Store) :=
  match g.records? text with
  | some records => .ok (ofRecords l records st)
  | none => .error .workspaceText

/-- Reads a list of blocks and resolves them. -/
def parseBlocks (g : Grammar) (l : Localizer) (ws : Workspace) (text : String) (st : Store) :
    Except Error (List Block × Store) :=
  match g.blockList? text with
  | some literals =>
    let (blocks, st) := Literal.makeAll l literals st
    .ok (blocks.map (ws.resolve st.heap), st)
  | none => .error .workspaceText

/-- The inputs of a stack as they are written. -/
def writtenInputs (inputs : List String) : String :=
  if inputs.isEmpty then " "
  else " ( " ++ String.join (inputs.map fun name => name ++ " ") ++ ") "

/-- The record of a stack. -/
def writtenStack (h : Heap) (s : Stack) : String :=
  "@" ++ Text.escape s.name ++ writtenInputs s.inputs ++ "\x7b "
    ++ String.join (s.blocks.map fun b => h.written b ++ " ") ++ "\x7d\n"

/-- The text of a workspace: a record for each stack, on a line of its own. -/
def written (ws : Workspace) (h : Heap) : String :=
  String.join (ws.locs.map fun loc => writtenStack h (h.get loc))

end Workspace

end BlockMachine
