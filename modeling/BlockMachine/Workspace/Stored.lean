import BlockMachine.Block.StoredId
import BlockMachine.Json
import BlockMachine.Json.Text
import BlockMachine.Workspace

/-!
# Stored workspaces

Hosts keep workspaces as plain JSON records: a stack is its name, its blocks and its inputs, and a
block is the number of its kind beside its written form. The number is for the host's information
only; reading goes by the written form.

* `StoredBlock`, `StoredStack`, `StoredColumn` — the records;
* `Workspace.stored`, `StoredStack.restore` — storing and restoring a workspace;
* `Workspace.pretty`, `Workspace.ofJson` — the same as JSON text.
-/

namespace BlockMachine

/-- A stored block. -/
structure StoredBlock where
  typeId : Int
  data : String
deriving Repr, DecidableEq

/-- A stored stack. -/
structure StoredStack where
  name : String
  blocks : List StoredBlock
  inputs : List String
deriving Repr, DecidableEq

/-- A stored column of input values. -/
structure StoredColumn where
  name : String
  blocks : List StoredBlock
deriving Repr, DecidableEq

namespace StoredBlock

/-- The record of a block. -/
def ofBlock (h : Heap) (b : Block) : StoredBlock :=
  ⟨b.kind.storedId, h.written b⟩

/-- The record of a token, in the form in which the grammar writes it. -/
def ofToken (g : Grammar) (l : Localizer) (text : String) (st : Store) : StoredBlock × Store :=
  let (b, st) := (g.literal text).make l st
  (ofBlock st.heap b, st)

/-- The record as JSON. -/
def layout (b : StoredBlock) : Json.Layout :=
  .record [("type", .text (Decimal.intText b.typeId)), ("data", .text (Json.quoted b.data))]

/-- Reads a record; both fields are required. -/
def ofSyntax? (tree : Json.Syntax) : Option StoredBlock := do
  let fields ← tree.fields? ["type", "data"]
  let typeId ← (← fields.lookup "type").int32?
  let data ← (← fields.lookup "data").string?
  return ⟨typeId, data⟩

end StoredBlock

namespace StoredStack

/-- The record of a stack. -/
def ofStack (h : Heap) (s : Stack) : StoredStack :=
  ⟨s.name, s.blocks.map (StoredBlock.ofBlock h), s.inputs⟩

/-- The record as JSON. -/
def layout (s : StoredStack) : Json.Layout :=
  .record
    [("name", .text (Json.quoted s.name)), ("blocks", .list (s.blocks.map StoredBlock.layout)),
      ("inputs", .list (s.inputs.map fun name => .text (Json.quoted name)))]

/-- The value of a field that may be left out. -/
def optional {α : Type} (fields : List (String × Json.Syntax)) (name : String)
    (read : Json.Syntax → Option (List α)) : Option (List α) :=
  match fields.lookup name with
  | some tree => read tree
  | none => some []

/-- Reads a record; only the name is required. -/
def ofSyntax? (tree : Json.Syntax) : Option StoredStack := do
  let fields ← tree.fields? ["name", "blocks", "inputs"]
  let name ← (← fields.lookup "name").string?
  let blocks ← optional fields "blocks" (Json.Syntax.list? StoredBlock.ofSyntax?)
  let inputs ← optional fields "inputs" (Json.Syntax.list? Json.Syntax.string?)
  return ⟨name, blocks, inputs⟩

/-- The record that a workspace text would hold for this stack. -/
def toRecord (g : Grammar) (s : StoredStack) : Record :=
  ⟨s.name, s.inputs, s.blocks.map fun b => g.literal b.data⟩

/-- Rebuilds a workspace from stored stacks. -/
def restore (g : Grammar) (l : Localizer) (stored : List StoredStack) (st : Store) :
    Workspace × Store :=
  Workspace.ofRecords l (stored.map (toRecord g)) st

end StoredStack

namespace Workspace

/-- The stored form of a workspace. -/
def stored (ws : Workspace) (h : Heap) : List StoredStack :=
  ws.locs.map fun loc => StoredStack.ofStack h (h.get loc)

/-- The stored form of a workspace text; a malformed text has no stacks. -/
def storedText (g : Grammar) (l : Localizer) (text : String) (st : Store) :
    List StoredStack × Store :=
  match parse g l text st with
  | .ok (ws, st) => (ws.stored st.heap, st)
  | .error _ => ([], st)

/-- The stored form as indented JSON text. -/
def pretty (ws : Workspace) (h : Heap) : String :=
  (Json.Layout.list ((ws.stored h).map StoredStack.layout)).pretty

/-- Rebuilds a workspace from JSON text. -/
def ofJson (g : Grammar) (l : Localizer) (text : String) (st : Store) :
    Except Error (Workspace × Store) :=
  match (Json.Syntax.read? text).bind (Json.Syntax.list? StoredStack.ofSyntax?) with
  | some stored => .ok (StoredStack.restore g l stored st)
  | none => .error .malformedJson

end Workspace

namespace StoredColumn

/-- The stored form of columns. -/
def ofColumns (l : Localizer) : List Column → Store → List StoredColumn × Store
  | [], st => ([], st)
  | c :: cs, st =>
    let (blocks, st) := Literal.makeAll l c.body st
    let (rest, st) := ofColumns l cs st
    (⟨c.name, blocks.map (StoredBlock.ofBlock st.heap)⟩ :: rest, st)

/-- The stored form of an input definition. -/
def ofText (g : Grammar) (l : Localizer) (text : String) (st : Store) :
    Except Error (List StoredColumn × Store) :=
  match g.columns? text with
  | some columns => .ok (ofColumns l columns st)
  | none => .error .inputText

end StoredColumn

end BlockMachine
