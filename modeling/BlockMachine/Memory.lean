import BlockMachine.Block.Equality
import BlockMachine.Environment
import BlockMachine.Json
import BlockMachine.Json.Text

/-!
# Object memory

Objects with state variables. Each object also has defaults, which are written blocks; only these
are saved, and loading or reloading sets the variables to them. Data blocks and functions are not
taken as variables or defaults.

* `ObjectState`, `Memory` — objects by id;
* `Memory.setVariable`, `Memory.variableOf` — writing and reading a variable;
* `Memory.setDefault`, `Memory.setDefaults`, `Memory.defaultOf` — the same for defaults;
* `Memory.reload`, `Memory.rename` — variables from defaults, and a new id for an object;
* `Memory.written`, `Memory.read` — the saved form.
-/

namespace BlockMachine

/-- The variables and the written defaults of an object. -/
structure ObjectState where
  values : Keyed Block
  defaults : Keyed String
deriving Repr

/-- The objects by id. -/
abbrev Memory := Keyed ObjectState

/-- Whether a block can be a state variable. -/
def Block.isStorable : Block → Bool
  | .data .. => false
  | .code .. => false
  | _ => true

namespace ObjectState

/-- An object without variables and defaults. -/
def empty : ObjectState :=
  ⟨[], []⟩

end ObjectState

namespace Memory

open Text (slot)

/-- The object of an id, empty if there is none. -/
def object (mem : Memory) (id : String) : ObjectState :=
  (mem.find? id).getD ObjectState.empty

/-- Makes sure that an object exists. -/
def create (mem : Memory) (id : String) : Memory :=
  Keyed.insert id (mem.object id) mem

/-- Changes an object, which is made if it does not exist. -/
def update (mem : Memory) (id : String) (f : ObjectState → ObjectState) : Memory :=
  Keyed.insert id (f (mem.object id)) mem

/-! ## Variables -/

/-- Sets a variable, or deletes it. The answer also says whether a new value came in. -/
def setVariable (h : Heap) (mem : Memory) (id name : String) (value : Option Block) :
    Except Error (Memory × Bool) :=
  match value with
  | none =>
    .ok (mem.update id fun o => { o with values := Keyed.erase name o.values }, false)
  | some b =>
    if !b.isStorable then .error (.unsupportedState name)
    else
      let changed := ((mem.object id).values.find? name).all fun old => !h.equals b old
      .ok (mem.update id fun o => { o with values := Keyed.insert name b o.values }, changed)

/-- The value of a variable, or an error. -/
def variableOf (l : Localizer) (mem : Memory) (id name : String) : Block :=
  match (mem.object id).values.find? name with
  | some b => b
  | none =>
    .error (l.lookup "Errors.getStateVariable"
      ("Could not find variable " ++ slot "name" ++ " of object " ++ slot "objectId" ++ ".")
      [("name", l.word ("StateVariableNames." ++ name) name), ("objectId", id)])

/-! ## Defaults -/

/-- Sets a default, or deletes it. -/
def setDefault (h : Heap) (mem : Memory) (id name : String) (value : Option Block) :
    Except Error Memory :=
  match value with
  | none => .ok (mem.update id fun o => { o with defaults := Keyed.erase name o.defaults })
  | some b =>
    if !b.isStorable then .error (.unsupportedState name)
    else
      .ok (mem.update id fun o => { o with defaults := Keyed.insert name (h.written b) o.defaults })

/-- Sets defaults one after the other up to the first that is refused; what was set before it
stays. -/
def setEach (h : Heap) (id : String) : List (String × Block) → Memory → Memory × Option Error
  | [], mem => (mem, none)
  | (name, b) :: rest, mem =>
    match mem.setDefault h id name (some b) with
    | .ok mem => setEach h id rest mem
    | .error e => (mem, some e)

/-- Drops the variables of an object, then sets defaults in order. -/
def setDefaults (h : Heap) (mem : Memory) (id : String) (values : List (String × Block)) :
    Memory × Option Error :=
  setEach h id values (mem.update id fun o => { o with values := [] })

/-- The block of a default, or an error. -/
def defaultOf (env : Environment) (mem : Memory) (id name : String) (st : Store) : Block × Store :=
  match (mem.object id).defaults.find? name with
  | some text => env.block text st
  | none =>
    (.error (env.localizer.lookup "Errors.getStateDefault"
      ("Could not find default " ++ slot "name" ++ " of object " ++ slot "objectId")
      [("name", name), ("objectId", id)]), st)

/-- The blocks of defaults. -/
def defaultBlocks (env : Environment) : Keyed String → Store → Keyed Block × Store
  | [], st => ([], st)
  | (name, text) :: rest, st =>
    let (b, st) := env.block text st
    let (bs, st) := defaultBlocks env rest st
    ((name, b) :: bs, st)

/-- Sets the variables of every object to its defaults. -/
def reload (env : Environment) : Memory → Store → Memory × Store
  | [], st => ([], st)
  | (id, o) :: rest, st =>
    let (values, st) := defaultBlocks env o.defaults st
    let (rest, st) := reload env rest st
    ((id, { o with values }) :: rest, st)

/-! ## Renaming -/

/-- A default that refers to the object `old`, for `new`. -/
def renameText (env : Environment) (old new text : String) : String :=
  match env.grammar.literal text with
  | .memory id => if id = old then "Object[" ++ new ++ "]" else text
  | _ => text

/-- A block that refers to the object `old`, for `new`. -/
def renameBlock (old new : String) : Block → Block
  | .memory id => .memory (if id = old then new else id)
  | b => b

/-- Moves an object to a new id, in place of an object that has it, and lets all references
follow. -/
def rename (env : Environment) (old new : String) (mem : Memory) : Memory :=
  let moved := Keyed.insert new (mem.object old) (Keyed.erase old mem)
  moved.map fun (id, o) =>
    (id,
      ⟨o.values.map fun (name, b) => (name, renameBlock old new b),
        o.defaults.map fun (name, text) => (name, renameText env old new text)⟩)

/-! ## The saved form -/

/-- The saved form of an object: its defaults. -/
def writtenObject (o : ObjectState) : String :=
  Json.compactObject
    [("defaults", Json.compactObject (o.defaults.map fun (name, text) => (name, Json.quoted text)))]

/-- The saved form: an object from ids to the saved forms of the objects, as texts. -/
def written (mem : Memory) : String :=
  Json.compactObject (mem.map fun (id, o) => (id, Json.quoted (writtenObject o)))

/-- The defaults in the saved form of an object. -/
def readDefaults? (text : String) : Option (Keyed String) := do
  let tree ← Json.Syntax.read? text
  let fields ← tree.fields? ["defaults"]
  match fields.lookup "defaults" with
  | some defaults => defaults.stringMap?
  | none => return []

/-- Objects without variables from the saved form. -/
def readObjects? (text : String) : Option Memory := do
  let tree ← Json.Syntax.read? text
  let objects ← tree.stringMap?
  objects.mapM fun (id, saved) => (readDefaults? saved).map fun defaults => (id, ⟨[], defaults⟩)

/-- Memory from its saved form; a text that is none gives an empty memory. -/
def read (env : Environment) (text : String) (st : Store) : Memory × Store :=
  reload env ((readObjects? text).getD []) st

end Memory

end BlockMachine
