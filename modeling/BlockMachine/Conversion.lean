import BlockMachine.Json
import BlockMachine.Workspace

/-!
# JSON values as blocks

An array becomes a data block, an object a data block with one stack of a single block per member,
named for its key. Reading back takes a signature, since a data block alone does not say whether it
is a list or a record.

* `Json.toBlock` — the block of a value;
* `Signature` — the expected shape of a value;
* `Signature.read` — the value of a block; a stack that contains itself has none.
-/

namespace BlockMachine

/-! ## From values to blocks -/

namespace Json

mutual

/-- The block of a value; an array or object becomes a stack called `name`. -/
def toBlock (name : String) : Json → Store → Block × Store
  | .null, st => st.null
  | .bool b, st => (.boolean b, st)
  | .number n, st => (.ofFloat n.toFloat, st)
  | .string s, st => (.string s, st)
  | .array items, st =>
    let (blocks, st) := itemBlocks name 1 items st
    st.data name blocks
  | .object members, st =>
    let (blocks, st) := memberBlocks members st
    st.data name blocks

/-- The blocks of items; stacks among them are called by the array's name and their place. -/
def itemBlocks (name : String) : Nat → List Json → Store → List Block × Store
  | _, [], st => ([], st)
  | place, item :: items, st =>
    let (b, st) := toBlock (name ++ Decimal.natText place) item st
    let (bs, st) := itemBlocks name (place + 1) items st
    (b :: bs, st)

/-- The blocks of members: each is a stack with the key as its name and the value in it. -/
def memberBlocks : List (String × Json) → Store → List Block × Store
  | [], st => ([], st)
  | (key, value) :: members, st =>
    let (b, st) := toBlock (key ++ "Value") value st
    let (m, st) := st.data key [b]
    let (bs, st) := memberBlocks members st
    (m :: bs, st)

end

end Json

/-! ## From blocks to values -/

/-- The expected shape of a value. -/
inductive Signature where
  | number
  | string
  | boolean
  | arrayOf (element : Signature)
  /-- Members by name. -/
  | object (fields : List (String × Signature))
  /-- The first that fits. -/
  | oneOf (options : List Signature)
deriving Repr, Inhabited

namespace Signature

mutual

/-- The text of a signature. -/
def text : Signature → String
  | .number => "number"
  | .string => "string"
  | .boolean => "boolean"
  | .arrayOf element => "[" ++ element.text ++ "]"
  | .object fields => "\x7b" ++ ", ".intercalate (fieldTexts fields) ++ "\x7d"
  | .oneOf options => " | ".intercalate (optionTexts options)

/-- The texts of members. -/
def fieldTexts : List (String × Signature) → List String
  | [] => []
  | (name, s) :: rest => (name ++ ": " ++ s.text) :: fieldTexts rest

/-- The texts of options. -/
def optionTexts : List Signature → List String
  | [] => []
  | s :: rest => s.text :: optionTexts rest

end

/-- What is wrong with a block that does not have the shape of a signature. -/
def mismatch (h : Heap) (b : Block) (s : Signature) : Error :=
  .conversion ("value " ++ h.written b ++ " is not assignable to type " ++ s.text)

/-- The stack of a data block after resolving it. -/
def stackOf? (ws : Workspace) (h : Heap) (b : Block) : Option Loc :=
  (ws.resolve h b).stack?

/-- The first stack of a name among the data blocks of a list. -/
def member? (ws : Workspace) (h : Heap) (blocks : List Block) (name : String) : Option Loc :=
  blocks.findSome? fun b =>
    match b with
    | .data .. => (stackOf? ws h b).filter fun loc => h.nameOf loc == name
    | _ => none

/-- The stack of a data block, unless it is on the path of stacks that are being read. -/
def enter (ws : Workspace) (h : Heap) (path : List Loc) (b : Block) (s : Signature) :
    Except Error Loc :=
  match stackOf? ws h b with
  | some loc =>
    if path.contains loc then
      .error (.conversion
        ("data block @" ++ h.nameOf loc ++ " refers to itself and has no JSON form"))
    else .ok loc
  | none => .error (mismatch h b s)

mutual

/-- The value of a block with the shape of a signature; `path` holds the stacks that are being
read. -/
def readAt (ws : Workspace) (h : Heap) : Signature → List Loc → Block → Except Error Json
  | .number, _, b =>
    match b with
    | .number r _ =>
      if r.value.isFinite then .ok (.number (.float r.value)) else .error (mismatch h b .number)
    | _ => .error (mismatch h b .number)
  | .boolean, _, b =>
    match b with
    | .boolean v => .ok (.bool v)
    | _ => .error (mismatch h b .boolean)
  | .string, _, b =>
    match b with
    | .string s => .ok (.string s)
    | _ => .error (mismatch h b .string)
  | .oneOf options, path, b =>
    match readOptions ws h options path b with
    | some v => .ok v
    | none => .error (mismatch h b (.oneOf options))
  | .arrayOf element, path, b =>
    match b with
    | .data .. => do
      let loc ← enter ws h path b (.arrayOf element)
      let items ← (h.blocks loc).mapM fun c => readAt ws h element (loc :: path) c
      return .array items
    | _ => .error (mismatch h b (.arrayOf element))
  | .object fields, path, b =>
    match b with
    | .null _ => .ok .null
    | .data .. => do
      let loc ← enter ws h path b (.object fields)
      let members ← readFields ws h loc fields (loc :: path) []
      return .object members
    | _ => .error (mismatch h b (.object fields))

/-- The value by the first signature that fits. -/
def readOptions (ws : Workspace) (h : Heap) : List Signature → List Loc → Block → Option Json
  | [], _, _ => none
  | s :: rest, path, b =>
    match readAt ws h s path b with
    | .ok v => some v
    | .error _ => readOptions ws h rest path b

/-- The members of the stack at `loc`, each of which holds exactly one block. -/
def readFields (ws : Workspace) (h : Heap) (loc : Loc) :
    List (String × Signature) → List Loc → List (String × Json) →
      Except Error (List (String × Json))
  | [], _, found => .ok found
  | (name, s) :: rest, path, found =>
    match member? ws h (h.blocks loc) name with
    | none =>
      .error (.conversion
        ("data block @" ++ h.nameOf loc ++ " is missing property " ++ name))
    | some m =>
      match h.blocks m with
      | [value] => do
        let v ← readAt ws h s path value
        readFields ws h loc rest path (Keyed.insert name v found)
      | _ => .error (.conversion ("property " ++ name ++ " must contain exactly one value"))

end

/-- The value of a block. -/
def read (ws : Workspace) (h : Heap) (s : Signature) (b : Block) : Except Error Json :=
  readAt ws h s [] b

end Signature

end BlockMachine
