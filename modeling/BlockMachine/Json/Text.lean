import BlockMachine.Decimal.Layout
import BlockMachine.Text.Escape

/-!
# Writing JSON text

* `Json.quoted` — a string;
* `Json.compactObject` — an object of strings on one line;
* `Json.Layout`, `Json.Layout.pretty` — records and lists on indented lines.
-/

namespace BlockMachine.Json

/-- A character of a string. Quotes, backslashes and control characters are escaped, the usual ones
by a letter. -/
def escapedChar (c : Char) : List Char :=
  if c = '\x22' then ['\\', '\x22']
  else if c = '\\' then ['\\', '\\']
  else if c = '\n' then ['\\', 'n']
  else if c = '\r' then ['\\', 'r']
  else if c = '\t' then ['\\', 't']
  else if c.toNat = 0x08 then ['\\', 'b']
  else if c.toNat = 0x0c then ['\\', 'f']
  else if c.toNat < 0x20 then '\\' :: 'u' :: Text.hexQuad c.toNat
  else [c]

/-- A string in quotes. -/
def quoted (s : String) : String :=
  String.ofList ('\x22' :: s.toList.flatMap escapedChar ++ ['\x22'])

/-- An object with the given keys and written values. -/
def compactObject (members : List (String × String)) : String :=
  "\x7b" ++ ",".intercalate (members.map fun (k, v) => quoted k ++ ":" ++ v) ++ "\x7d"

/-- What an indented text is made of. -/
inductive Layout where
  | text (written : String)
  | list (items : List Layout)
  | record (members : List (String × Layout))

/-- Two spaces for each level. -/
def indent (level : Nat) : String :=
  String.ofList (List.replicate (2 * level) ' ')

/-- Parts in brackets, each on a line of its own; nothing stands between the brackets if there are
none. -/
def enclosed (opening closing : String) (level : Nat) (parts : List String) : String :=
  if parts.isEmpty then opening ++ closing
  else
    let lines := parts.map fun p => indent (level + 1) ++ p
    opening ++ "\n" ++ ",\n".intercalate lines ++ "\n" ++ indent level ++ closing

mutual

/-- The text of a layout that starts at a level. -/
def Layout.render : (level : Nat) → Layout → String
  | _, .text s => s
  | level, .list items => enclosed "[" "]" level (renderItems (level + 1) items)
  | level, .record members => enclosed "\x7b" "\x7d" level (renderMembers (level + 1) members)

/-- The texts of the items of a list. -/
def renderItems : (level : Nat) → List Layout → List String
  | _, [] => []
  | level, item :: items => item.render level :: renderItems level items

/-- The texts of the members of a record. -/
def renderMembers : (level : Nat) → List (String × Layout) → List String
  | _, [] => []
  | level, (key, value) :: members =>
    (quoted key ++ ": " ++ value.render level) :: renderMembers level members

end

/-- The text of a layout on indented lines. -/
def Layout.pretty (d : Layout) : String :=
  d.render 0

end BlockMachine.Json
