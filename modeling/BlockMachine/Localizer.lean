import BlockMachine.Text.Template

/-!
# Localizers

Every text that the machine shows goes through a localizer: it is given the key of the message, the
English template, and the values for the template's slots.

* `Localizer.plain` — fills the template and nothing else; a message without a template is its key;
* `Localizer.listing` — answers with the key and the values themselves, for inspection;
* `Localizer.ofTable` — a table of templates in front of `plain`.
-/

namespace BlockMachine

/-- A source of shown texts. -/
structure Localizer where
  /-- The text for a key, a fallback template and the values of its slots. -/
  lookup : (key fallback : String) → (values : List (String × String)) → String

namespace Localizer

/-- Fills the fallback template. -/
def plain : Localizer where
  lookup key fallback values := Text.fill (if fallback.isEmpty then key else fallback) values

/-- Answers `<key|name=value;name=value>`. -/
def listing : Localizer where
  lookup key _ values :=
    "<" ++ key ++ "|" ++ ";".intercalate (values.map fun p => p.1 ++ "=" ++ p.2) ++ ">"

/-- Looks the key up in a table of templates, and asks `plain` for keys that are not in it. -/
def ofTable (table : List (String × String)) : Localizer where
  lookup key fallback values :=
    match table.find? fun p => p.1 == key with
    | some (_, template) => Text.fill template values
    | none => plain.lookup key fallback values

/-- A message without slots. -/
def word (l : Localizer) (key fallback : String) : String :=
  l.lookup key fallback []

end Localizer

end BlockMachine
