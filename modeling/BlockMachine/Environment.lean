import BlockMachine.Grammar

/-!
# Environments

What every machine of a program shares and none changes: the localizer and the grammar with its
modules.
-/

namespace BlockMachine

/-- The localizer and the grammar. -/
structure Environment where
  localizer : Localizer
  grammar : Grammar

namespace Environment

/-- The built-in grammar and English texts. -/
def standard : Environment :=
  ⟨Localizer.plain, Grammar.core⟩

/-- The block that a text writes. -/
def block (env : Environment) (text : String) (st : Store) : Block × Store :=
  (env.grammar.literal text).make env.localizer st

end Environment

end BlockMachine
