import BlockMachine.Grammar

/-!
# Records

A workspace is written as records `@name ( inputs ) { tokens }`, where the inputs may be left out,
and an input definition as records `#name { tokens }`. A text is refused as a whole unless it
consists of records only; then its records are found one after the other from the left.

* `Record`, `Column` — what the two kinds of records say;
* `Grammar.records?`, `Grammar.columns?` — reading a text.
-/

namespace BlockMachine

/-- A stack as it is written. -/
structure Record where
  name : String
  inputs : List String
  body : List Literal
deriving Repr

/-- A named column of input values as it is written. -/
structure Column where
  name : String
  body : List Literal
deriving Repr

namespace Grammar

/-! ## Patterns -/

/-- A name: no blanks and no braces. -/
def recordName : Pattern :=
  .plus (.oneIn true [.blank, .char '\x7b', .char '\x7d'])

/-- Blanks, or none. -/
def blanks : Pattern :=
  .star .blank

/-- Names, each with blanks behind it. -/
def inputList : Pattern :=
  .star (.group (.seq recordName (.plus .blank)))

/-- Tokens in braces. -/
def body (g : Grammar) : Pattern :=
  .sequence [.char '\x7b', .plus .blank, g.tokenList, .char '\x7d']

/-- The inputs of a stack in parentheses. -/
def inputGroup : Pattern :=
  .sequence [.char '(', blanks, inputList, .char ')', blanks]

/-- The record of a stack. -/
def stackRecord (g : Grammar) : Pattern :=
  .sequence [.char '@', recordName, blanks, .optional (.group inputGroup), g.body]

/-- Records of stacks, with blanks between and behind them. -/
def workspaceText (g : Grammar) : Pattern :=
  .seq (.star (.group (.seq g.stackRecord blanks))) blanks

/-- The record of an input column. -/
def inputRecord (g : Grammar) : Pattern :=
  .sequence [.char '#', recordName, blanks, g.body, blanks]

/-- Records of input columns. -/
def inputText (g : Grammar) : Pattern :=
  .seq (.star (.group g.inputRecord)) blanks

/-! ## Finding records -/

/-- Tries the lengths of a pattern in order: `next` gets what was matched and what follows. -/
def splitting {α : Type} (p : Pattern) (s : List Char)
    (next : (front rest : List Char) → Option α) : Option α :=
  (p.lengths s).findSome? fun n => next (s.take n) (s.drop n)

/-- The names in a list of inputs. -/
def inputNames (s : List Char) : List String :=
  ((s.splitOnP Text.isBlank).filter fun name => !name.isEmpty).map String.ofList

/-- The contents of a body in braces. -/
def bodyLiterals (g : Grammar) (s : List Char) : List Literal :=
  g.literals (Literal.between 1 1 s)

/-- The body at the front of a text. -/
def bodyAt? (g : Grammar) (s : List Char) : Option (List Char × List Char) :=
  splitting g.body s fun b rest => some (b, rest)

/-- The inputs and the body of a stack; inputs in parentheses are preferred to none. -/
def inputsAndBody? (g : Grammar) (s : List Char) : Option (List Char × List Char × List Char) :=
  let withInputs :=
    splitting (.seq (.char '(') blanks) s fun _ s =>
    splitting inputList s fun inputs s =>
    splitting (.seq (.char ')') blanks) s fun _ s =>
    (g.bodyAt? s).map fun (b, rest) => (inputs, b, rest)
  withInputs.or ((g.bodyAt? s).map fun (b, rest) => ([], b, rest))

/-- The record of a stack at the front of a text, and what follows it. -/
def stackRecordAt? (g : Grammar) (s : List Char) : Option (Record × List Char) :=
  splitting (.char '@') s fun _ s =>
  splitting recordName s fun name s =>
  splitting blanks s fun _ s =>
  (g.inputsAndBody? s).map fun (inputs, b, rest) =>
    (⟨Text.unescape (String.ofList name), inputNames inputs, g.bodyLiterals b⟩, rest)

/-- The record of an input column at the front of a text, and what follows it. -/
def inputRecordAt? (g : Grammar) (s : List Char) : Option (Column × List Char) :=
  splitting (.char '#') s fun _ s =>
  splitting recordName s fun name s =>
  splitting blanks s fun _ s =>
  splitting g.body s fun b s =>
  splitting blanks s fun _ rest => some (⟨String.ofList name, g.bodyLiterals b⟩, rest)

/-- What `find` finds in a text, one after the other from the left. -/
def findAll {α : Type} (find : List Char → Option (α × List Char)) : Nat → List Char → List α
  | 0, _ => []
  | _, [] => []
  | fuel + 1, c :: rest =>
    match find (c :: rest) with
    | some (x, after) => x :: findAll find fuel after
    | none => findAll find fuel rest

/-- The stacks that a workspace text writes. -/
def records? (g : Grammar) (text : String) : Option (List Record) :=
  let s := text.toList
  if g.workspaceText.matchesAll s then some (findAll g.stackRecordAt? (s.length + 1) s) else none

/-- The columns that an input definition writes. -/
def columns? (g : Grammar) (text : String) : Option (List Column) :=
  let s := text.toList
  if g.inputText.matchesAll s then some (findAll g.inputRecordAt? (s.length + 1) s) else none

/-- The contents of a list of tokens, for texts that are one. -/
def blockList? (g : Grammar) (text : String) : Option (List Literal) :=
  if g.isBlockList text.toList then some (g.literals text.toList) else none

end Grammar

end BlockMachine
