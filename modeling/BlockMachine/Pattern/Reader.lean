import BlockMachine.Pattern

/-!
# Reading patterns

Modules give the patterns of their kinds as text. `Pattern.read` reads the usual notation for
regular expressions: characters, escapes, classes, alternatives, groups and repetitions. A group
may hold its pattern together or capture what it matches; the reader counts the latter.
-/

namespace BlockMachine.Pattern

/-- Why a pattern is refused. -/
inductive Fault where
  /-- The text is no pattern. -/
  | malformed
deriving Repr, DecidableEq

/-- A pattern as it was read, with the number of its capturing groups. -/
structure Reading where
  pattern : Pattern
  captures : Nat
  rest : List Char

/-- The character behind a backslash, outside of classes. -/
def escapedItem (c : Char) : ClassItem :=
  if c = 'n' then .char '\n'
  else if c = 't' then .char '\t'
  else if c = 's' then .blank
  else .char c

/-- A class item as a pattern of its own. -/
def ofItem : ClassItem → Pattern
  | .char c => .char c
  | item => .oneIn false [item]

/-- One end of a class range. -/
def readClassItem : List Char → Option (ClassItem × List Char)
  | '\\' :: c :: rest => some (escapedItem c, rest)
  | c :: rest => if c = '\\' then none else some (.char c, rest)
  | [] => none

/-- The items of a class up to its closing bracket. -/
def readClass : Nat → List Char → Option (List ClassItem × List Char)
  | 0, _ => none
  | fuel + 1, s =>
    match s with
    | ']' :: rest => some ([], rest)
    | _ => do
      let (item, rest) ← readClassItem s
      match item, rest with
      | .char lo, '-' :: c :: more =>
        if c = ']' then
          let (items, rest) ← readClass fuel rest
          return (item :: items, rest)
        else
          let (hi, rest) ← readClassItem (c :: more)
          match hi with
          | .char hi =>
            let (items, rest) ← readClass fuel rest
            return (.range lo hi :: items, rest)
          | _ => none
      | _, _ =>
        let (items, rest) ← readClass fuel rest
        return (item :: items, rest)

/-- Repetition marks behind a pattern. -/
def readMarks : Nat → Pattern → List Char → Pattern × List Char
  | 0, p, s => (p, s)
  | fuel + 1, p, s =>
    match s with
    | '*' :: '?' :: rest => readMarks fuel (.lazyStar p) rest
    | '*' :: rest => readMarks fuel (.star p) rest
    | '+' :: rest => readMarks fuel (.plus p) rest
    | '?' :: rest => readMarks fuel (.optional p) rest
    | _ => (p, s)

/-- Reads alternatives up to a closing parenthesis or the end: `done` are the alternatives that are
complete, `current` is the sequence being read. -/
def readAlternatives : Nat → (done current : List Pattern) → Nat → List Char → Option Reading
  | 0, _, _, _, _ => none
  | fuel + 1, done, current, captures, s =>
    let finish := fun rest =>
      some ⟨oneOf (done ++ [sequence current]), captures, rest⟩
    let proceed := fun (p : Pattern) (captures : Nat) (rest : List Char) =>
      let (p, rest) := readMarks rest.length p rest
      readAlternatives fuel done (current ++ [p]) captures rest
    match s with
    | [] => finish []
    | ')' :: rest => finish (')' :: rest)
    | '|' :: rest => readAlternatives fuel (done ++ [sequence current]) [] captures rest
    | '(' :: rest =>
      let (capturing, body) := match rest with
        | '?' :: ':' :: body => (0, body)
        | body => (1, body)
      match readAlternatives fuel [] [] (captures + capturing) body with
      | some ⟨p, captures, ')' :: rest⟩ => proceed (.group p) captures rest
      | _ => none
    | '[' :: rest =>
      let (negated, body) := match rest with
        | '^' :: body => (true, body)
        | body => (false, body)
      match readClass (body.length + 1) body with
      | some (items, rest) => proceed (.oneIn negated items) captures rest
      | none => none
    | '\\' :: c :: rest => proceed (ofItem (escapedItem c)) captures rest
    | '.' :: rest => proceed .any captures rest
    | c :: rest =>
      if c ∈ ['*', '+', '?', '\\'] then none else proceed (.char c) captures rest

/-- Reads a pattern and counts its capturing groups. -/
def read (text : String) : Except Fault (Pattern × Nat) :=
  match readAlternatives (2 * text.length + 2) [] [] 0 text.toList with
  | some ⟨p, captures, []⟩ => .ok (p, captures)
  | _ => .error .malformed

end BlockMachine.Pattern
