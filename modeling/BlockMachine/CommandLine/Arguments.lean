import BlockMachine.Decimal.Reading

/-!
# Command-line arguments

Options are written `--name value` or `--name=value`, flags `--name` or by one letter, several of
which may share a dash. What is no option is the name of a file, and behind `--` everything is. An
option that is given twice is misused, as is one that is not known or lacks its value.

* `Setting`, `Flag` — the options with a value, and those without;
* `Arguments` — what was given;
* `Arguments.parse` — reading the arguments from left to right.
-/

namespace BlockMachine.CommandLine

/-- An option that takes a value. -/
inductive Setting where
  /-- The stack to run. -/
  | stack
  /-- The input definition, or a file with it behind an at sign. -/
  | inputs
  /-- The file with the object memory. -/
  | state
  /-- The step limit. -/
  | maxSteps
  /-- The seed of the dice. -/
  | seed
deriving Repr, DecidableEq

/-- An option without a value. -/
inductive Flag where
  /-- Trace every step. -/
  | verbose
  /-- Read lines of blocks. -/
  | repl
  /-- Write the workspace as JSON and run nothing. -/
  | json
deriving Repr, DecidableEq

/-- Why the arguments are not carried out. -/
inductive Stop where
  /-- Help is asked for. -/
  | help
  /-- The version is asked for. -/
  | version
  /-- The arguments are malformed. -/
  | misuse
deriving Repr, DecidableEq

/-- A whole number below `2^64`, perhaps behind a plus sign. -/
def word? (text : String) : Option Nat :=
  let digits := match text.toList with
    | '+' :: digits => digits
    | digits => digits
  let n := Decimal.natOfDigits digits
  if digits.isEmpty || !digits.all Decimal.isDigit || 0x10000000000000000 ≤ n then none else some n

namespace Setting

/-- The setting of a name. -/
def ofName? : String → Option Setting
  | "stack" => some .stack
  | "inputs" => some .inputs
  | "state" => some .state
  | "max-steps" => some .maxSteps
  | "seed" => some .seed
  | _ => none

/-- Whether a setting takes a value. -/
def accepts (s : Setting) (value : String) : Bool :=
  match s with
  | .maxSteps => (word? value).isSome
  | .seed => (word? value).isSome
  | _ => true

end Setting

namespace Flag

/-- The flag of a name. -/
def ofName? : String → Option Flag
  | "verbose" => some .verbose
  | "repl" => some .repl
  | "json" => some .json
  | _ => none

end Flag

/-- What was given, the latest setting and flag first, and the files in order. -/
structure Arguments where
  files : List String
  settings : List (Setting × String)
  flags : List Flag
deriving Repr, DecidableEq

namespace Arguments

/-- Nothing. -/
def empty : Arguments :=
  ⟨[], [], []⟩

/-- The value of a setting. -/
def value? (a : Arguments) (s : Setting) : Option String :=
  a.settings.lookup s

/-- Whether a flag was given. -/
def has (a : Arguments) (f : Flag) : Bool :=
  a.flags.contains f

/-- Notes a setting. -/
def give (s : Setting) (value : String) (a : Arguments) : Except Stop Arguments :=
  if (a.value? s).isSome || !s.accepts value then .error .misuse
  else .ok { a with settings := (s, value) :: a.settings }

/-- Notes a flag. -/
def raise (f : Flag) (a : Arguments) : Except Stop Arguments :=
  if a.has f then .error .misuse else .ok { a with flags := f :: a.flags }

/-- Notes files. -/
def addFiles (names : List String) (a : Arguments) : Arguments :=
  { a with files := a.files ++ names }

/-- Notes the flag of a name. -/
def raiseNamed (name : String) (a : Arguments) : Except Stop Arguments :=
  match Flag.ofName? name, name with
  | some f, _ => a.raise f
  | none, "help" => .error .help
  | none, "version" => .error .version
  | none, _ => .error .misuse

/-- Notes the flags of letters. -/
def raiseLetters : List Char → Arguments → Except Stop Arguments
  | [], a => .ok a
  | 'v' :: rest, a => do raiseLetters rest (← a.raise .verbose)
  | 'h' :: _, _ => .error .help
  | 'V' :: _, _ => .error .version
  | _ :: _, _ => .error .misuse

end Arguments

/-- The shape of an argument. -/
inductive Shape where
  /-- `--name`, or `--name=value`. -/
  | long (name : String) (value : Option String)
  /-- Letters behind a dash. -/
  | short (letters : List Char)
  | plain

/-- The shape of an argument. A dash alone is no option. -/
def shapeOf (arg : String) : Shape :=
  match arg.toList with
  | '-' :: '-' :: rest =>
    let name := String.ofList (rest.takeWhile (· != '='))
    match rest.dropWhile (· != '=') with
    | [] => .long name none
    | _ :: value => .long name (some (String.ofList value))
  | '-' :: c :: rest => .short (c :: rest)
  | _ => .plain

/-- Whether an argument can be the value of the option before it. -/
def isPlain (arg : String) : Bool :=
  match shapeOf arg with
  | .plain => true
  | _ => false

/-- Reads arguments behind those of `a`. -/
def Arguments.parseFrom (a : Arguments) : List String → Except Stop Arguments
  | [] => .ok a
  | arg :: rest =>
    if arg = "--" then .ok (a.addFiles rest)
    else
      match shapeOf arg with
      | .plain => (a.addFiles [arg]).parseFrom rest
      | .short letters => do (← a.raiseLetters letters).parseFrom rest
      | .long name value =>
        match Setting.ofName? name, value, rest with
        | some s, some v, rest => do (← a.give s v).parseFrom rest
        | some s, none, v :: rest =>
          if isPlain v then do (← a.give s v).parseFrom rest else .error .misuse
        | some _, none, [] => .error .misuse
        | none, none, rest => do (← a.raiseNamed name).parseFrom rest
        | none, some _, _ => .error .misuse

/-- Reads arguments. -/
def Arguments.parse (args : List String) : Except Stop Arguments :=
  Arguments.empty.parseFrom args

end BlockMachine.CommandLine
