import BlockMachine.CommandLine.Arguments
import BlockMachine.Machine.Host
import BlockMachine.Workspace.Stored

/-!
# The command line

Runs a workspace from files, writes it as JSON, or holds a dialogue in which each line is a list of
blocks. Everything here is a function of the arguments, the contents of files and the lines that
come in; reading and writing them is left to the caller.

* `CommandLine.paths` — the files that may be needed;
* `CommandLine.start` — all that is done before a dialogue;
* `CommandLine.reply` — one line of a dialogue;
* `CommandLine.transcript` — a whole run.
-/

namespace BlockMachine.CommandLine

/-- What a run writes to the standard output and to the standard error, and its exit code. -/
structure Output where
  code : Nat
  out : String
  err : String
deriving Repr, DecidableEq

/-- How a run goes on after its start. -/
inductive Start where
  | done (output : Output)
  /-- A dialogue follows; `out` was written so far. -/
  | dialogue (out : String) (m : Machine)

/-- The contents of files, or why they cannot be read. -/
abbrev Files := String → Except String String

/-- A failure: a line on the standard error. -/
def failure (line : String) : Output :=
  ⟨1, "", line ++ "\n"⟩

/-! ## Help -/

/-- The help. -/
def helpText : String :=
  "Usage: polyscript [OPTIONS] [FILES]...\n\n"
    ++ "Arguments:\n"
    ++ "  [FILES]...  The workspace files to load\n\n"
    ++ "Options:\n"
    ++ "      --stack <STACK>          Stack to evaluate, falls back to the first stack"
    ++ " [default: Poly]\n"
    ++ "      --inputs <INPUTS>        Input records like `#x \x7b 1 2 \x7d` or @FILE\n"
    ++ "      --state <STATE>          Load object memory from a JSON file\n"
    ++ "      --max-steps <MAX_STEPS>  Step limit for one evaluation\n"
    ++ "      --seed <SEED>            Seed for random blocks\n"
    ++ "  -v, --verbose                Trace every step\n"
    ++ "      --repl                   Read block lists from stdin\n"
    ++ "      --json                   Dump the workspace as stack definitions\n"
    ++ "  -h, --help                   Print help\n"
    ++ "  -V, --version                Print version\n"

/-- The name and the version. -/
def versionText : String :=
  "polyscript 0.1.0\n"

/-- What is written instead of a run. -/
def Stop.output : Stop → Output
  | .help => ⟨0, helpText, ""⟩
  | .version => ⟨0, versionText, ""⟩
  | .misuse => ⟨2, "", "error: malformed arguments\n\nFor more information, try '--help'.\n"⟩

/-! ## Files -/

/-- The files that arguments name. -/
def Arguments.paths (a : Arguments) : List String :=
  let inputs := match (a.value? .inputs).map String.toList with
    | some ('@' :: path) => [String.ofList path]
    | _ => []
  a.files ++ (a.value? .state).toList ++ inputs

/-- The files that may be needed. -/
def paths (args : List String) : List String :=
  match Arguments.parse args with
  | .ok a => a.paths
  | .error _ => []

/-- The files one after the other, each one ended by a line break. -/
def readSources (files : Files) : List String → Except Output String
  | [] => .ok ""
  | name :: rest =>
    match files name with
    | .ok content => do
      let more ← readSources files rest
      return content ++ "\n" ++ more
    | .error reason => .error (failure ("Error reading file '" ++ name ++ "': " ++ reason))

/-- The text of an input definition: the argument itself, or the file that it names. -/
def inputText (files : Files) (arg : String) : Except Error String :=
  match arg.toList with
  | '@' :: path =>
    match files (String.ofList path) with
    | .ok content => .ok content
    | .error reason => .error (.unreadableFile reason)
  | _ => .ok arg

/-! ## Running -/

/-- The stack that is run if none is named. -/
def mainStack : String := "Poly"

/-- The place of a block in a listing, of two digits at least. -/
def place (i : Nat) : String :=
  String.ofList (Decimal.padLeft 2 (Decimal.natText i).toList)

/-- Blocks as they are shown, one on a line. -/
def listing (env : Environment) (h : Heap) (blocks : List Block) : String :=
  String.join (blocks.mapIdx fun i b => "[" ++ place i ++ "] " ++ h.shown env.localizer b ++ "\n")

/-- Runs the named stack, or the first one if there is none of that name. Inputs are on the value
stack before the program is loaded, so that it can bind them. -/
def runMain (env : Environment) (files : Files) (a : Arguments) (m : Machine) :
    Except Error (List Block × Machine) := do
  let name := (a.value? .stack).getD mainStack
  match (m.workspace.find? m.heap name).or m.workspace.locs.head? with
  | none => .error (.unknownStack name)
  | some loc =>
    let m := m.reset
    let m ← match a.value? .inputs with
      | some arg => do
        let text ← inputText files arg
        m.loadInputs env text
      | none => pure m
    return Machine.run env (m.insert env (m.heap.get loc))

/-- The machine that arguments ask for, over a workspace. -/
def newMachine (a : Arguments) (ws : Workspace) (world : World) : Machine :=
  let limit := ((a.value? .maxSteps).bind word?).getD Machine.defaultMaxSteps
  Machine.make limit ws world

/-- Loads the object memory that arguments ask for. -/
def loadState (env : Environment) (files : Files) (a : Arguments) (m : Machine) :
    Except Output Machine :=
  match a.value? .state with
  | none => .ok m
  | some name =>
    match files name with
    | .ok text => .ok (m.loadMemory env text)
    | .error reason => .error (failure ("Error reading state '" ++ name ++ "': " ++ reason))

/-! ## The dialogue -/

/-- What a dialogue starts with. -/
def greeting : String :=
  "Polyscript REPL\nType 'exit' to quit.\n"

/-- What is written before each line is read. -/
def prompt : String := "> "

/-- The answer to a line, or nothing if the line ends the dialogue. The result of a line is the
value stack of the next one. -/
def reply (env : Environment) (line : String) (m : Machine) : Option (Output × Machine) :=
  let text := String.ofList (Text.trim line.toList)
  if text = "exit" then none
  else if text.isEmpty then some (⟨0, "", ""⟩, m)
  else
    match m.interpret env text with
    | .ok (result, m) => some (⟨0, listing env m.heap result, ""⟩, m.setValues result)
    | .error e => some (⟨0, "", "Error: " ++ e.message ++ "\n"⟩, m)

/-- A dialogue over the lines that come in. -/
def dialogue (env : Environment) : List String → Machine → Output
  | [], _ => ⟨0, prompt, ""⟩
  | line :: rest, m =>
    match reply env line m with
    | none => ⟨0, prompt, ""⟩
    | some (first, m) =>
      let more := dialogue env rest m
      ⟨0, prompt ++ first.out ++ more.out, first.err ++ more.err⟩

/-! ## Whole runs -/

/-- Runs the files, if there are any, and says whether a dialogue follows. -/
def runFiles (env : Environment) (files : Files) (a : Arguments) (m : Machine) : Start :=
  if a.files.isEmpty then .dialogue greeting m
  else
    match runMain env files a m with
    | .error e => .done (failure ("Error: " ++ e.message))
    | .ok (result, m) =>
      let out := listing env m.heap result
      if a.has .repl then .dialogue (out ++ greeting) m else .done ⟨0, out, ""⟩

/-- Does what arguments ask for, up to a dialogue. -/
def carryOut (env : Environment) (files : Files) (a : Arguments) (seed : UInt64) :
    Except Output Start := do
  let source ← readSources files a.files
  let seed := (((a.value? .seed).bind word?).map UInt64.ofNat).getD seed
  match Workspace.parse env.grammar env.localizer source (Store.ofSeed seed) with
  | .error e => .error (failure ("Error parsing workspace: " ++ e.message))
  | .ok (ws, store) =>
    if a.has .json then return .done ⟨0, ws.pretty store.heap ++ "\n", ""⟩
    else
      let m ← loadState env files a (newMachine a ws ⟨store, [], []⟩)
      return runFiles env files a m

/-- All that is done before a dialogue. The dice start from `seed` unless the arguments have one. -/
def start (env : Environment) (files : Files) (args : List String) (seed : UInt64) : Start :=
  match Arguments.parse args with
  | .error stop => .done stop.output
  | .ok a =>
    match carryOut env files a seed with
    | .ok s => s
    | .error output => .done output

/-- The lines of a text; what follows the last line break is a line unless it is empty. -/
def linesOf (text : String) : List String :=
  let lines := (text.toList.splitOn '\n').map String.ofList
  if lines.getLast? = some "" then lines.dropLast else lines

/-- A whole run, given all that comes in. -/
def transcript (env : Environment) (files : Files) (args : List String) (input : String)
    (seed : UInt64) : Output :=
  match start env files args seed with
  | .done output => output
  | .dialogue out m =>
    let rest := dialogue env (linesOf input) m
    { rest with out := out ++ rest.out }

end BlockMachine.CommandLine
