import BlockMachine.CommandLine

/-!
# The program

Reads the files and lines that the command line needs, and writes what it gives.
-/

namespace BlockMachine.CommandLine

/-- The content of a file, or why it cannot be read. -/
def readText (path : String) : IO (Except String String) := do
  try
    return .ok (← IO.FS.readFile path)
  catch
    | .noFileOrDirectory .. => return .error Error.noSuchFile
    | e => return .error (toString e)

/-- Reads files. -/
def readTexts : List String → IO (List (String × Except String String))
  | [] => return []
  | path :: rest => do
    let content ← readText path
    let more ← readTexts rest
    return (path, content) :: more

/-- The files that were read. -/
def filesOf (texts : List (String × Except String String)) : Files :=
  fun path => (texts.lookup path).getD (.error Error.noSuchFile)

/-- Answers lines until they end. -/
partial def converse (env : Environment) (m : Machine) : IO Unit := do
  let out ← IO.getStdout
  out.putStr prompt
  out.flush
  let line ← (← IO.getStdin).getLine
  if line.isEmpty then return
  match reply env line m with
  | none => return
  | some (output, m) =>
    out.putStr output.out
    (← IO.getStderr).putStr output.err
    converse env m

end BlockMachine.CommandLine

open BlockMachine CommandLine in
/-- The program. -/
def main (args : List String) : IO UInt32 := do
  let files := filesOf (← readTexts (paths args))
  let seed := UInt64.ofNat (← IO.monoNanosNow)
  match start Environment.standard files args seed with
  | .done output =>
    (← IO.getStdout).putStr output.out
    (← IO.getStderr).putStr output.err
    return UInt32.ofNat output.code
  | .dialogue out m =>
    (← IO.getStdout).putStr out
    converse Environment.standard m
    return 0
