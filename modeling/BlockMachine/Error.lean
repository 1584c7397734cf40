/-!
# Host errors

What can go wrong around a machine: malformed texts, refused modules, missing files. A running
program never fails this way; its problems are error blocks on the value stack.
-/

namespace BlockMachine

/-- The cause of a host error. -/
inductive Error where
  /-- A text is no workspace, or no list of blocks. -/
  | workspaceText
  /-- A text is no input definition. -/
  | inputText
  | unknownStack (name : String)
  /-- The pattern of a module's kind cannot be read. -/
  | malformedPattern
  /-- The pattern of a module's kind captures. -/
  | capturingPattern (kind : String)
  | malformedJson
  /-- A state variable was given a data block or a function. -/
  | unsupportedState (name : String)
  | conversion (reason : String)
  /-- A file cannot be read. -/
  | unreadableFile (reason : String)
deriving Repr, DecidableEq

namespace Error

/-- What the operating system says about a file that is not there. -/
def noSuchFile : String :=
  "No such file or directory (os error 2)"

/-- The text of an error. -/
def message : Error → String
  | .workspaceText => "workspace text does not match the workspace grammar"
  | .inputText => "input definition does not match the input grammar"
  | .unknownStack name => "stack not found: " ++ name
  | .malformedPattern => "invalid serialization pattern"
  | .capturingPattern kind =>
    "serialization pattern of " ++ kind ++ " must not contain capture groups"
  | .malformedJson => "json error"
  | .unsupportedState name => "state variable " ++ name ++ " cannot hold a data block or a function"
  | .conversion reason => "conversion failed: " ++ reason
  | .unreadableFile reason => "io error: " ++ reason

end Error

end BlockMachine
