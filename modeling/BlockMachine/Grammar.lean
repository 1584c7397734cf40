import BlockMachine.Error
import BlockMachine.Grammar.Kinds
import BlockMachine.Module

/-!
# The grammar of tokens

A grammar lists the kinds of blocks in the order in which they are tried: those of the loaded
modules, then the built-in ones. A whole text is a token of the first kind whose pattern matches all
of it. In a list of tokens, each token is followed by blanks.

* `Grammar.core`, `Grammar.load` — the built-in grammar, and a grammar with one more module;
* `Grammar.literal` — the content of a whole text;
* `Grammar.literals` — the contents of a list of tokens, `Grammar.isBlockList` — whether a text is
  such a list.
-/

namespace BlockMachine

/-- Where the content of a token comes from. -/
inductive Maker where
  | core (kind : Kind)
  | module (source : Module) (index : Nat)

/-- A kind of block in a grammar. -/
structure Entry where
  name : String
  /-- The text of the pattern. -/
  source : String
  pattern : Pattern
  maker : Maker

/-- The kinds of blocks, in the order in which they are tried. -/
structure Grammar where
  modules : List Module
  entries : List Entry

namespace Grammar

/-! ## The kinds -/

/-- The entry of a built-in kind. -/
def coreEntry (kind : Kind) : Entry :=
  ⟨kind.name, kind.pattern.source, kind.pattern, .core kind⟩

/-- The grammar without modules. -/
def core : Grammar :=
  ⟨[], Kind.all.map coreEntry⟩

/-- The entry of a module's kind. Its pattern has to be readable and must not capture. -/
def moduleEntry (m : Module) (index : Nat) (kind : ModuleKind) : Except Error Entry :=
  match Pattern.read kind.pattern with
  | .error .malformed => .error .malformedPattern
  | .ok (p, captures) =>
    if captures = 0 then .ok ⟨kind.name, kind.pattern, p, .module m index⟩
    else .error (.capturingPattern kind.name)

/-- The entries of a module's kinds, from the kind at place `index` on. -/
def moduleEntries (m : Module) : Nat → List ModuleKind → Except Error (List Entry)
  | _, [] => .ok []
  | index, kind :: kinds => do
    let e ← moduleEntry m index kind
    let es ← moduleEntries m (index + 1) kinds
    return e :: es

/-- Adds a module; its kinds are tried after those of earlier modules and before the built-in ones.
Loading a module twice changes nothing. -/
def load (g : Grammar) (m : Module) : Except Error Grammar :=
  if g.modules.any fun other => other.name == m.name then .ok g
  else do
    let entries ← moduleEntries m 0 m.kinds
    let (own, builtIn) := g.entries.span fun e =>
      match e.maker with
      | .module .. => true
      | .core _ => false
    return ⟨g.modules ++ [m], own ++ entries ++ builtIn⟩

/-- The names of the kinds. -/
def kindNames (g : Grammar) : List String :=
  g.entries.map Entry.name

/-- The text of all patterns as alternatives, each in a group. -/
def source (g : Grammar) : String :=
  "|".intercalate (g.entries.map fun e => "(" ++ e.source ++ ")")

/-! ## Whole texts -/

/-- The first kind whose pattern matches the whole text. -/
def entryOf? (g : Grammar) (s : List Char) : Option Entry :=
  g.entries.find? fun e => e.pattern.matchesAll s

/-- The content of a token of a known kind; `inner` reads the token inside a package. -/
def contentWith (inner : List Char → Literal) (e : Entry) (s : List Char) : Literal :=
  match e.maker with
  | .core kind => Literal.ofToken inner kind s
  | .module m index => m.read index (String.ofList s)

/-- The content of a whole text, with packages nested at most `depth` deep. -/
def literalAt (g : Grammar) : (depth : Nat) → List Char → Literal
  | 0, s => .unreadable (String.ofList s)
  | depth + 1, s =>
    match g.entryOf? s with
    | some e => contentWith (g.literalAt depth) e s
    | none => .unreadable (String.ofList s)

/-- The content of a whole text. What is inside a package is shorter than the package, so the length
of the text bounds the nesting. -/
def literal (g : Grammar) (text : String) : Literal :=
  g.literalAt (text.length + 1) text.toList

/-- The content of a token of a known kind. -/
def content (g : Grammar) (e : Entry) (s : List Char) : Literal :=
  contentWith (g.literalAt (s.length + 1)) e s

/-! ## Lists of tokens -/

/-- The token at the front of a text: the first kind, and of its lengths the first, that has a blank
behind it. -/
def tokenAt? (g : Grammar) (s : List Char) : Option (Entry × Nat) :=
  g.entries.findSome? fun e =>
    ((e.pattern.lengths s).find? fun n => (s.drop n).head?.any Text.isBlank).map fun n => (e, n)

/-- The tokens of a text with the blanks between them. Characters at which no token starts are
skipped. -/
def tokens (g : Grammar) : Nat → List Char → List (Entry × List Char)
  | 0, _ => []
  | _, [] => []
  | fuel + 1, c :: rest =>
    match g.tokenAt? (c :: rest) with
    | some (e, n) =>
      (e, (c :: rest).take n) :: g.tokens fuel (Text.dropBlanks ((c :: rest).drop n))
    | none => g.tokens fuel rest

/-- A text without blanks around it, and a blank behind it. -/
def padded (s : List Char) : List Char :=
  Text.trim s ++ [' ']

/-- The contents of a list of tokens. -/
def literals (g : Grammar) (s : List Char) : List Literal :=
  (g.tokens ((padded s).length + 1) (padded s)).map fun (e, t) => g.content e t

/-- Any token. -/
def anyToken (g : Grammar) : Pattern :=
  .oneOf (g.entries.map fun e => .group e.pattern)

/-- Tokens, each with blanks behind it. -/
def tokenList (g : Grammar) : Pattern :=
  .star (.group (.seq (.group g.anyToken) (.plus .blank)))

/-- Whether a text is nothing but tokens and blanks. -/
def isBlockList (g : Grammar) (s : List Char) : Bool :=
  (Pattern.seq (.star .blank) g.tokenList).matchesAll (padded s)

end Grammar

end BlockMachine
