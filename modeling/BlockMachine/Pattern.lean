import BlockMachine.Text.Blank

/-!
# Patterns

The regular expressions that describe written blocks, and their matcher. Matching prefers the left
alternative, and more repetitions over fewer unless a repetition is lazy; a pattern is tried from
one place of the text and answers with the lengths that it can match there, in order of preference.

* `Pattern` — the expressions, `Pattern.source` — their text;
* `Pattern.lengths` — what a pattern matches at the front of a text, best first;
* `Pattern.matchesAll` — whether it matches a whole text;
* `Pattern.word`, `Pattern.sequence`, `Pattern.oneOf` — ways to put patterns together.
-/

namespace BlockMachine

/-- A part of a character class. -/
inductive ClassItem where
  | char (c : Char)
  | range (lo hi : Char)
  | blank
deriving Repr, DecidableEq

/-- Whether a character is in the part. -/
def ClassItem.accepts (c : Char) : ClassItem → Bool
  | .char d => c == d
  | .range lo hi => decide (lo ≤ c) && decide (c ≤ hi)
  | .blank => Text.isBlank c

/-- A regular expression. -/
inductive Pattern where
  | empty
  | char (c : Char)
  /-- Any character but a line feed. -/
  | any
  | oneIn (negated : Bool) (items : List ClassItem)
  | seq (first second : Pattern)
  | alt (left right : Pattern)
  /-- A group that only holds its pattern together. -/
  | group (inner : Pattern)
  | optional (inner : Pattern)
  | star (inner : Pattern)
  /-- As `star`, with fewer repetitions preferred. -/
  | lazyStar (inner : Pattern)
  | plus (inner : Pattern)
deriving Repr, DecidableEq

namespace Pattern

/-! ## Matching -/

/-- One character that a test accepts. -/
def oneChar (accepts : Char → Bool) : List Char → List Nat
  | c :: _ => if accepts c then [1] else []
  | [] => []

/-- What a sequence matches: each length of the first part with each of the second part behind
it. -/
def seqLengths (first second : List Char → List Nat) (s : List Char) : List Nat :=
  ((first s).flatMap fun n => (second (s.drop n)).map (n + ·)).eraseDups

/-- Repetitions of `step` from `offset` on, added in front of the offsets `found` so far. More
repetitions come first in the order of finding; an offset that was found before adds nothing. -/
def repeatMost (step : List Char → List Nat) : Nat → Nat → List Char → List Nat → List Nat
  | 0, _, _, found => found
  | fuel + 1, offset, s, found =>
    if found.contains offset then found
    else
      offset :: ((step s).filter (0 < ·)).foldl
        (fun found n => repeatMost step fuel (offset + n) (s.drop n) found) found

/-- As `repeatMost`, with fewer repetitions first. -/
def repeatLeast (step : List Char → List Nat) : Nat → Nat → List Char → List Nat → List Nat
  | 0, _, _, found => found
  | fuel + 1, offset, s, found =>
    if found.contains offset then found
    else
      ((step s).filter (0 < ·)).foldl
        (fun found n => repeatLeast step fuel (offset + n) (s.drop n) found) (offset :: found)

/-- The lengths that a pattern matches at the front of a text, in order of preference. -/
def lengths : Pattern → List Char → List Nat
  | .empty, _ => [0]
  | .char c, s => oneChar (· == c) s
  | .any, s => oneChar (· != '\n') s
  | .oneIn negated items, s => oneChar (fun c => negated != items.any (ClassItem.accepts c)) s
  | .seq p q, s => seqLengths p.lengths q.lengths s
  | .alt p q, s => (p.lengths s ++ q.lengths s).eraseDups
  | .group p, s => p.lengths s
  | .optional p, s => (p.lengths s ++ [0]).eraseDups
  | .star p, s => (repeatMost p.lengths (s.length + 1) 0 s []).reverse
  | .lazyStar p, s => (repeatLeast p.lengths (s.length + 1) 0 s []).reverse
  | .plus p, s =>
    seqLengths p.lengths (fun r => (repeatMost p.lengths (r.length + 1) 0 r []).reverse) s

/-- Whether a pattern can match the whole text. -/
def matchesAll (p : Pattern) (s : List Char) : Bool :=
  (p.lengths s).contains s.length

/-! ## Building -/

/-- Patterns one behind the other. -/
def sequence : List Pattern → Pattern
  | [] => .empty
  | [p] => p
  | p :: ps => .seq p (sequence ps)

/-- Patterns as alternatives, the first one preferred. -/
def oneOf : List Pattern → Pattern
  | [] => .empty
  | [p] => p
  | p :: ps => .alt p (oneOf ps)

/-- The characters of a word, as they are. -/
def word (s : String) : Pattern :=
  sequence (s.toList.map .char)

/-- One blank. -/
def blank : Pattern :=
  .oneIn false [.blank]

/-! ## Source text -/

/-- A character as it is written in a pattern. -/
def charSource (c : Char) : String :=
  if c ∈ ['\\', '.', '+', '*', '?', '(', ')', '|', '[', ']', '\x7b', '\x7d', '^', '$'] then
    String.ofList ['\\', c]
  else String.ofList [c]

/-- A character as it is written inside a class. -/
def classCharSource (c : Char) : String :=
  if c = '\n' then "\\n"
  else if c ∈ ['\\', '[', ']'] then String.ofList ['\\', c]
  else String.ofList [c]

/-- A part of a class as it is written. -/
def itemSource : ClassItem → String
  | .char c => classCharSource c
  | .range lo hi => classCharSource lo ++ "-" ++ classCharSource hi
  | .blank => "\\s"

/-- The text of a pattern. -/
def source : Pattern → String
  | .empty => ""
  | .char c => charSource c
  | .any => "."
  | .oneIn negated items =>
    "[" ++ (if negated then "^" else "") ++ String.join (items.map itemSource) ++ "]"
  | .seq p q => p.source ++ q.source
  | .alt p q => p.source ++ "|" ++ q.source
  | .group p => "(?:" ++ p.source ++ ")"
  | .optional p => p.source ++ "?"
  | .star p => p.source ++ "*"
  | .lazyStar p => p.source ++ "*?"
  | .plus p => p.source ++ "+"

end Pattern

end BlockMachine
