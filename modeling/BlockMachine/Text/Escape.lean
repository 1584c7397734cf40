import BlockMachine.Text.Blank

/-!
# Escaped names

A name stands between blanks in the token streams of this library, so its own blanks are written as
`\u` and four hexadecimal digits, and a backslash is written twice.

* `escape` — the written form, free of blanks;
* `unescape` — reading it; a backslash that starts neither form stands for itself.
-/

namespace BlockMachine.Text

/-- The digit of value `n` in base sixteen, in lower case. -/
def hexDigit (n : Nat) : Char :=
  if n < 10 then Char.ofNat (48 + n) else Char.ofNat (87 + n)

/-- The value of a hexadecimal digit, in either case. -/
def hexValue? (c : Char) : Option Nat :=
  if '0' ≤ c ∧ c ≤ '9' then some (c.toNat - 48)
  else if 'a' ≤ c ∧ c ≤ 'f' then some (c.toNat - 87)
  else if 'A' ≤ c ∧ c ≤ 'F' then some (c.toNat - 55)
  else none

/-- The four hexadecimal digits of `n`, for `n` below 65536. -/
def hexQuad (n : Nat) : List Char :=
  [hexDigit (n / 4096 % 16), hexDigit (n / 256 % 16), hexDigit (n / 16 % 16), hexDigit (n % 16)]

/-- The number that four hexadecimal digits write. -/
def quadValue? (a b c d : Char) : Option Nat := do
  let a ← hexValue? a
  let b ← hexValue? b
  let c ← hexValue? c
  let d ← hexValue? d
  return ((a * 16 + b) * 16 + c) * 16 + d

/-- The character with code point `n`; surrogates are no characters. -/
def charOf? (n : Nat) : Option Char :=
  if n.isValidChar then some (Char.ofNat n) else none

/-- One character of a name in its written form. -/
def escapeChar (c : Char) : List Char :=
  if c = '\\' then ['\\', '\\']
  else if isBlank c then '\\' :: 'u' :: hexQuad c.toNat
  else [c]

/-- The written form of a name, character by character. -/
def escapeChars (s : List Char) : List Char :=
  s.flatMap escapeChar

/-- What the text behind a backslash stands for together with it, and the text after that. `none`
when the backslash stands for itself. -/
def escaped? : List Char → Option (Char × List Char)
  | '\\' :: more => some ('\\', more)
  | 'u' :: h₁ :: h₂ :: h₃ :: h₄ :: more =>
    ((quadValue? h₁ h₂ h₃ h₄).bind charOf?).map fun c => (c, more)
  | _ => none

theorem escaped?_length {s more : List Char} {c : Char} (h : escaped? s = some (c, more)) :
    more.length < s.length := by
  unfold escaped? at h
  split at h
  · cases h
    simp
  · obtain ⟨d, _, he⟩ := Option.map_eq_some_iff.1 h
    cases he
    simp only [List.length_cons]
    omega
  · simp at h

/-- Reads the written form of a name. -/
def unescapeChars : List Char → List Char
  | [] => []
  | c :: rest =>
    if c = '\\' then
      match _h : escaped? rest with
      | some (d, more) => d :: unescapeChars more
      | none => c :: unescapeChars rest
    else c :: unescapeChars rest
termination_by s => s.length
decreasing_by
  · have := escaped?_length _h
    simp only [List.length_cons]
    omega
  · simp
  · simp

/-- The written form of a name. -/
def escape (s : String) : String :=
  String.ofList (escapeChars s.toList)

/-- The name that a written form stands for. -/
def unescape (s : String) : String :=
  String.ofList (unescapeChars s.toList)

end BlockMachine.Text
