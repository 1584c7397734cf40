import BlockMachine.Json
import BlockMachine.Json.Text
import Mathlib.Data.List.DropRight
import Mathlib.Data.List.Forall2

/-!
# Laid out JSON text is read back

A layout is written on indented lines. If each text in it is read as a tree, whatever ends it, then
so is the whole layout, at every level and with the fuel that reading gives to a text. Strings are
such texts whatever characters they hold, and so are integers.

* `string?_points`, `readPoints_quoted` — the text of a string is read as its code points, and these
  give the string again;
* `numeralOf`, `readNumeral_intText` and `int32?_numeralOf` — the same for integers;
* `Layout.Reads` — layouts that are read as a tree, with `reads_quoted`, `reads_intText`,
  `reads_list` and `reads_record`;
* `Layout.Reads.read?` — such a layout is read as a whole text.
-/

namespace BlockMachine.Json

/-! ## Strings -/

/-- The code points of a text. -/
def points (s : String) : List Nat :=
  s.toList.map Char.toNat

theorem charOf?_toNat (c : Char) : Text.charOf? c.toNat = some c := by
  have hvalid : c.toNat.isValidChar := c.valid
  simp [Text.charOf?, hvalid]

/-- No character is half of a surrogate pair. -/
theorem not_surrogate (c : Char) : ¬ (0xd800 ≤ c.toNat ∧ c.toNat < 0xdc00) := by
  have hvalid : c.toNat.isValidChar := c.valid
  simp only [Nat.isValidChar] at hvalid
  omega

theorem textOf?_map_toNat (cs : List Char) : textOf? (cs.map Char.toNat) = some cs := by
  induction cs with
  | nil => rfl
  | cons c cs ih =>
    cases cs with
    | nil => simp [textOf?, charOf?_toNat]
    | cons d cs =>
      have hsingle : ¬ (0xd800 ≤ c.toNat ∧ c.toNat < 0xdc00 ∧
          0xdc00 ≤ d.toNat ∧ d.toNat < 0xe000) :=
        fun h => not_surrogate c ⟨h.1, h.2.1⟩
      simp only [List.map_cons] at ih ⊢
      simp [textOf?, hsingle, charOf?_toNat, ih]

/-- The code points of a text give the text. -/
theorem string?_points (s : String) : string? (points s) = some s := by
  simp [string?, points, textOf?_map_toNat]

/-- The four digits of a control character read back to it. -/
theorem quadValue?_hexQuad : ∀ n < 0x20,
    Text.quadValue? (Text.hexDigit (n / 4096 % 16)) (Text.hexDigit (n / 256 % 16))
      (Text.hexDigit (n / 16 % 16)) (Text.hexDigit (n % 16)) = some n := by
  decide

/-- A character behind a backslash, other than the `u` of four digits. -/
theorem readPoints_letter {c : Char} {n : Nat} (hc : escapePoint? c = some n) (rest : List Char) :
    readPoints ('\\' :: c :: rest) = (readPoints rest).map fun p => (n :: p.1, p.2) := by
  have hu : c ≠ 'u' := by
    rintro rfl
    cases hc
  rw [readPoints]
  · rw [hc]
    cases readPoints rest <;> rfl
  · exact fun _ _ _ _ _ h => absurd h hu

/-- A character that stands for itself. -/
theorem readPoints_plain {c : Char} (hquote : c ≠ '\x22') (hback : c ≠ '\\')
    (hcontrol : ¬ c.toNat < 0x20) (rest : List Char) :
    readPoints (c :: rest) = (readPoints rest).map fun p => (c.toNat :: p.1, p.2) := by
  rw [readPoints, if_neg hcontrol]
  · cases readPoints rest <;> rfl
  · exact hquote
  · exact fun _ _ _ _ _ h => absurd h hback
  · exact fun _ _ h => absurd h hback

/-- One character of a string is read back, whatever follows it. -/
theorem readPoints_escapedChar (c : Char) (rest : List Char) :
    readPoints (escapedChar c ++ rest)
      = (readPoints rest).map fun p => (c.toNat :: p.1, p.2) := by
  rw [escapedChar]
  split_ifs with hquote hback hfeed hreturn htab hbell hform hcontrol
  · rw [hquote]
    exact readPoints_letter rfl rest
  · rw [hback]
    exact readPoints_letter rfl rest
  · rw [hfeed]
    exact readPoints_letter rfl rest
  · rw [hreturn]
    exact readPoints_letter rfl rest
  · rw [htab]
    exact readPoints_letter rfl rest
  · rw [hbell]
    exact readPoints_letter rfl rest
  · rw [hform]
    exact readPoints_letter rfl rest
  · simp only [Text.hexQuad, List.cons_append, List.nil_append]
    rw [readPoints, quadValue?_hexQuad _ hcontrol]
    cases readPoints rest <;> rfl
  · exact readPoints_plain hquote hback hcontrol rest

theorem readPoints_flatMap (cs rest : List Char) :
    readPoints (cs.flatMap escapedChar ++ '\x22' :: rest) = some (cs.map Char.toNat, rest) := by
  induction cs with
  | nil => simp [readPoints]
  | cons c cs ih => simp [readPoints_escapedChar, ih]

theorem toList_quoted (s : String) :
    (quoted s).toList = '\x22' :: (s.toList.flatMap escapedChar ++ ['\x22']) := by
  simp [quoted]

/-- Behind its opening quote, the text of a string is read as its code points. -/
theorem readPoints_quoted (s : String) (rest : List Char) :
    readPoints ((s.toList.flatMap escapedChar ++ ['\x22']) ++ rest) = some (points s, rest) := by
  rw [List.append_assoc]
  exact readPoints_flatMap s.toList rest

/-! ## Integers -/

/-- How an integer is written. -/
def numeralOf (n : Int) : Numeral :=
  ⟨decide (n < 0), Nat.toDigits 10 n.natAbs, [], none⟩

theorem toDigits_ne_nil (n : Nat) : Nat.toDigits 10 n ≠ [] :=
  List.ne_nil_of_length_pos Nat.length_toDigits_pos

/-- A number that is not zero does not start with a zero. -/
theorem head?_toDigits {n : Nat} (hn : 0 < n) : (Nat.toDigits 10 n).head? ≠ some '0' := by
  induction n using Nat.strongRecOn with
  | ind n ih =>
    by_cases hlt : n < 10
    · have hdigits : ∀ d < 10, 0 < d → (Nat.toDigits 10 d).head? ≠ some '0' := by decide
      exact hdigits n hlt hn
    · have hle : 10 ≤ n := by omega
      rw [Nat.toDigits_of_base_le (by decide) hle,
        List.head?_append_of_ne_nil _ (toDigits_ne_nil (n / 10))]
      exact ih (n / 10) (by omega) (by omega)

/-- A zero stands alone. -/
theorem length_toDigits_of_head? {n : Nat} (h : (Nat.toDigits 10 n).head? = some '0') :
    (Nat.toDigits 10 n).length = 1 := by
  rcases Nat.eq_zero_or_pos n with rfl | hn
  · rfl
  · exact absurd h (head?_toDigits hn)

theorem isDigit_of_mem_toDigits {n : Nat} {c : Char} (h : c ∈ Nat.toDigits 10 n) :
    Decimal.isDigit c = true := by
  have hdigit := Nat.isDigit_of_mem_toDigits (by decide) (by decide) h
  simpa [Decimal.isDigit, Char.isDigit, Char.le_def] using hdigit

/-- What can stand behind a value on a line of its own. -/
def Ends (rest : List Char) : Prop :=
  ∀ c ∈ rest.head?, c = ',' ∨ c = '\n'

theorem readDigits_append {ds rest : List Char} (hne : ds ≠ [])
    (hds : ∀ c ∈ ds, Decimal.isDigit c = true) (hrest : Ends rest) :
    readDigits (ds ++ rest) = some (ds, rest) := by
  have hstop : rest.takeWhile Decimal.isDigit = [] ∧ rest.dropWhile Decimal.isDigit = rest := by
    cases rest with
    | nil => exact ⟨rfl, rfl⟩
    | cons c rest =>
      have hc : Decimal.isDigit c = false := by
        rcases hrest c rfl with rfl | rfl <;> decide
      simp [hc]
  rw [readDigits, List.takeWhile_append_of_pos hds, List.dropWhile_append_of_pos hds, hstop.1,
    hstop.2, List.append_nil]
  simp [hne]

/-- The digits of a number are read up to where they end. -/
theorem readWhole_toDigits (n : Nat) {rest : List Char} (hrest : Ends rest) :
    readWhole (Nat.toDigits 10 n ++ rest) = some (Nat.toDigits 10 n, rest) := by
  have hzero : ¬ ((Nat.toDigits 10 n).head? = some '0' ∧ 1 < (Nat.toDigits 10 n).length) := by
    rintro ⟨hhead, hlong⟩
    have := length_toDigits_of_head? hhead
    omega
  have hdigits := readDigits_append (toDigits_ne_nil n) (fun c => isDigit_of_mem_toDigits) hrest
  simp only [readWhole, hdigits, Option.bind_eq_bind, Option.bind_some, if_neg hzero]
  rfl

theorem readPlaces_ends {rest : List Char} (hrest : Ends rest) :
    readPlaces rest = some ([], rest) := by
  cases rest with
  | nil => rfl
  | cons c rest => rcases hrest c rfl with rfl | rfl <;> rfl

theorem readExponent_ends {rest : List Char} (hrest : Ends rest) :
    readExponent rest = some (none, rest) := by
  cases rest with
  | nil => rfl
  | cons c rest => rcases hrest c rfl with rfl | rfl <;> rfl

theorem toList_intText (n : Int) :
    (Decimal.intText n).toList
      = if n < 0 then '-' :: Nat.toDigits 10 n.natAbs else Nat.toDigits 10 n.natAbs := by
  rw [Decimal.intText]
  split <;> simp [Decimal.natText]

theorem readNumeral_intText (n : Int) {rest : List Char} (hrest : Ends rest) :
    readNumeral ((Decimal.intText n).toList ++ rest) = some (numeralOf n, rest) := by
  have hwhole := readWhole_toDigits n.natAbs hrest
  rw [toList_intText]
  split_ifs with hneg
  · simp [readNumeral, hwhole, readPlaces_ends hrest, readExponent_ends hrest, numeralOf, hneg]
  · rw [readNumeral]
    · simp [hwhole, readPlaces_ends hrest, readExponent_ends hrest, numeralOf, hneg]
    · -- the first digit is no minus sign
      intro s heq
      obtain ⟨c, ds, hds⟩ := List.exists_cons_of_ne_nil (toDigits_ne_nil n.natAbs)
      rw [hds] at heq
      obtain rfl : c = '-' := (List.cons.inj heq).1
      have hdigit := isDigit_of_mem_toDigits (n := n.natAbs) (hds ▸ List.mem_cons_self)
      revert hdigit
      decide

theorem le_natOfDigits (n : Nat) (ds : List Char) :
    n ≤ ds.foldl (fun n c => 10 * n + (c.toNat - 48)) n := by
  induction ds generalizing n with
  | nil => exact Nat.le_refl _
  | cons c ds ih =>
    have hstep : n ≤ 10 * n + (c.toNat - 48) := by omega
    exact Nat.le_trans hstep (ih _)

/-- Digits that fit 64 bits are all gathered. -/
theorem gather_eq {n : Nat} {ds : List Char}
    (h : ds.foldl (fun n c => 10 * n + (c.toNat - 48)) n < 0x10000000000000000) :
    gather n ds = (ds.foldl (fun n c => 10 * n + (c.toNat - 48)) n, []) := by
  induction ds generalizing n with
  | nil => rfl
  | cons c ds ih =>
    rw [List.foldl_cons] at h ⊢
    rw [gather, if_pos (Nat.lt_of_le_of_lt (le_natOfDigits _ ds) h), ih h]

theorem gather_toDigits {n : Nat} (h : n < 0x10000000000000000) :
    gather 0 (Nat.toDigits 10 n) = (n, []) := by
  have hvalue : (Nat.toDigits 10 n).foldl (fun n c => 10 * n + (c.toNat - 48)) 0 = n :=
    Nat.ofDigitChars_toDigits (by decide) (by decide)
  rw [gather_eq (by rw [hvalue]; exact h), hvalue]

/-- An integer of 32 bits is read back. -/
theorem int32?_numeralOf {n : Int} (h : -0x80000000 ≤ n ∧ n < 0x80000000) :
    (Syntax.number (numeralOf n)).int32? = some n := by
  have hvalue : (numeralOf n).value? = some (.integer n) := by
    rw [Numeral.value?, numeralOf, gather_toDigits (by omega)]
    by_cases hneg : n < 0
    · have hfits : 0 < n.natAbs ∧ n.natAbs ≤ 0x8000000000000000 := by omega
      have habs : -(n.natAbs : Int) = n := by omega
      simp only [hneg, hfits, habs, decide_true, and_self, if_true]
      rfl
    · have habs : (n.natAbs : Int) = n := by omega
      simp only [hneg, habs, decide_false]
      rfl
  simp [Syntax.int32?, hvalue, h]

/-! ## Space -/

/-- Characters that stand between tokens. -/
def IsSpace (s : List Char) : Prop :=
  ∀ c ∈ s, isSpace c = true

theorem isSpace_indent (level : Nat) : IsSpace (indent level).toList := by
  intro c hc
  obtain rfl : c = ' ' := by
    rw [indent, String.toList_ofList] at hc
    exact List.eq_of_mem_replicate hc
  rfl

theorem skip_append {space : List Char} (hspace : IsSpace space) (s : List Char) :
    skip (space ++ s) = skip s :=
  List.dropWhile_append_of_pos hspace

theorem skip_cons {c : Char} (hc : isSpace c = false) (s : List Char) : skip (c :: s) = c :: s := by
  simp [skip, hc]

/-- A value may have space in front. -/
theorem readSyntax_skip (fuel : Nat) (s : List Char) :
    readSyntax fuel (skip s) = readSyntax fuel s := by
  have htwice : skip (skip s) = skip s := List.dropWhile_idempotent _ _
  cases fuel with
  | zero => rfl
  | succ fuel => rw [readSyntax, readSyntax, htwice]

theorem readSyntax_append {space : List Char} (hspace : IsSpace space) (fuel : Nat)
    (s : List Char) : readSyntax fuel (space ++ s) = readSyntax fuel s := by
  rw [← readSyntax_skip, skip_append hspace, readSyntax_skip]

/-- No value starts with a closing bracket. -/
theorem readSyntax_bracket (fuel : Nat) (s : List Char) : readSyntax fuel (']' :: s) = none := by
  cases fuel with
  | zero => rfl
  | succ fuel => rfl

/-! ## Layouts -/

/-- A text that is read as a tree, whatever ends it. -/
def Reads (text : String) (tree : Syntax) : Prop :=
  ∀ fuel rest, Ends rest → 2 * text.length ≤ fuel →
    readSyntax fuel (text.toList ++ rest) = some (tree, rest)

/-- A layout that is read as a tree, at whatever level it starts. -/
def Layout.Reads (d : Layout) (tree : Syntax) : Prop :=
  ∀ level, Json.Reads (d.render level) tree

/-- A text that is read as a tree, whatever follows it. -/
def Delimited (text : String) (tree : Syntax) : Prop :=
  ∀ fuel rest, 2 * text.length ≤ fuel → readSyntax fuel (text.toList ++ rest) = some (tree, rest)

/-- A string ends at its closing quote. -/
theorem delimited_quoted (s : String) : Delimited (quoted s) (.string (points s)) := by
  intro fuel rest hfuel
  rw [← String.length_toList, toList_quoted] at hfuel
  obtain ⟨fuel, rfl⟩ : ∃ f, fuel = f + 1 := ⟨fuel - 1, by simp at hfuel; omega⟩
  rw [toList_quoted, List.cons_append, readSyntax, skip_cons rfl]
  simp only [readPoints_quoted, Option.map_some]

theorem reads_quoted (s : String) : (Layout.text (quoted s)).Reads (.string (points s)) := by
  intro level fuel rest _ hfuel
  exact delimited_quoted s fuel rest hfuel

/-- A value that starts with a minus sign or a digit is a numeral. -/
theorem readSyntax_numeral {c : Char} (hc : c = '-' ∨ Decimal.isDigit c = true) (fuel : Nat)
    (s : List Char) :
    readSyntax (fuel + 1) (c :: s) = (readNumeral (c :: s)).map fun p => (.number p.1, p.2) := by
  have hother : ∀ d ∈ [' ', '\n', '\t', '\r', '\x22', '[', '\x7b', 't', 'f', 'n'], c ≠ d := by
    rintro d hd rfl
    rcases hc with rfl | hdigit
    · revert hd
      decide
    · have hnone : ∀ d ∈ [' ', '\n', '\t', '\r', '\x22', '[', '\x7b', 't', 'f', 'n'],
          (!Decimal.isDigit d) = true := List.all_eq_true.1 rfl
      have hother := hnone _ hd
      rw [hdigit] at hother
      cases hother
  simp only [List.forall_mem_cons] at hother
  have hspace : isSpace c = false := by simp [isSpace, hother]
  rw [readSyntax, skip_cons hspace]
  split <;> simp_all

theorem reads_intText (n : Int) :
    (Layout.text (Decimal.intText n)).Reads (.number (numeralOf n)) := by
  intro level fuel rest hrest hfuel
  have hnumeral := readNumeral_intText n hrest
  obtain ⟨c, s, hs, hc⟩ : ∃ c s, (Decimal.intText n).toList = c :: s ∧
      (c = '-' ∨ Decimal.isDigit c = true) := by
    rw [toList_intText]
    split
    · exact ⟨_, _, rfl, .inl rfl⟩
    · obtain ⟨c, ds, hds⟩ := List.exists_cons_of_ne_nil (toDigits_ne_nil n.natAbs)
      exact ⟨c, ds, hds, .inr (isDigit_of_mem_toDigits (hds ▸ List.mem_cons_self))⟩
  rw [Layout.render] at hfuel ⊢
  rw [← String.length_toList, hs, List.length_cons] at hfuel
  obtain ⟨fuel, rfl⟩ : ∃ f, fuel = f + 1 := ⟨fuel - 1, by omega⟩
  rw [hs, List.cons_append] at hnumeral ⊢
  rw [readSyntax_numeral hc, hnumeral]
  rfl

/-! ### Lines -/

/-- Parts on lines of their own, with a comma behind each but the last, up to a closing text. -/
def lines (space behind : List Char) : List String → List Char
  | [] => '\n' :: behind
  | [p] => '\n' :: (space ++ (p.toList ++ '\n' :: behind))
  | p :: q :: parts => '\n' :: (space ++ (p.toList ++ ',' :: lines space behind (q :: parts)))

theorem lines_append (space behind rest : List Char) (parts : List String) :
    lines space behind parts ++ rest = lines space (behind ++ rest) parts := by
  induction parts with
  | nil => rfl
  | cons p parts ih =>
    cases parts with
    | nil => simp [lines]
    | cons q parts => simp [lines, ih]

theorem lines_eq_intercalate (space behind : List Char) {parts : List String} (hne : parts ≠ []) :
    lines space behind parts
      = '\n' :: ([',', '\n'].intercalate (parts.map fun p => space ++ p.toList)
        ++ '\n' :: behind) := by
  induction parts with
  | nil => exact absurd rfl hne
  | cons p parts ih =>
    cases parts with
    | nil => simp [lines]
    | cons q parts =>
      rw [lines, ih (by simp)]
      simp only [List.map_cons, List.intercalate_cons_cons, List.append_assoc, List.cons_append,
        List.nil_append]

theorem toList_enclosed (opening closing : String) (level : Nat) {parts : List String}
    (hne : parts ≠ []) :
    (enclosed opening closing level parts).toList
      = opening.toList ++ (lines (indent (level + 1)).toList (indent level).toList parts
        ++ closing.toList) := by
  rw [lines_eq_intercalate _ _ hne]
  simp [enclosed, hne, String.toList_intercalate, Function.comp_def]

/-- The end of the lines is a line break. -/
theorem ends_newline (behind : List Char) : Ends ('\n' :: behind) := by
  simp [Ends]

theorem ends_comma (behind : List Char) : Ends (',' :: behind) := by
  simp [Ends]

theorem skip_behind {space : List Char} (hspace : IsSpace space) {c : Char} (hc : isSpace c = false)
    (rest : List Char) : skip ('\n' :: (space ++ c :: rest)) = c :: rest := by
  rw [← List.cons_append, skip_append (List.forall_mem_cons.2 ⟨rfl, hspace⟩), skip_cons hc]

/-- The items of an array are read up to its closing bracket. -/
theorem readItems_lines {space behind : List Char} (hspace : IsSpace space)
    (hbehind : IsSpace behind) (rest : List Char) {parts : List String} {trees : List Syntax}
    (hne : parts ≠ []) (hparts : List.Forall₂ Reads parts trees) {fuel : Nat}
    (hfuel : 2 * (lines space behind parts).length ≤ fuel) :
    readItems fuel (lines space (behind ++ ']' :: rest) parts) = some (trees, rest) := by
  have hfront : IsSpace ('\n' :: space) := List.forall_mem_cons.2 ⟨rfl, hspace⟩
  induction hparts generalizing fuel with
  | nil => exact absurd rfl hne
  | @cons p tree parts trees hp hps ih =>
    cases hps with
    | nil =>
      simp only [lines, List.length_cons, List.length_append, String.length_toList] at hfuel
      obtain ⟨fuel, rfl⟩ : ∃ f, fuel = f + 1 := ⟨fuel - 1, by omega⟩
      rw [lines, ← List.cons_append, readItems, readSyntax_append hfront,
        hp fuel _ (ends_newline _) (by omega)]
      simp [skip_behind hbehind (c := ']') rfl]
    | @cons q _ parts _ _ _ =>
      rw [lines] at hfuel
      simp only [List.length_cons, List.length_append, String.length_toList] at hfuel
      obtain ⟨fuel, rfl⟩ : ∃ f, fuel = f + 1 := ⟨fuel - 1, by omega⟩
      rw [lines, ← List.cons_append, readItems, readSyntax_append hfront,
        hp fuel _ (ends_comma _) (by omega)]
      have hless : 2 * (lines space behind (q :: parts)).length ≤ fuel := by omega
      have hrest := ih (by simp) hless
      simp [skip_cons (c := ',') rfl, hrest]

/-- A member of an object: its key and its value. -/
def member (p : String × String) : String :=
  quoted p.1 ++ ": " ++ p.2

theorem toList_member_append (p : String × String) (more : List Char) :
    (member p).toList ++ more
      = (quoted p.1).toList ++ ':' :: ([' '] ++ (p.2.toList ++ more)) := by
  simp [member]

theorem length_member (p : String × String) : p.2.length + 2 ≤ (member p).length := by
  simp only [member, String.length_append]
  have : ": ".length = 2 := rfl
  omega

/-- One member of an object is read, and then what stands behind it. There may be space before its
key and before its value. -/
theorem readMembers_keyed {space gap : List Char} (hspace : IsSpace space) (hgap : IsSpace gap)
    (key : String) {fuel : Nat} {value more : List Char} {tree : Syntax}
    (hvalue : readSyntax fuel (value ++ more) = some (tree, more)) :
    readMembers (fuel + 1) (space ++ ((quoted key).toList ++ ':' :: (gap ++ (value ++ more))))
      = match skip more with
        | ',' :: rest =>
          (readMembers fuel rest).bind fun ms => some ((points key, tree) :: ms.1, ms.2)
        | '\x7d' :: rest => some ([(points key, tree)], rest)
        | _ => none := by
  rw [readMembers, skip_append hspace, toList_quoted, List.cons_append, skip_cons rfl]
  simp only [readPoints_quoted, Option.bind_eq_bind, Option.bind_some, skip_cons (c := ':') rfl]
  rw [readSyntax_append hgap, hvalue]
  rfl

theorem readMembers_member {space : List Char} (hspace : IsSpace space) {p : String × String}
    {tree : Syntax} (hp : Reads p.2 tree) {more : List Char} (hmore : Ends more) {fuel : Nat}
    (hfuel : 2 * p.2.length ≤ fuel) :
    readMembers (fuel + 1) ('\n' :: (space ++ ((member p).toList ++ more)))
      = match skip more with
        | ',' :: rest =>
          (readMembers fuel rest).bind fun ms => some ((points p.1, tree) :: ms.1, ms.2)
        | '\x7d' :: rest => some ([(points p.1, tree)], rest)
        | _ => none := by
  have hfront : IsSpace ('\n' :: space) := List.forall_mem_cons.2 ⟨rfl, hspace⟩
  have hblank : IsSpace [' '] := by simp [IsSpace, isSpace]
  rw [toList_member_append, ← List.cons_append]
  exact readMembers_keyed hfront hblank p.1 (hp fuel more hmore hfuel)

/-- The members of an object are read up to its closing brace. -/
theorem readMembers_lines {space behind : List Char} (hspace : IsSpace space)
    (hbehind : IsSpace behind) (rest : List Char) {parts : List (String × String)}
    {trees : List (String × Syntax)} (hne : parts ≠ [])
    (hparts : List.Forall₂ (fun p t => p.1 = t.1 ∧ Reads p.2 t.2) parts trees) {fuel : Nat}
    (hfuel : 2 * (lines space behind (parts.map member)).length ≤ fuel) :
    readMembers fuel (lines space (behind ++ '\x7d' :: rest) (parts.map member))
      = some (trees.map fun t => (points t.1, t.2), rest) := by
  induction hparts generalizing fuel with
  | nil => exact absurd rfl hne
  | @cons p tree parts trees hp hps ih =>
    obtain ⟨hkey, hvalue⟩ := hp
    have hlength := length_member p
    cases hps with
    | nil =>
      simp only [List.map_cons, List.map_nil, lines, List.length_cons, List.length_append,
        String.length_toList] at hfuel ⊢
      obtain ⟨fuel, rfl⟩ : ∃ f, fuel = f + 1 := ⟨fuel - 1, by omega⟩
      rw [readMembers_member hspace hvalue (ends_newline _) (by omega), skip_behind hbehind rfl,
        hkey]
      rfl
    | @cons q _ parts _ _ _ =>
      simp only [List.map_cons, lines, List.length_cons, List.length_append,
        String.length_toList] at hfuel ⊢
      obtain ⟨fuel, rfl⟩ : ∃ f, fuel = f + 1 := ⟨fuel - 1, by omega⟩
      have hless : 2 * (lines space behind (member q :: parts.map member)).length ≤ fuel := by omega
      have hrest := ih (by simp) hless
      rw [List.map_cons, List.map_cons] at hrest
      rw [readMembers_member hspace hvalue (ends_comma _) (by omega), skip_cons rfl]
      simp only [hrest, hkey, Option.bind_some]

/-! ### Lists and records -/

theorem renderItems_eq (level : Nat) (items : List Layout) :
    renderItems level items = items.map (Layout.render level) := by
  induction items with
  | nil => rfl
  | cons item items ih => rw [renderItems, ih, List.map_cons]

theorem renderMembers_eq (level : Nat) (members : List (String × Layout)) :
    renderMembers level members
      = (members.map fun m => (m.1, m.2.render level)).map member := by
  induction members with
  | nil => rfl
  | cons m members ih =>
    rw [renderMembers, ih, List.map_cons, List.map_cons]
    rfl

/-- What starts with a closing bracket holds no items, and with a closing brace no members. -/
theorem readItems_of_skip {s rest : List Char} (hs : skip s = ']' :: rest) (fuel : Nat) :
    readItems fuel s = none := by
  cases fuel with
  | zero => rfl
  | succ fuel =>
    rw [readItems, ← readSyntax_skip, hs, readSyntax_bracket]
    rfl

theorem readMembers_of_skip {s rest : List Char} (hs : skip s = '\x7d' :: rest) (fuel : Nat) :
    readMembers fuel s = none := by
  cases fuel with
  | zero => rfl
  | succ fuel =>
    rw [readMembers, hs]
    rfl

/-- The text of a list or a record that is empty, and the fuel for it. -/
theorem enclosed_nil (opening closing : Char) {level fuel : Nat}
    (hfuel : 2 * (enclosed (String.ofList [opening]) (String.ofList [closing]) level []).length
      ≤ fuel) (rest : List Char) :
    (enclosed (String.ofList [opening]) (String.ofList [closing]) level []).toList ++ rest
        = opening :: closing :: rest ∧
      ∃ f, fuel = f + 1 := by
  refine ⟨by simp [enclosed], fuel - 1, ?_⟩
  simp [enclosed] at hfuel
  omega

/-- The text of a list or a record that is not empty, and the fuel that is left inside. -/
theorem enclosed_append (opening closing : Char) {level : Nat} {parts : List String}
    (hne : parts ≠ []) {fuel : Nat}
    (hfuel : 2 * (enclosed (String.ofList [opening]) (String.ofList [closing]) level parts).length
      ≤ fuel) (rest : List Char) :
    (enclosed (String.ofList [opening]) (String.ofList [closing]) level parts).toList ++ rest
        = opening :: lines (indent (level + 1)).toList
          ((indent level).toList ++ closing :: rest) parts ∧
      ∃ f, fuel = f + 1 ∧
        2 * (lines (indent (level + 1)).toList (indent level).toList parts).length ≤ f := by
  refine ⟨?_, fuel - 1, ?_⟩
  · rw [toList_enclosed _ _ _ hne]
    simp [lines_append]
  · rw [← String.length_toList, toList_enclosed _ _ _ hne] at hfuel
    simp at hfuel
    omega

/-- **A list is read** if its items are. -/
theorem reads_list {items : List Layout} {trees : List Syntax}
    (h : List.Forall₂ Layout.Reads items trees) : (Layout.list items).Reads (.array trees) := by
  intro level fuel rest _ hfuel
  rw [Layout.render, renderItems_eq] at hfuel ⊢
  have hreads : List.Forall₂ Reads (items.map (Layout.render (level + 1))) trees :=
    List.forall₂_map_left_iff.2 (h.imp fun _ _ hitem => hitem (level + 1))
  generalize items.map (Layout.render (level + 1)) = parts at hfuel hreads ⊢
  cases hreads with
  | nil =>
    obtain ⟨htext, fuel, rfl⟩ := enclosed_nil '[' ']' hfuel rest
    exact congrArg (readSyntax _) htext
  | @cons p tree parts trees hp hps =>
    obtain ⟨htext, fuel, rfl, hinside⟩ := enclosed_append '[' ']'
      (List.cons_ne_nil p parts) hfuel rest
    have hitems := readItems_lines (isSpace_indent (level + 1)) (isSpace_indent level) rest
      (List.cons_ne_nil p parts) (.cons hp hps) hinside
    refine (congrArg (readSyntax _) htext).trans ?_
    rw [readSyntax, skip_cons rfl]
    simp only
    split
    case h_1 hclose =>
      rw [readItems_of_skip hclose] at hitems
      cases hitems
    case h_2 =>
      rw [hitems]
      rfl

/-- The tree of an object with given keys. -/
def objectOf (members : List (String × Syntax)) : Syntax :=
  .object (members.map fun m => (points m.1, m.2))

/-- **A record is read** if its members are. -/
theorem reads_record {members : List (String × Layout)} {trees : List (String × Syntax)}
    (h : List.Forall₂ (fun m t => m.1 = t.1 ∧ m.2.Reads t.2) members trees) :
    (Layout.record members).Reads (objectOf trees) := by
  intro level fuel rest _ hfuel
  rw [Layout.render, renderMembers_eq] at hfuel ⊢
  have hreads : List.Forall₂ (fun p t => p.1 = t.1 ∧ Reads p.2 t.2)
      (members.map fun m => (m.1, m.2.render (level + 1))) trees :=
    List.forall₂_map_left_iff.2 (h.imp fun _ _ hmember => ⟨hmember.1, hmember.2 (level + 1)⟩)
  generalize members.map (fun m => (m.1, m.2.render (level + 1))) = parts at hfuel hreads ⊢
  cases hreads with
  | nil =>
    obtain ⟨htext, fuel, rfl⟩ := enclosed_nil '\x7b' '\x7d' hfuel rest
    exact congrArg (readSyntax _) htext
  | @cons p tree parts trees hp hps =>
    obtain ⟨htext, fuel, rfl, hinside⟩ := enclosed_append '\x7b' '\x7d'
      (List.cons_ne_nil (member p) (parts.map member)) hfuel rest
    have hmembers := readMembers_lines (isSpace_indent (level + 1)) (isSpace_indent level) rest
      (List.cons_ne_nil p parts) (.cons hp hps) hinside
    refine (congrArg (readSyntax _) htext).trans ?_
    rw [readSyntax, skip_cons rfl]
    simp only
    split
    case h_1 hclose =>
      rw [List.map_cons, readMembers_of_skip hclose] at hmembers
      cases hmembers
    case h_2 =>
      rw [List.map_cons] at hmembers
      rw [hmembers]
      rfl

/-- **A layout is read** as a whole text. -/
theorem Layout.Reads.read? {d : Layout} {tree : Syntax} (h : d.Reads tree) :
    Syntax.read? d.pretty = some tree := by
  have hread := h 0 (2 * d.pretty.length + 2) [] (by simp [Ends]) (by rw [Layout.pretty]; omega)
  rw [List.append_nil] at hread
  rw [Syntax.read?]
  rw [Layout.pretty] at hread ⊢
  rw [hread]
  rfl

end BlockMachine.Json
