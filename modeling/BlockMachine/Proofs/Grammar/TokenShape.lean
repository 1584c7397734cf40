import BlockMachine.Grammar.Kinds
import BlockMachine.Proofs.Pattern.Language

/-!
# The shape of tokens

A token may hold blanks, braces and quotes, so where it ends is not seen by looking for a blank. But
tokens come in few shapes, and a scanner that knows these shapes alone, and none of the kinds, finds
the end of each.

* `Token` — the shapes;
* `scan` — the scanner, `Token.scan_eq` — it finds the token in front of a blank;
* `Kind.token_of_matches` — the built-in kinds are written in these shapes, but for objects that are
  written with their contents;
* `Token.eq_of_matches` — so only one front part of a text can be its first token.
-/

namespace BlockMachine

/-! ## Words -/

namespace Pattern

@[simp] theorem matches_char {c : Char} {u : List Char} : (Pattern.char c).Matches u ↔ u = [c] :=
  Iff.rfl

@[simp] theorem matches_group {p : Pattern} {u : List Char} : p.group.Matches u ↔ p.Matches u :=
  Iff.rfl

theorem matches_sequence_char {cs u : List Char} :
    (sequence (cs.map .char)).Matches u ↔ u = cs := by
  induction cs generalizing u with
  | nil => rfl
  | cons c cs ih =>
    cases cs with
    | nil => rfl
    | cons d cs =>
      constructor
      · rintro ⟨v, w, rfl, rfl, hw⟩
        rw [ih.1 hw]
        rfl
      · rintro rfl
        exact ⟨[c], d :: cs, rfl, rfl, ih.2 rfl⟩

/-- A word matches itself. -/
@[simp] theorem matches_word {s : String} {u : List Char} :
    (word s).Matches u ↔ u = s.toList :=
  matches_sequence_char

/-- Whether a pattern matches the empty text. -/
def nullable : Pattern → Bool
  | .empty | .optional _ | .star _ | .lazyStar _ => true
  | .char _ | .any | .oneIn .. => false
  | .seq p q => p.nullable && q.nullable
  | .alt p q => p.nullable || q.nullable
  | .group p | .plus p => p.nullable

theorem nullable_of_matches {p : Pattern} (h : p.Matches []) : p.nullable = true := by
  induction p with
  | empty | optional | star | lazyStar => rfl
  | char => cases h
  | any | oneIn =>
    obtain ⟨c, -, hc⟩ := h
    cases hc
  | seq p q ihp ihq =>
    obtain ⟨v, w, huv, hv, hw⟩ := h
    obtain ⟨rfl, rfl⟩ := List.append_eq_nil_iff.1 huv.symm
    simp [nullable, ihp hv, ihq hw]
  | alt p q ihp ihq =>
    rcases h with h | h
    · simp [nullable, ihp h]
    · simp [nullable, ihq h]
  | group p ih => exact ih h
  | plus p ih =>
    obtain ⟨v, w, huv, hv, -⟩ := h
    obtain ⟨rfl, rfl⟩ := List.append_eq_nil_iff.1 huv.symm
    exact ih hv

end Pattern

/-! ## Plain characters -/

/-- The characters that open something inside a token, and the braces around a body. -/
def markers : List Char :=
  ['\x22', '[', '\x7b', '\x7d']

/-- Whether a character neither ends a token nor opens something inside it. -/
def plainChar (c : Char) : Bool :=
  !Text.isBlank c && !markers.contains c

theorem plainChar_iff {c : Char} :
    plainChar c = true ↔ Text.isBlank c = false ∧ c ∉ markers := by
  simp [plainChar]

/-- Whether a part of a class holds plain characters only. -/
def ClassItem.isPlain : ClassItem → Bool
  | .char c => plainChar c
  | .range lo hi =>
    Text.blankPoints.all (fun n => !(decide (lo.toNat ≤ n) && decide (n ≤ hi.toNat)))
      && markers.all (fun d => !(decide (lo ≤ d) && decide (d ≤ hi)))
  | .blank => false

theorem ClassItem.plainChar_of_accepts {item : ClassItem} {c : Char} (h : item.isPlain = true)
    (hc : item.accepts c = true) : plainChar c = true := by
  cases item with
  | char d =>
    obtain rfl : c = d := by simpa [accepts] using hc
    exact h
  | blank => cases h
  | range lo hi =>
    obtain ⟨hlo, hhi⟩ : lo ≤ c ∧ c ≤ hi := by simpa [accepts] using hc
    simp only [isPlain, Bool.and_eq_true, List.all_eq_true, Bool.not_eq_true', Bool.and_eq_false_iff,
      decide_eq_false_iff_not] at h
    rw [plainChar_iff]
    constructor
    · rw [← Bool.not_eq_true]
      intro hblank
      have hmem : c.toNat ∈ Text.blankPoints := by simpa [Text.isBlank] using hblank
      rcases h.1 _ hmem with hn | hn
      · exact hn hlo
      · exact hn hhi
    · intro hmem
      rcases h.2 c hmem with hn | hn
      · exact hn hlo
      · exact hn hhi

/-- Whether a pattern takes plain characters only. -/
def Pattern.isPlain : Pattern → Bool
  | .empty => true
  | .char c => plainChar c
  | .any => false
  | .oneIn false items => items.all ClassItem.isPlain
  | .oneIn true items => items.contains .blank && markers.all fun d => items.contains (.char d)
  | .seq p q | .alt p q => p.isPlain && q.isPlain
  | .group p | .optional p | .star p | .lazyStar p | .plus p => p.isPlain

theorem Pattern.Repeated.forall_mem {P : List Char → Prop} {test : Char → Prop} {u : List Char}
    (h : Repeated P u) (hP : ∀ v, P v → ∀ c ∈ v, test c) : ∀ c ∈ u, test c := by
  induction h with
  | nil => simp
  | cons part _ _ ih =>
    intro c hc
    rcases List.mem_append.1 hc with hc | hc
    · exact hP _ part c hc
    · exact ih c hc

/-- What a plain pattern matches is plain. -/
theorem Pattern.plainChar_of_matches {p : Pattern} {u : List Char} (hp : p.isPlain = true)
    (h : p.Matches u) : ∀ c ∈ u, plainChar c = true := by
  induction p generalizing u with
  | empty =>
    obtain rfl : u = [] := h
    simp
  | char d =>
    obtain rfl : u = [d] := h
    simpa [isPlain] using hp
  | any => cases hp
  | oneIn negated items =>
    obtain ⟨c, hc, rfl⟩ := h
    suffices hplain : plainChar c = true by simpa using hplain
    cases negated with
    | false =>
      obtain ⟨item, hmem, hitem⟩ : ∃ item ∈ items, item.accepts c = true := by simpa using hc
      exact ClassItem.plainChar_of_accepts (List.all_eq_true.1 hp item hmem) hitem
    | true =>
      have hnone : ∀ item ∈ items, item.accepts c = false := by simpa using hc
      simp only [isPlain, Bool.and_eq_true, List.contains_iff_mem, List.all_eq_true] at hp
      rw [plainChar_iff]
      refine ⟨hnone .blank hp.1, fun hmem => ?_⟩
      simpa [ClassItem.accepts] using hnone _ (hp.2 c hmem)
  | seq p q ihp ihq =>
    obtain ⟨v, w, rfl, hv, hw⟩ := h
    obtain ⟨hp, hq⟩ : p.isPlain = true ∧ q.isPlain = true := by simpa [isPlain] using hp
    intro c hc
    rcases List.mem_append.1 hc with hc | hc
    · exact ihp hp hv c hc
    · exact ihq hq hw c hc
  | alt p q ihp ihq =>
    obtain ⟨hp, hq⟩ : p.isPlain = true ∧ q.isPlain = true := by simpa [isPlain] using hp
    rcases h with h | h
    · exact ihp hp h
    · exact ihq hq h
  | group p ih => exact ih hp h
  | optional p ih =>
    rcases h with h | rfl
    · exact ih hp h
    · simp
  | star p ih | lazyStar p ih => exact Repeated.forall_mem h fun v hv => ih hp hv
  | plus p ih =>
    obtain ⟨v, w, rfl, hv, hw⟩ := h
    intro c hc
    rcases List.mem_append.1 hc with hc | hc
    · exact ih hp hv c hc
    · exact Repeated.forall_mem hw (fun v hv => ih hp hv) c hc

/-! ## The scanner -/

/-- The text up to the closing quote and with it; a backslash takes the next character along. -/
def toQuote : List Char → List Char
  | '\\' :: c :: rest => '\\' :: c :: toQuote rest
  | '\x22' :: _ => ['\x22']
  | c :: rest => c :: toQuote rest
  | [] => []

/-- The token at the front of a text, if a blank is behind it. It begins with plain characters; then
comes a text in quotes or in brackets, or nothing. An object that is written with its contents is
not looked into. -/
def scan (s : List Char) : List Char :=
  let front := s.takeWhile plainChar
  match s.dropWhile plainChar with
  | '\x22' :: rest =>
    if front = [] then '\x22' :: toQuote rest
    else front ++ '\x22' :: rest.takeWhile (· != '\x22') ++ ['\x22', ')']
  | '[' :: rest =>
    if front = [] ∧ rest.head? = some '\x22' then '[' :: '\x22' :: toQuote rest.tail ++ [']']
    else
      let inner := rest.takeWhile (· != ']')
      if front = "Object".toList ∧ ',' ∈ inner then [] else front ++ '[' :: inner ++ [']']
  | _ => front

/-- The inside of a text in quotes: up to a quote that no backslash takes along. -/
def Quoted (inside : List Char) : Prop :=
  Pattern.quotedInside.Matches inside

/-- The shapes of tokens. -/
inductive Token : List Char → Prop where
  | plain {u : List Char} (filled : u ≠ []) (plain : ∀ c ∈ u, plainChar c = true) : Token u
  | quoted {inside : List Char} (quoted : Quoted inside) : Token ('\x22' :: inside ++ ['\x22'])
  | error {message : List Char} (quoteless : '\x22' ∉ message) :
      Token ("Err(".toList ++ '\x22' :: message ++ ['\x22', ')'])
  | bracketed {front inner : List Char} (plain : ∀ c ∈ front, plainChar c = true)
      (closed : ']' ∉ inner) (quoteless : front = [] → '\x22' ∉ inner)
      (simple : front = "Object".toList → ',' ∉ inner) : Token (front ++ '[' :: inner ++ [']'])
  | packed {inside : List Char} (quoted : Quoted inside) :
      Token ('[' :: '\x22' :: inside ++ ['\x22', ']'])

theorem toQuote_append {inside : List Char} (h : Quoted inside) (rest : List Char) :
    toQuote (inside ++ '\x22' :: rest) = inside ++ ['\x22'] := by
  replace h : Pattern.Repeated _ inside := h
  induction h with
  | nil => rfl
  | cons part _ _ ih =>
    rcases part with ⟨c, hc, rfl⟩ | ⟨_, _, rfl, rfl, c, hc, rfl⟩
    · -- neither a backslash nor a quote
      obtain ⟨hback, hquote⟩ : c ≠ '\\' ∧ c ≠ '\x22' := by simpa [ClassItem.accepts] using hc
      simp [toQuote, hback, ih]
    · simp [toQuote, ih]

section

variable {front rest : List Char} {x : Char}

theorem takeWhile_stop {test : Char → Bool} (hfront : ∀ c ∈ front, test c = true)
    (hx : test x = false) : (front ++ x :: rest).takeWhile test = front := by
  rw [List.takeWhile_append_of_pos hfront]
  simp [hx]

theorem dropWhile_stop {test : Char → Bool} (hfront : ∀ c ∈ front, test c = true)
    (hx : test x = false) : (front ++ x :: rest).dropWhile test = x :: rest := by
  rw [List.dropWhile_append_of_pos hfront]
  simp [hx]

/-- The first character that fails a test divides a text in one way only. -/
theorem front_unique {test : Char → Bool} {front' rest' : List Char}
    (hfront : ∀ c ∈ front, test c = true) (hrest : ∀ c ∈ rest.head?, test c = false)
    (hfront' : ∀ c ∈ front', test c = true) (hrest' : ∀ c ∈ rest'.head?, test c = false)
    (h : front ++ rest = front' ++ rest') : front = front' ∧ rest = rest' := by
  have hstop : ∀ {s : List Char}, (∀ c ∈ s.head?, test c = false) → s.takeWhile test = [] := by
    intro s hs
    cases s with
    | nil => rfl
    | cons c s => simp [hs c rfl]
  have hfronts : front = front' := by
    have htake := congrArg (List.takeWhile test) h
    simpa [List.takeWhile_append_of_pos hfront, List.takeWhile_append_of_pos hfront', hstop hrest,
      hstop hrest'] using htake
  exact ⟨hfronts, List.append_cancel_left (hfronts ▸ h)⟩

end

/-- **The scanner finds the token in front of a blank.** -/
theorem Token.scan_eq {u : List Char} {c : Char} (h : Token u) (hc : Text.isBlank c = true)
    (rest : List Char) : scan (u ++ c :: rest) = u := by
  have hblank : plainChar c = false := by simp [plainChar, hc]
  cases h with
  | plain filled plain =>
    have hnot : c ≠ '\x22' ∧ c ≠ '[' := by
      constructor <;> (rintro rfl; revert hc; decide)
    simp [scan, takeWhile_stop plain hblank, dropWhile_stop plain hblank, hnot]
  | @quoted inside quoted =>
    have htext : '\x22' :: inside ++ ['\x22'] ++ c :: rest
        = '\x22' :: (inside ++ '\x22' :: (c :: rest)) := by simp
    have hquote : plainChar '\x22' = false := by decide
    rw [htext, scan, List.takeWhile_cons_of_neg (by simp [hquote]),
      List.dropWhile_cons_of_neg (by simp [hquote])]
    simp [toQuote_append quoted]
  | @error message quoteless =>
    have htext : "Err(".toList ++ '\x22' :: message ++ ['\x22', ')'] ++ c :: rest
        = "Err(".toList ++ '\x22' :: (message ++ '\x22' :: (')' :: c :: rest)) := by simp
    have hfront : ∀ d ∈ "Err(".toList, plainChar d = true := List.all_eq_true.1 rfl
    have hquote : plainChar '\x22' = false := by decide
    have hmessage : ∀ d ∈ message, (d != '\x22') = true := by
      intro d hd
      exact bne_iff_ne.2 fun hdq => quoteless (hdq ▸ hd)
    rw [htext, scan, takeWhile_stop hfront hquote, dropWhile_stop hfront hquote]
    simp [takeWhile_stop hmessage]
  | @bracketed front inner plain closed quoteless simple =>
    have htext : front ++ '[' :: inner ++ [']'] ++ c :: rest
        = front ++ '[' :: (inner ++ ']' :: (c :: rest)) := by simp
    have hopen : plainChar '[' = false := by decide
    have hinner : ∀ d ∈ inner, (d != ']') = true := by
      intro d hd
      exact bne_iff_ne.2 fun hdq => closed (hdq ▸ hd)
    have hhead : ¬(front = [] ∧ (inner ++ ']' :: (c :: rest)).head? = some '\x22') := by
      rintro ⟨hnil, hhead⟩
      cases inner with
      | nil => simp at hhead
      | cons d inner => exact quoteless hnil (by simp_all)
    have hsimple : ¬(front = "Object".toList ∧ ',' ∈ inner) := fun h => simple h.1 h.2
    rw [htext, scan, takeWhile_stop plain hopen, dropWhile_stop plain hopen]
    simp only [if_neg hhead, takeWhile_stop hinner (by decide : (']' != ']') = false),
      if_neg hsimple]
  | @packed inside quoted =>
    have htext : '[' :: '\x22' :: inside ++ ['\x22', ']'] ++ c :: rest
        = '[' :: '\x22' :: (inside ++ '\x22' :: (']' :: c :: rest)) := by simp
    have hopen : plainChar '[' = false := by decide
    rw [htext, scan, List.takeWhile_cons_of_neg (by simp [hopen]),
      List.dropWhile_cons_of_neg (by simp [hopen])]
    simp [toQuote_append quoted]

/-- So a text has only one first token. -/
theorem Token.unique {u v rest more : List Char} {c d : Char} (hu : Token u) (hv : Token v)
    (hc : Text.isBlank c = true) (hd : Text.isBlank d = true)
    (h : u ++ c :: rest = v ++ d :: more) : u = v := by
  rw [← hu.scan_eq hc rest, h, hv.scan_eq hd]

theorem Token.ne_nil {u : List Char} (h : Token u) : u ≠ [] := by
  cases h with
  | plain filled _ => exact filled
  | quoted _ | error _ | bracketed _ _ _ _ | packed _ => simp

/-- A token neither begins with a blank nor with a closing brace. -/
theorem Token.head {u : List Char} (h : Token u) :
    ∃ c v, u = c :: v ∧ Text.isBlank c = false ∧ c ≠ '\x7d' := by
  cases h with
  | plain filled plain =>
    obtain ⟨c, v, rfl⟩ := List.exists_cons_of_ne_nil filled
    obtain ⟨hblank, hmark⟩ := plainChar_iff.1 (plain c List.mem_cons_self)
    exact ⟨c, v, rfl, hblank, fun h => hmark (by simp [h, markers])⟩
  | quoted _ => exact ⟨'\x22', _, rfl, by decide, by decide⟩
  | error _ => exact ⟨'E', _, rfl, by decide, by decide⟩
  | @bracketed front inner plain _ _ _ =>
    cases front with
    | nil => exact ⟨'[', _, rfl, by decide, by decide⟩
    | cons c front =>
      obtain ⟨hblank, hmark⟩ := plainChar_iff.1 (plain c List.mem_cons_self)
      exact ⟨c, _, rfl, hblank, fun h => hmark (by simp [h, markers])⟩
  | packed _ => exact ⟨'[', _, rfl, by decide, by decide⟩

/-- A token does not end with a blank. -/
theorem Token.last {u : List Char} (h : Token u) :
    ∃ v c, u = v ++ [c] ∧ Text.isBlank c = false := by
  cases h with
  | plain filled plain =>
    refine ⟨u.dropLast, u.getLast filled, (List.dropLast_concat_getLast filled).symm, ?_⟩
    exact (plainChar_iff.1 (plain _ (List.getLast_mem filled))).1
  | @quoted inside _ => exact ⟨'\x22' :: inside, '\x22', rfl, by decide⟩
  | @error message _ =>
    exact ⟨"Err(".toList ++ '\x22' :: message ++ ['\x22'], ')', by simp, by decide⟩
  | @bracketed front inner _ _ _ _ => exact ⟨front ++ '[' :: inner, ']', rfl, by decide⟩
  | @packed inside _ => exact ⟨'[' :: '\x22' :: inside ++ ['\x22'], ']', by simp, by decide⟩

/-! ## The kinds -/

namespace Pattern

/-- A repeated class of characters. -/
theorem matches_star_oneIn {negated : Bool} {items : List ClassItem} {u : List Char} :
    (Pattern.star (.oneIn negated items)).Matches u
      ↔ ∀ c ∈ u, (negated != items.any (ClassItem.accepts c)) = true :=
  repeated_char_iff

theorem matches_plus_oneIn {negated : Bool} {items : List ClassItem} {u : List Char} :
    (Pattern.plus (.oneIn negated items)).Matches u
      ↔ u ≠ [] ∧ ∀ c ∈ u, (negated != items.any (ClassItem.accepts c)) = true := by
  constructor
  · rintro ⟨_, w, rfl, ⟨c, hc, rfl⟩, hw⟩
    exact ⟨by simp, List.forall_mem_cons.2 ⟨hc, repeated_char_iff.1 hw⟩⟩
  · rintro ⟨hne, h⟩
    obtain ⟨c, w, rfl⟩ := List.exists_cons_of_ne_nil hne
    obtain ⟨hc, hw⟩ := List.forall_mem_cons.1 h
    exact ⟨[c], w, rfl, ⟨c, hc, rfl⟩, repeated_char_iff.2 hw⟩

theorem matches_noBrackets {u : List Char} :
    noBrackets.Matches u ↔ ∀ c ∈ u, c ≠ '[' ∧ c ≠ ']' := by
  simp [noBrackets, matches_star_oneIn, ClassItem.accepts]

theorem matches_quotedText {u : List Char} :
    quotedText.Matches u ↔ ∃ inside, u = '\x22' :: inside ++ ['\x22'] ∧ Quoted inside := by
  constructor
  · rintro ⟨_, _, rfl, rfl, inside, _, rfl, hinside, rfl⟩
    exact ⟨inside, rfl, hinside⟩
  · rintro ⟨inside, rfl, hinside⟩
    exact ⟨['\x22'], _, rfl, rfl, inside, ['\x22'], rfl, hinside, rfl⟩

end Pattern

/-- An object that is written with its contents. -/
def Extended (u : List Char) : Prop :=
  ∃ id contents, u = "Object".toList ++ '[' :: (id ++ ',' :: contents) ∧ ']' ∉ id

/-- The scanner does not take such an object for a token. -/
theorem Extended.scan_eq {u : List Char} (h : Extended u) (rest : List Char) :
    scan (u ++ rest) = [] := by
  obtain ⟨id, contents, rfl, hid⟩ := h
  have hfront : ∀ d ∈ "Object".toList, plainChar d = true := List.all_eq_true.1 rfl
  have hopen : plainChar '[' = false := by decide
  have hmem : ',' ∈ (id ++ ',' :: (contents ++ rest)).takeWhile (· != ']') := by
    have hpass : ∀ d ∈ id, (d != ']') = true := by
      intro d hd
      exact bne_iff_ne.2 fun hdq => hid (hdq ▸ hd)
    rw [List.takeWhile_append_of_pos hpass]
    simp
  rw [List.append_assoc, List.cons_append, scan, takeWhile_stop hfront hopen,
    dropWhile_stop hfront hopen, List.append_assoc, List.cons_append]
  change (if _ = [] ∧ _ then _ else if _ ∧ _ then _ else _) = _
  rw [if_neg (fun h => absurd h.1 (by decide)), if_pos ⟨rfl, hmem⟩]

theorem Extended.mem {u : List Char} (h : Extended u) : ',' ∈ u := by
  obtain ⟨id, contents, rfl, -⟩ := h
  simp

namespace Kind

/-- Kinds whose tokens may hold more than plain characters. -/
def opening : List Kind :=
  [.error, .string, .memoryReference, .memory, .package, .getSymbol, .setSymbol, .color]

theorem isPlain_or_opening : ∀ k ∈ all, k.pattern.isPlain = true ∨ k ∈ opening := by
  decide +kernel

theorem not_nullable : ∀ k ∈ all, k.pattern.nullable = false := by
  decide +kernel

theorem token_of_isPlain {k : Kind} (hk : k ∈ all) (hplain : k.pattern.isPlain = true)
    {u : List Char} (h : k.pattern.Matches u) : Token u := by
  refine .plain (fun hu => ?_) (Pattern.plainChar_of_matches hplain h)
  subst hu
  have hnull := not_nullable k hk
  rw [Pattern.nullable_of_matches h] at hnull
  cases hnull

theorem token_of_error {u : List Char} (h : Kind.error.pattern.Matches u) : Token u := by
  obtain ⟨_, w, rfl, hfront, hw⟩ := h
  obtain rfl := Pattern.matches_word.1 hfront
  rcases hw with ⟨_, _, rfl, hopen, message, _, rfl, hmessage, hclose⟩ | rfl
  · obtain rfl := Pattern.matches_word.1 hopen
    obtain rfl := Pattern.matches_word.1 hclose
    have hquoteless : '\x22' ∉ message := by
      intro hmem
      have := Pattern.matches_star_oneIn.1 hmessage _ hmem
      revert this
      decide
    have htext : "Err".toList ++ ("(\"".toList ++ (message ++ "\")".toList))
        = "Err(".toList ++ '\x22' :: message ++ ['\x22', ')'] := by simp
    rw [htext]
    exact .error hquoteless
  · exact .plain (by decide) (List.all_eq_true.1 rfl)

/-- What the name of an object is written with. -/
def identChar (c : Char) : Bool :=
  [ClassItem.range '0' '9', .range 'A' 'Z', .range 'a' 'z', .char '_'].any (ClassItem.accepts c)

/-- An object is written with its contents or without; the contents are on one line. -/
theorem matches_memory {u : List Char} :
    Kind.memory.pattern.Matches u ↔ ∃ id, (∀ c ∈ id, identChar c = true) ∧
      (u = "Object[".toList ++ id ++ [']'] ∨ ∃ contents, '\n' ∉ contents ∧
        u = "Object[".toList ++ id ++ ", \x7b".toList ++ contents ++ ['\x7d', ']']) := by
  constructor
  · rintro ⟨_, _, rfl, hfront, id, _, rfl, hid, w, _, rfl, hw, rfl⟩
    obtain rfl := Pattern.matches_word.1 hfront
    refine ⟨id, fun c hc => by simpa [identChar] using Pattern.matches_star_oneIn.1 hid c hc, ?_⟩
    rcases hw with ⟨_, _, rfl, hopen, contents, _, rfl, hcontents, rfl⟩ | rfl
    · obtain rfl := Pattern.matches_word.1 hopen
      refine .inr ⟨contents, fun hmem => ?_, by simp⟩
      have := Pattern.repeated_char_iff.1 hcontents _ hmem
      revert this
      decide
    · exact .inl (by simp)
  · rintro ⟨id, hid, hu⟩
    have hid : (Pattern.star (.oneIn false
        [.range '0' '9', .range 'A' 'Z', .range 'a' 'z', .char '_'])).Matches id :=
      Pattern.matches_star_oneIn.2 fun c hc => by simpa [identChar] using hid c hc
    rcases hu with rfl | ⟨contents, hcontents, rfl⟩
    · refine ⟨_, id ++ [']'], by simp, Pattern.matches_word.2 rfl, id, [']'], rfl, hid, [], [']'],
        rfl, .inr rfl, rfl⟩
    · have hany : (Pattern.star .any).Matches contents :=
        Pattern.repeated_char_iff.2 fun c hc => bne_iff_ne.2 fun heq => hcontents (heq ▸ hc)
      refine ⟨_, id ++ (", \x7b".toList ++ (contents ++ ['\x7d']) ++ [']']), by simp,
        Pattern.matches_word.2 rfl, id, _, rfl, hid, _, [']'], rfl, .inl ?_, rfl⟩
      exact ⟨_, _, rfl, Pattern.matches_word.2 rfl, contents, ['\x7d'], rfl, hany, rfl⟩

theorem token_of_memory {u : List Char} (h : Kind.memory.pattern.Matches u) :
    Token u ∨ Extended u := by
  obtain ⟨id, hid, hu⟩ := matches_memory.1 h
  have hclosed : ']' ∉ id := fun hmem => absurd (hid _ hmem) (by decide)
  have hsimple : ',' ∉ id := fun hmem => absurd (hid _ hmem) (by decide)
  rcases hu with rfl | ⟨contents, -, rfl⟩
  · have htext : "Object[".toList ++ id ++ [']'] = "Object".toList ++ '[' :: id ++ [']'] := by simp
    rw [htext]
    exact .inl (.bracketed (List.all_eq_true.1 rfl) hclosed (fun h => absurd h (by decide))
      fun _ => hsimple)
  · refine .inr ⟨id, [' ', '\x7b'] ++ contents ++ ['\x7d', ']'], ?_, hclosed⟩
    simp

theorem token_of_package {u : List Char} (h : Kind.package.pattern.Matches u) : Token u := by
  rcases h with ⟨_, _, rfl, rfl, inner, _, rfl, hinner, rfl⟩ | ⟨_, _, rfl, rfl, v, _, rfl, hv, rfl⟩
  · have hinner := Pattern.matches_star_oneIn.1 hinner
    have hnone : ∀ c ∈ inner, c ≠ '\x22' ∧ c ≠ ']' := by
      intro c hc
      constructor <;>
      · rintro rfl
        have := hinner _ hc
        revert this
        decide
    have htext : ['['] ++ (inner ++ [']']) = [] ++ '[' :: inner ++ [']'] := by simp
    rw [htext]
    exact .bracketed (by simp) (fun h => (hnone _ h).2 rfl) (fun _ h => (hnone _ h).1 rfl)
      fun h => absurd h (by decide)
  · obtain ⟨inside, rfl, hinside⟩ := Pattern.matches_quotedText.1 hv
    have htext : ['['] ++ ('\x22' :: inside ++ ['\x22'] ++ [']'])
        = '[' :: '\x22' :: inside ++ ['\x22', ']'] := by simp
    rw [htext]
    exact .packed hinside

/-- A word that is not `Object`, and brackets around a text without brackets. -/
theorem token_of_brackets {word : String} (front : List Char) {u : List Char}
    (h : (Pattern.sequence [Pattern.word word, .noBrackets, .char ']']).Matches u)
    (hword : word.toList = front ++ ['[']) (hplain : ∀ c ∈ front, plainChar c = true)
    (hne : front ≠ []) (hobject : front ≠ "Object".toList) : Token u := by
  obtain ⟨_, _, rfl, hfront, inner, _, rfl, hinner, rfl⟩ := h
  have hinner := Pattern.matches_noBrackets.1 hinner
  have htext : front ++ ['['] ++ (inner ++ [']']) = front ++ '[' :: inner ++ [']'] := by simp
  rw [Pattern.matches_word.1 hfront, hword, htext]
  exact .bracketed hplain (fun h => (hinner _ h).2 rfl) (fun h => absurd h hne)
    fun h => absurd h hobject

theorem digit_not_closing {c : Char}
    (h : (false != [ClassItem.range '0' '9'].any (ClassItem.accepts c)) = true) : c ≠ ']' := by
  rintro rfl
  revert h
  decide

theorem token_of_color {u : List Char} (h : Kind.color.pattern.Matches u) : Token u := by
  obtain ⟨_, _, rfl, hfront, r, _, rfl, hr, _, _, rfl, rfl, g, _, rfl, hg, _, _, rfl, rfl, b, _, rfl,
    hb, rfl⟩ := h
  obtain rfl := Pattern.matches_word.1 hfront
  have hr := (Pattern.matches_plus_oneIn.1 hr).2
  have hg := (Pattern.matches_plus_oneIn.1 hg).2
  have hb := (Pattern.matches_plus_oneIn.1 hb).2
  have htext : "Color[".toList ++ (r ++ ([','] ++ (g ++ ([','] ++ (b ++ [']'])))))
      = "Color".toList ++ '[' :: (r ++ ',' :: g ++ ',' :: b) ++ [']'] := by simp
  have hclosed : ']' ∉ r ++ ',' :: g ++ ',' :: b := by
    simp only [List.mem_append, List.mem_cons]
    rintro ((hc | hc | hc) | hc | hc)
    · exact digit_not_closing (hr _ hc) rfl
    · cases hc
    · exact digit_not_closing (hg _ hc) rfl
    · cases hc
    · exact digit_not_closing (hb _ hc) rfl
  rw [htext]
  exact .bracketed (List.all_eq_true.1 rfl) hclosed (fun h => absurd h (by decide))
    fun h => absurd h (by decide)

/-- **The shapes cover the kinds.** What a built-in kind matches is a token, unless it is an object
that is written with its contents. -/
theorem token_of_matches {k : Kind} (hk : k ∈ all) {u : List Char} (h : k.pattern.Matches u) :
    Token u ∨ k = .memory ∧ Extended u := by
  rcases isPlain_or_opening k hk with hplain | hopening
  · exact .inl (token_of_isPlain hk hplain h)
  · simp only [opening, List.mem_cons, List.not_mem_nil, or_false] at hopening
    rcases hopening with rfl | rfl | rfl | rfl | rfl | rfl | rfl | rfl
    · exact .inl (token_of_error h)
    · obtain ⟨inside, rfl, hinside⟩ := Pattern.matches_quotedText.1 h
      exact .inl (.quoted hinside)
    · exact .inl (token_of_brackets "MemRef".toList h rfl (List.all_eq_true.1 rfl) (by decide)
        (by decide))
    · exact (token_of_memory h).imp_right fun h => ⟨rfl, h⟩
    · exact .inl (token_of_package h)
    · exact .inl (token_of_brackets "Get".toList h rfl (List.all_eq_true.1 rfl) (by decide)
        (by decide))
    · exact .inl (token_of_brackets "Set".toList h rfl (List.all_eq_true.1 rfl) (by decide)
        (by decide))
    · exact .inl (token_of_color h)

/-- What a kind matches neither begins with a blank nor with a closing brace. -/
theorem head_of_matches {k : Kind} (hk : k ∈ all) {u : List Char} (h : k.pattern.Matches u) :
    ∃ c v, u = c :: v ∧ Text.isBlank c = false ∧ c ≠ '\x7d' := by
  rcases token_of_matches hk h with htoken | ⟨-, id, contents, rfl, -⟩
  · exact htoken.head
  · exact ⟨'O', _, rfl, by decide, by decide⟩

/-- What a kind matches does not end with a blank. -/
theorem last_of_matches {k : Kind} (hk : k ∈ all) {u : List Char} (h : k.pattern.Matches u) :
    ∃ v c, u = v ++ [c] ∧ Text.isBlank c = false := by
  rcases token_of_matches hk h with htoken | ⟨rfl, -⟩
  · exact htoken.last
  · obtain ⟨id, -, rfl | ⟨contents, -, rfl⟩⟩ := matches_memory.1 h
    · exact ⟨_, ']', rfl, by decide⟩
    · exact ⟨_, ']', (List.append_assoc _ ['\x7d'] [']']).symm, by decide⟩

end Kind

/-- **One first token.** In a text that begins with a token and a blank, no kind matches another
front part that has a blank behind it. -/
theorem Token.eq_of_matches {k : Kind} (hk : k ∈ Kind.all) {u v rest more : List Char} {c d : Char}
    (hu : Token u) (hc : Text.isBlank c = true) (hv : k.pattern.Matches v)
    (hd : Text.isBlank d = true) (h : u ++ c :: rest = v ++ d :: more) : v = u := by
  rcases Kind.token_of_matches hk hv with hv | ⟨-, hv⟩
  · exact (hu.unique hv hc hd h).symm
  · have hscan := hu.scan_eq hc rest
    rw [h, hv.scan_eq] at hscan
    exact absurd hscan.symm hu.ne_nil

end BlockMachine
