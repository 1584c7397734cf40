import BlockMachine.Proofs.Fraction.Rereading
import BlockMachine.Proofs.Grammar.FirstCharacters

/-!
# Ranges of random literals

The bounds of a random literal are divided at the first minus sign behind the first character, which
leaves out the sign of the lower bound. The only other minus sign in a bound is that of an exponent:
there the bounds are divided at the wrong place, and neither half is a number. Commas keep a bound
from being read as well, though a number on its own may have them.

* `bound_cases` — the minus signs of a bound;
* `Literal.readBounds_eq` — how bounds are divided, `Literal.readFloat_bound` — how each is read;
* `RandomKind` — the two kinds of literals with bounds, `RandomKind.matches_iff` — their texts;
* `RandomKind.literal_written` — finite bounds are read again;
* `Environment.random_range_iff` — which literals have the range that they were written with, and
  which ranges survive being written and read.
-/

namespace BlockMachine

open Decimal (isDigit AllDigits isWhole plain read?)

/-! ## Dividing the bounds -/

/-- The mantissa of a bound. -/
theorem mantissa_cases {g p d : List Char} (hg : Pattern.groupedDigits.Matches g)
    (hp : (Pattern.optional (.char '.')).Matches p) (hd : (Pattern.star .digit).Matches d) :
    ∃ c m, g ++ (p ++ d) = c :: m ∧ (isDigit c = true ∨ c = ',') ∧
      ∀ x ∈ c :: m, isDigit x = true ∨ x = ',' ∨ x = '.' := by
  obtain ⟨hne, hg⟩ := Pattern.matches_plus_oneIn.1 hg
  have hg : ∀ x ∈ g, isDigit x = true ∨ x = ',' := by
    intro x hx
    simpa [ClassItem.accepts, isDigit] using hg x hx
  have hd := Pattern.matches_star_digit.1 hd
  obtain ⟨c, g, rfl⟩ := List.exists_cons_of_ne_nil hne
  refine ⟨c, g ++ (p ++ d), rfl, hg c List.mem_cons_self, fun x hx => ?_⟩
  rw [← List.cons_append, List.mem_append, List.mem_append] at hx
  rcases hx with hx | hx | hx
  · exact (hg x hx).imp_right .inl
  · rcases hp with rfl | rfl
    · exact .inr (.inr (List.mem_singleton.1 hx))
    · cases hx
  · exact .inl (hd x hx)

/-- The text up to the minus sign of an exponent is no number. -/
theorem read?_dangling {c e : Char} {m : List Char} (he : e = 'e' ∨ e = 'E')
    (hc : isDigit c = true ∨ c = ',') (hm : ∀ x ∈ c :: m, isDigit x = true ∨ x = ',' ∨ x = '.') :
    read? (c :: m ++ [e]) = none ∧ read? ('-' :: (c :: m ++ [e])) = none := by
  by_cases hcomma : ',' ∈ c :: m
  · have hmem : ',' ∈ c :: m ++ [e] := List.mem_append_left _ hcomma
    exact ⟨Decimal.read?_of_comma hmem, Decimal.read?_of_comma (List.mem_cons_of_mem _ hmem)⟩
  · have hplain : ∀ x ∈ c :: m, isDigit x = true ∨ x = '.' := by
      intro x hx
      rcases hm x hx with h | rfl | h
      · exact .inl h
      · exact absurd hx hcomma
      · exact .inr h
    have hdigit : isDigit c = true := hc.resolve_right fun h => hcomma (h ▸ List.mem_cons_self)
    have hhead : ∃ x ∈ (c :: m ++ [e]).head?, isDigit x = true := ⟨c, rfl, hdigit⟩
    have hnone := Decimal.readMagnitude?_dangling he hplain
    constructor
    · rw [Decimal.read?_digit hhead, hnone]
    · rw [Decimal.read?_minus hhead, hnone]
      rfl

/-- The minus sign of an exponent. -/
theorem exponent_cases {x : List Char} (hx : Pattern.optionalExponent.Matches x) : '-' ∉ x ∨
    ∃ e ds, x = e :: '-' :: ds ∧ (e = 'e' ∨ e = 'E') ∧ ds ≠ [] ∧ AllDigits ds := by
  rcases hx with ⟨_, _, rfl, ⟨e, he, rfl⟩, s, ds, rfl, hs, hds⟩ | rfl
  · have he : e = 'e' ∨ e = 'E' := by simpa [ClassItem.accepts] using he
    obtain ⟨hne, hds⟩ := Pattern.matches_plus_digit.1 hds
    have hletter : '-' ≠ e := by
      rcases he with rfl | rfl <;> decide
    have hdash : '-' ∉ ds := fun hmem => absurd (hds _ hmem) (by decide)
    rcases hs with ⟨c, hc, rfl⟩ | rfl
    · have hc : c = '+' ∨ c = '-' := by simpa [ClassItem.accepts] using hc
      rcases hc with rfl | rfl
      · exact .inl (by simp [hletter, hdash])
      · exact .inr ⟨e, ds, rfl, he, hne, hds⟩
    · exact .inl (by simp [hletter, hdash])
  · exact .inl List.not_mem_nil

/-- **Minus signs in bounds.** Behind its first character a bound has no minus sign but that of an
exponent, and what is in front of that is no number. -/
theorem bound_cases {a : List Char} (ha : Pattern.decimalNumber.Matches a) : ∃ c t, a = c :: t ∧
    ('-' ∉ t ∨ ∃ p q, t = p ++ '-' :: q ∧ '-' ∉ p ∧ read? (c :: p) = none ∧ q ≠ [] ∧
      AllDigits q) := by
  obtain ⟨sign, _, rfl, hsign, g, _, rfl, hg, p, _, rfl, hp, d, x, rfl, hd, hx⟩ := ha
  obtain ⟨c, m, hmantissa, hc, hm⟩ := mantissa_cases hg hp hd
  have hdash : '-' ∉ c :: m := fun hmem => by
    rcases hm _ hmem with h | h | h <;> exact absurd h (by decide)
  have htext : g ++ (p ++ (d ++ x)) = c :: (m ++ x) := by
    rw [← List.cons_append, ← hmantissa]
    simp
  rw [htext]
  rcases exponent_cases hx with hplain | ⟨e, ds, rfl, he, hne, hds⟩
  · have hnone : '-' ∉ c :: (m ++ x) := by
      rw [← List.cons_append, List.mem_append]
      exact not_or.2 ⟨hdash, hplain⟩
    rcases hsign with rfl | rfl
    · exact ⟨'-', _, rfl, .inl hnone⟩
    · exact ⟨c, _, rfl, .inl fun hmem => hnone (List.mem_cons_of_mem _ hmem)⟩
  · obtain ⟨hread, hread'⟩ := read?_dangling he hc hm
    have hletter : '-' ≠ e := by
      rcases he with rfl | rfl <;> decide
    have hfront : '-' ∉ c :: m ++ [e] := by
      rw [List.mem_append, List.mem_singleton]
      exact not_or.2 ⟨hdash, hletter⟩
    rcases hsign with rfl | rfl
    · exact ⟨'-', _, rfl, .inr ⟨c :: m ++ [e], ds, by simp, hfront, hread', hne, hds⟩⟩
    · refine ⟨c, _, rfl, .inr ⟨m ++ [e], ds, by simp, ?_, hread, hne, hds⟩⟩
      exact fun hmem => hfront (List.mem_cons_of_mem _ hmem)

/-! ## Reading the bounds -/

namespace Literal

/-- What is no number is read as this. -/
def noNumber : Float :=
  0.0 / 0.0

/-- What a literal takes for a bound, if the minus sign between the bounds is misplaced or not. -/
def boundAs (misplaced : Bool) (a : List Char) : Float :=
  if misplaced then noNumber else readFloat a

theorem isNaN_noNumber : noNumber.isNaN = true := by
  decide

theorem readFloat_eq {s : List Char} (hblank : ∀ c ∈ s, Text.isBlank c = false) (hy : 'y' ∉ s) :
    readFloat s = (read? s).getD noNumber := by
  have hword : ∀ w : String, 'y' ∈ w.toList → s ≠ w.toList := fun w hw heq => hy (heq ▸ hw)
  rw [readFloat, Text.trim_eq_self hblank, if_neg (hword _ (by decide)),
    if_neg (hword _ (by decide))]
  rfl

theorem plain_of_bound {a : List Char} (ha : Pattern.decimalNumber.Matches a) :
    ∀ c ∈ a, Text.isBlank c = false ∧ c ≠ 'y' ∧ c ≠ '(' := by
  intro c hc
  refine ⟨(plainChar_iff.1 (Pattern.plainChar_of_matches (by decide) ha c hc)).1, ?_, ?_⟩
  · rintro rfl
    exact Pattern.not_mem_of_matches (by decide) ha hc
  · rintro rfl
    exact Pattern.not_mem_of_matches (by decide) ha hc

/-- **Reading bounds.** If the lower bound has a negative exponent, the bounds are divided at the
wrong place and neither of them is read. -/
theorem readBounds_eq {front a b : List Char} (hfront : '(' ∉ front)
    (ha : Pattern.decimalNumber.Matches a) (hb : Pattern.decimalNumber.Matches b) :
    readBounds (front ++ '(' :: (a ++ '-' :: b ++ [')'])) =
      some (boundAs ('-' ∈ a.tail) a, boundAs ('-' ∈ a.tail) b) := by
  obtain ⟨c, t, rfl, hcases⟩ := bound_cases ha
  have hinside : ((front ++ '(' :: (c :: t ++ '-' :: b ++ [')'])).dropWhile (· != '(')).drop 1 =
      c :: (t ++ '-' :: b ++ [')']) := by
    rw [dropWhile_stop (fun d hd => by
      rw [bne_iff_ne]
      rintro rfl
      exact hfront hd) (by decide)]
    rfl
  have hlast : ∀ u : List Char, (u ++ [')']).take ((u ++ [')']).length - 1) = u := by
    intro u
    rw [List.length_append, List.length_singleton, Nat.add_sub_cancel, List.take_left]
  have hdivide : ∀ p q : List Char, '-' ∉ p → t ++ '-' :: b = p ++ '-' :: q →
      readBounds (front ++ '(' :: (c :: t ++ '-' :: b ++ [')'])) =
        some (readFloat (c :: p), readFloat q) := by
    intro p q hp heq
    have hpass : ∀ d ∈ p, (d != '-') = true := by
      intro d hd
      rw [bne_iff_ne]
      rintro rfl
      exact hp hd
    rw [readBounds, hinside]
    simp only [heq, hlast, takeWhile_stop hpass (by decide : ('-' != '-') = false),
      dropWhile_stop hpass (by decide : ('-' != '-') = false)]
  have hchars := plain_of_bound ha
  have hchars' := plain_of_bound hb
  rw [List.tail_cons]
  rcases hcases with hnone | ⟨p, q, rfl, hp, hread, hne, hq⟩
  · simp only [boundAs, hnone, decide_false, Bool.false_eq_true, if_false]
    exact hdivide t b hnone rfl
  · have hlow : readFloat (c :: p) = noNumber := by
      have hmem : ∀ d ∈ c :: p, d ∈ c :: (p ++ '-' :: q) := by
        intro d hd
        rw [← List.cons_append]
        exact List.mem_append_left _ hd
      rw [readFloat_eq (fun d hd => (hchars d (hmem d hd)).1)
        (fun hy => (hchars _ (hmem _ hy)).2.1 rfl), hread]
      rfl
    have hhigh : readFloat (q ++ '-' :: b) = noNumber := by
      have hmem : ∀ d ∈ q ++ '-' :: b, d ∈ c :: (p ++ '-' :: q) ∨ d ∈ b := by
        intro d hd
        rcases List.mem_append.1 hd with hd | hd
        · left
          simp [hd]
        · rcases List.mem_cons.1 hd with rfl | hd
          · left
            simp
          · exact .inr hd
      have hboth : ∀ d ∈ q ++ '-' :: b, Text.isBlank d = false ∧ d ≠ 'y' ∧ d ≠ '(' :=
        fun d hd => (hmem d hd).elim (hchars d) (hchars' d)
      have hhead : ∃ d ∈ (q ++ '-' :: b).head?, isDigit d = true := by
        obtain ⟨d, q, rfl⟩ := List.exists_cons_of_ne_nil hne
        exact ⟨d, rfl, hq d List.mem_cons_self⟩
      rw [readFloat_eq (fun d hd => (hboth d hd).1) (fun hy => (hboth _ hy).2.1 rfl),
        Decimal.read?_digit hhead, Decimal.readMagnitude?_minus hq]
      rfl
    rw [hdivide p (q ++ '-' :: b) hp (by simp), hlow, hhigh]
    simp [boundAs]

/-! ## Bounds alone and in a literal -/

theorem filter_comma {a : List Char} (h : ',' ∉ a) : a.filter (· != ',') = a := by
  rw [List.filter_eq_self]
  intro c hc
  rw [bne_iff_ne]
  rintro rfl
  exact h hc

/-- Commas count in a bound, but not in a number on its own. -/
theorem readFloat_bound {a : List Char} (ha : Pattern.decimalNumber.Matches a) :
    readFloat a = if ',' ∈ a then noNumber else (readFraction a).value := by
  split
  case isTrue hcomma =>
    have hchars := plain_of_bound ha
    rw [readFloat_eq (fun c hc => (hchars c hc).1) (fun hy => (hchars _ hy).2.1 rfl),
      Decimal.read?_of_comma hcomma]
    rfl
  case isFalse hcomma =>
    have hslash : '/' ∉ a := Pattern.not_mem_of_matches (by decide) ha
    have hname : ∀ c, Pattern.decimalNumber.starts c = false → a ≠ [c] := by
      rintro c hc rfl
      rw [Pattern.starts_of_matches ha] at hc
      cases hc
    rw [readFraction, filter_comma hcomma, if_neg (hname _ (by decide)),
      if_neg (hname _ (by decide)), if_neg (by simpa using hslash), Fraction.value_ofFloat]

/-- **A bound is read as the number that it is on its own** if the bounds are divided where they
should be and it has no commas, or if it is NaN. -/
theorem sameNumber_boundAs {a : List Char} (ha : Pattern.decimalNumber.Matches a)
    (misplaced : Bool) : Fraction.SameNumber (boundAs misplaced a) (readFraction a).value ↔
      (',' ∈ a ∨ misplaced = true → (readFraction a).value.isNaN = true) := by
  have hnone : Fraction.SameNumber noNumber (readFraction a).value ↔
      (readFraction a).value.isNaN = true := by
    constructor
    · rintro (heq | ⟨-, hnan⟩)
      · rw [Decimal.beq_iff_compared, Decimal.compared_of_isNaN isNaN_noNumber] at heq
        cases heq
      · exact hnan
    · exact fun hnan => .inr ⟨isNaN_noNumber, hnan⟩
  rw [boundAs, readFloat_bound ha]
  cases misplaced with
  | true => simp [hnone]
  | false =>
    by_cases hcomma : ',' ∈ a
    · simp [hcomma, hnone]
    · simp [hcomma, Fraction.SameNumber.refl]

/-- A bound that is a number and is read as one is the same number. -/
theorem boundAs_eq {a : List Char} (ha : Pattern.decimalNumber.Matches a) {misplaced : Bool}
    (hplain : ¬ (',' ∈ a ∨ misplaced = true)) : boundAs misplaced a = (readFraction a).value := by
  obtain ⟨hcomma, hmisplaced⟩ := not_or.1 hplain
  rw [boundAs, if_neg hmisplaced, readFloat_bound ha, if_neg hcomma]

theorem isNaN_boundAs {a : List Char} (ha : Pattern.decimalNumber.Matches a) {misplaced : Bool}
    (h : ',' ∈ a ∨ misplaced = true) : (boundAs misplaced a).isNaN = true := by
  rw [boundAs, readFloat_bound ha]
  cases misplaced with
  | true => exact isNaN_noNumber
  | false => simpa [h.resolve_right Bool.false_ne_true] using isNaN_noNumber

end Literal

/-! ## Random literals -/

/-- The bounds that a random block was written with. -/
def Block.bounds : Block → Bounds
  | .randomInt _ bounds | .randomReal _ bounds => bounds
  | _ => none

/-- The numbers that are rolled between bounds. -/
inductive RandomKind where
  | int
  | real

namespace RandomKind

/-- The kind of the literals. -/
def kind : RandomKind → Kind
  | .int => .randomInt
  | .real => .randomReal

/-- What the literals begin with. -/
def word : RandomKind → String
  | .int => "int"
  | .real => "real"

/-- What a bound looks like. -/
def bound : RandomKind → Pattern
  | .int => .seq .optionalMinus (.plus .digit)
  | .real => .decimalNumber

/-- What a literal says. -/
def literal : RandomKind → Bounds → Literal
  | .int => .randomInt
  | .real => .randomReal

/-- A literal with bounds. -/
def text (k : RandomKind) (a b : List Char) : List Char :=
  k.word.toList ++ '(' :: (a ++ '-' :: b ++ [')'])

variable {k : RandomKind} {a b : List Char}

/-- The literals of a kind: the word alone, or with bounds. -/
theorem matches_iff {u : List Char} : k.kind.pattern.Matches u ↔ u = k.word.toList ∨
    ∃ a b, k.bound.Matches a ∧ k.bound.Matches b ∧ u = k.text a b := by
  cases k with
  | int =>
    constructor
    · rintro ⟨_, _, rfl, hword, ⟨_, _, rfl, rfl, sign, _, rfl, hsign, ds, _, rfl, hds, _, _, rfl,
        rfl, sign', _, rfl, hsign', ds', _, rfl, hds', rfl⟩ | rfl⟩
      · obtain rfl := Pattern.matches_word.1 hword
        exact .inr ⟨sign ++ ds, sign' ++ ds', ⟨sign, ds, rfl, hsign, hds⟩,
          ⟨sign', ds', rfl, hsign', hds'⟩, by simp [text, word]⟩
      · obtain rfl := Pattern.matches_word.1 hword
        exact .inl (List.append_nil _)
    · rintro (rfl | ⟨_, _, ⟨sign, ds, rfl, hsign, hds⟩, ⟨sign', ds', rfl, hsign', hds'⟩, rfl⟩)
      · exact ⟨_, [], (List.append_nil _).symm, Pattern.matches_word.2 rfl, .inr rfl⟩
      · exact ⟨_, _, rfl, Pattern.matches_word.2 rfl, .inl ⟨['('],
          sign ++ (ds ++ ('-' :: (sign' ++ (ds' ++ [')'])))), by simp, rfl, sign, _, rfl, hsign, ds,
          _, rfl, hds, ['-'], _, rfl, rfl, sign', _, rfl, hsign', ds', [')'], rfl, hds', rfl⟩⟩
  | real =>
    constructor
    · rintro ⟨_, _, rfl, hword, ⟨_, _, rfl, rfl, a, _, rfl, ha, _, _, rfl, rfl, b, _, rfl, hb,
        rfl⟩ | rfl⟩
      · obtain rfl := Pattern.matches_word.1 hword
        exact .inr ⟨a, b, ha, hb, by simp [text, word]⟩
      · obtain rfl := Pattern.matches_word.1 hword
        exact .inl (List.append_nil _)
    · rintro (rfl | ⟨a, b, ha, hb, rfl⟩)
      · exact ⟨_, [], (List.append_nil _).symm, Pattern.matches_word.2 rfl, .inr rfl⟩
      · exact ⟨_, _, rfl, Pattern.matches_word.2 rfl, .inl ⟨['('], a ++ ('-' :: (b ++ [')'])),
          by simp, rfl, a, _, rfl, ha, ['-'], _, rfl, rfl, b, [')'], rfl, hb, rfl⟩⟩

theorem matches_decimalNumber (ha : k.bound.Matches a) : Pattern.decimalNumber.Matches a := by
  cases k with
  | real => exact ha
  | int =>
    obtain ⟨sign, ds, rfl, hsign, hds⟩ := ha
    obtain ⟨hne, hds⟩ := Pattern.matches_plus_digit.1 hds
    exact ⟨sign, ds, rfl, hsign, ds, [], (List.append_nil _).symm,
      Pattern.matches_groupedDigits hne hds, [], [], rfl, .inr rfl, [], [], rfl, .nil, .inr rfl⟩

/-- The bounds of whole numbers are whole. -/
theorem isWhole_readFloat (ha : RandomKind.int.bound.Matches a) :
    isWhole (Literal.readFloat a) = true ∨ (Literal.readFloat a).isInf = true := by
  have hchars := Literal.plain_of_bound (matches_decimalNumber ha)
  rw [Literal.readFloat_eq (fun c hc => (hchars c hc).1) fun hy => (hchars _ hy).2.1 rfl]
  obtain ⟨sign, ds, rfl, hsign, hds⟩ := ha
  obtain ⟨hne, hds⟩ := Pattern.matches_plus_digit.1 hds
  have hhead : ∃ c ∈ ds.head?, isDigit c = true := by
    obtain ⟨c, ds, rfl⟩ := List.exists_cons_of_ne_nil hne
    exact ⟨c, rfl, hds c List.mem_cons_self⟩
  have hread : Decimal.readMagnitude? (ds ++ Decimal.pointed []) =
      some (Decimal.ofDecimal (Decimal.natOfDigits (ds ++ [])) 0) :=
    Decimal.readMagnitude?_pointed hne hds nofun
  rw [show Decimal.pointed [] = [] from rfl, List.append_nil] at hread
  rcases hsign with rfl | rfl
  · rw [List.singleton_append, Decimal.read?_minus hhead, hread]
    exact Decimal.isWhole_or_isInf_neg (Decimal.isWhole_or_isInf_ofDecimal _)
  · rw [List.nil_append, Decimal.read?_digit hhead, hread]
    exact Decimal.isWhole_or_isInf_ofDecimal _

/-- A literal with bounds is read as one of its kind. -/
theorem literal_text (ha : k.bound.Matches a) (hb : k.bound.Matches b) :
    Grammar.core.literal (String.ofList (k.text a b)) = k.literal
      (some (Literal.boundAs ('-' ∈ a.tail) a, Literal.boundAs ('-' ∈ a.tail) b)) := by
  have hmatch : k.kind.pattern.Matches (k.text a b) := matches_iff.2 (.inr ⟨a, b, ha, hb, rfl⟩)
  have hentry : Grammar.core.entryOf? (String.ofList (k.text a b)).toList =
      some (Grammar.coreEntry k.kind) := by
    rw [String.toList_ofList]
    cases k with
    | int =>
      refine Grammar.entryOf?_of_unique (c := 'i') (d := '(') ?_ ?_ hmatch rfl (by simp [text])
      · simp [Kind.all, kind]
      · decide
    | real =>
      refine Grammar.entryOf?_of_unique (c := 'r') (d := '(') ?_ ?_ hmatch rfl (by simp [text])
      · simp [Kind.all, kind]
      · decide
  have hword : '(' ∉ k.word.toList := by
    cases k <;> decide
  have hbounds := Literal.readBounds_eq hword (matches_decimalNumber ha) (matches_decimalNumber hb)
  rw [Grammar.literal_of_entryOf? hentry, String.toList_ofList]
  cases k with
  | int => exact congrArg Literal.randomInt hbounds
  | real => exact congrArg Literal.randomReal hbounds

/-- The word alone is read as a literal without bounds. -/
theorem literal_word : Grammar.core.literal k.word = k.literal none := by
  cases k <;> decide

/-- What is made of a literal with bounds has them. -/
theorem make_literal (l : Localizer) (k : RandomKind) (bounds : Bounds) (st : Store) :
    ((k.literal bounds).make l st).1.kind = k.kind ∧
      ((k.literal bounds).make l st).1.bounds = bounds ∧
      ∀ h : Heap, h.written ((k.literal bounds).make l st).1 = bounds.written k.word := by
  cases k with
  | int => exact ⟨rfl, rfl, fun _ => rfl⟩
  | real => exact ⟨rfl, rfl, fun _ => rfl⟩

/-- No literal holds an infinite bound. -/
theorem not_matches_infinite {u : List Char} (hu : 'f' ∈ u) : ¬ k.kind.pattern.Matches u := by
  have havoids : k.kind.pattern.avoids 'f' = true := by
    cases k <;> decide
  exact fun h => Pattern.not_mem_of_matches havoids h hu

end RandomKind

/-! ## Bounds that are written -/

section

variable {x y : Float}

theorem mem_plain_of_isInf (hx : x.isInf = true) : 'f' ∈ (plain x).toList := by
  obtain ⟨s, rfl⟩ := Decimal.exists_infinity hx
  cases s <;> decide

/-- A written double has a minus sign in front only. -/
theorem not_mem_tail_plain (hx : x.isFinite = true) : '-' ∉ (plain x).toList.tail := by
  obtain ⟨front, back, htext, hne, hfront, hback, -, -⟩ := Decimal.plain_eq hx
  obtain ⟨c, front, rfl⟩ := List.exists_cons_of_ne_nil hne
  have hdigits : ∀ {ds : List Char}, AllDigits ds → '-' ∉ ds := fun hds hmem =>
    absurd (hds _ hmem) (by decide)
  have hpoint : '-' ∉ Decimal.pointed back := by
    rw [Decimal.pointed]
    split
    · exact List.not_mem_nil
    · simpa using hdigits hback
  have hrest : '-' ∉ c :: front ++ Decimal.pointed back := by
    rw [List.mem_append]
    exact not_or.2 ⟨hdigits hfront, hpoint⟩
  rw [htext]
  cases Decimal.isNegative x with
  | true => simpa using hrest
  | false => exact fun hmem => hrest (List.mem_of_mem_tail (by simpa using hmem))

theorem isNaN_of_le (h : x ≤ y) : x.isNaN = false ∧ y.isNaN = false := by
  rw [Decimal.le_iff_compared] at h
  constructor
  · by_contra hx
    rw [Decimal.compared_of_isNaN (by simpa using hx)] at h
    cases h
  · by_contra hy
    rw [← Decimal.compared_swap, Decimal.compared_of_isNaN (by simpa using hy)] at h
    cases h

variable {k : RandomKind}

theorem RandomKind.bound_plain (hint : k = .int → isWhole x = true) (hx : x.isFinite = true) :
    k.bound.Matches (plain x).toList := by
  cases k with
  | int => exact Pattern.matches_integer_plain (hint rfl)
  | real => exact Pattern.matches_decimalNumber_plain hx

/-- A range is written as a literal with bounds. -/
theorem RandomKind.written_eq (k : RandomKind) (hle : x ≤ y) :
    Bounds.written k.word (some (x, y)) =
      String.ofList (k.text (plain x).toList (plain y).toList) := by
  rw [← String.toList_inj, Bounds.written, Bounds.valid, if_pos hle]
  simp [text]

/-- **Finite bounds** are written as a literal that is read with the same bounds. -/
theorem RandomKind.literal_written (hle : x ≤ y) (hx : x.isFinite = true) (hy : y.isFinite = true)
    (hint : k = .int → isWhole x = true ∧ isWhole y = true) :
    Grammar.core.literal (Bounds.written k.word (some (x, y))) = k.literal (some (x, y)) := by
  have hdash : decide ('-' ∈ (plain x).toList.tail) = false := by
    simpa using not_mem_tail_plain hx
  rw [k.written_eq hle, literal_text (bound_plain (fun h => (hint h).1) hx)
    (bound_plain (fun h => (hint h).2) hy), hdash]
  simp only [Literal.boundAs, Bool.false_eq_true, if_false, Literal.readFloat_plain hx,
    Literal.readFloat_plain hy]

end

/-! ## Literals on their own and as blocks -/

namespace Environment

open Literal (readFraction boundAs)

variable {l : Localizer} {k : RandomKind} {a b : List Char}

/-- A bound on its own is read as a number. -/
theorem block_bound (l : Localizer) (ha : k.bound.Matches a) (st : Store) :
    (mk l .core).block (String.ofList a) st = (.ofFraction (readFraction a), st) := by
  refine block_number_iff.2 ⟨?_, by rw [String.toList_ofList], rfl, rfl⟩
  rw [String.toList_ofList]
  exact .inl ⟨a, [], (List.append_nil a).symm, k.matches_decimalNumber ha, .inr rfl⟩

/-- **Which bounds are read again**: those that are a range and were written as finite numbers. -/
theorem reread_bounds_iff {x y : Float} (l : Localizer) (st : Store) (hle : x ≤ y)
    (hint : k = .int → ∀ z ∈ [x, y], isWhole z = true ∨ z.isInf = true) :
    (((mk l .core).block (Bounds.written k.word (some (x, y))) st).1.kind = k.kind ∧
        ((mk l .core).block (Bounds.written k.word (some (x, y))) st).1.bounds = some (x, y)) ↔
      x.isFinite = true ∧ y.isFinite = true := by
  obtain ⟨hx, hy⟩ := isNaN_of_le hle
  constructor
  · rintro ⟨hkind, -⟩
    have hmatch : k.kind.pattern.Matches (Bounds.written k.word (some (x, y))).toList :=
      Grammar.matches_of_entryOf?
        ((kind_block l _ st (by cases k <;> simp [RandomKind.kind])).1 hkind)
    have hplain : ∀ z ∈ [x, y], z.isInf = false := by
      intro z hz
      rw [← Bool.not_eq_true]
      intro hinf
      refine RandomKind.not_matches_infinite ?_ hmatch
      have hmem := mem_plain_of_isInf hinf
      rw [Bounds.written, Bounds.valid, if_pos hle]
      simp only [List.mem_cons, List.not_mem_nil, or_false] at hz
      rcases hz with rfl | rfl <;> simp [hmem]
    exact ⟨Decimal.isFinite_of hx (hplain x (by simp)), Decimal.isFinite_of hy (hplain y (by simp))⟩
  · rintro ⟨hfx, hfy⟩
    have hwhole : k = .int → isWhole x = true ∧ isWhole y = true := fun h =>
      ⟨(hint h x (by simp)).resolve_right (Decimal.not_isInf_of_isFinite hfx),
        (hint h y (by simp)).resolve_right (Decimal.not_isInf_of_isFinite hfy)⟩
    obtain ⟨hkind, hbounds, -⟩ := RandomKind.make_literal l k (some (x, y)) st
    rw [block, RandomKind.literal_written hle hfx hfy hwhole]
    exact ⟨hkind, hbounds⟩

/-- **Ranges of random literals.** The bounds of a random literal are the numbers that they are on
their own if and only if there are no commas in them and no negative exponent in the lower one, as
far as they are not NaN. If these numbers are in order, then the block is written as a literal with
the same bounds if and only if they are also finite. -/
theorem random_range_iff (l : Localizer) (k : RandomKind) (ha : k.bound.Matches a)
    (hb : k.bound.Matches b) (st : Store) :
    ∃ x y lo hi made st',
      (mk l .core).block (String.ofList a) st = (.ofFraction x, st) ∧
      (mk l .core).block (String.ofList b) st = (.ofFraction y, st) ∧
      (mk l .core).block (String.ofList (k.text a b)) st = (made, st') ∧
      made.kind = k.kind ∧ made.bounds = some (lo, hi) ∧
      (Fraction.SameNumber lo x.value ∧ Fraction.SameNumber hi y.value ↔
        (',' ∈ a ∨ '-' ∈ a.tail → x.value.isNaN = true) ∧
          (',' ∈ b ∨ '-' ∈ a.tail → y.value.isNaN = true)) ∧
      (x.value ≤ y.value → ∀ st₁,
        ((((mk l .core).block (st'.heap.written made) st₁).1.kind = k.kind ∧
            ((mk l .core).block (st'.heap.written made) st₁).1.bounds = some (lo, hi)) ↔
          (',' ∉ a ∧ ',' ∉ b ∧ '-' ∉ a.tail) ∧ x.value.isFinite = true ∧
            y.value.isFinite = true)) := by
  have ha' := k.matches_decimalNumber ha
  have hb' := k.matches_decimalNumber hb
  generalize hbounds : some (boundAs ('-' ∈ a.tail) a, boundAs ('-' ∈ a.tail) b) = bounds
  obtain ⟨hkind, hmade, hwritten⟩ := RandomKind.make_literal l k bounds st
  have hblock : (mk l .core).block (String.ofList (k.text a b)) st =
      (k.literal bounds).make l st := by
    rw [block, RandomKind.literal_text ha hb, hbounds]
  refine ⟨_, _, _, _, _, _, block_bound l ha st, block_bound l hb st, hblock, hkind,
    hmade.trans hbounds.symm, ?_, fun hle st₁ => ?_⟩
  · rw [Literal.sameNumber_boundAs ha', Literal.sameNumber_boundAs hb', decide_eq_true_iff]
  rw [hwritten, ← hbounds]
  by_cases hplain : ',' ∉ a ∧ ',' ∉ b ∧ '-' ∉ a.tail
  · obtain ⟨hcomma, hcomma', hdash⟩ := hplain
    have hx : boundAs ('-' ∈ a.tail) a = (readFraction a).value :=
      Literal.boundAs_eq ha' (by simp [hcomma, hdash])
    have hy : boundAs ('-' ∈ a.tail) b = (readFraction b).value :=
      Literal.boundAs_eq hb' (by simp [hcomma', hdash])
    rw [← hx, ← hy] at hle ⊢
    rw [reread_bounds_iff l st₁ hle, iff_and_self]
    · exact fun _ => ⟨hcomma, hcomma', hdash⟩
    · rintro rfl z hz
      have hz : z = Literal.readFloat a ∨ z = Literal.readFloat b := by
        simpa [boundAs, hdash] using hz
      rcases hz with rfl | rfl
      · exact RandomKind.isWhole_readFloat ha
      · exact RandomKind.isWhole_readFloat hb
  · -- a bound that is no number makes no range, and only the word is written
    have hnan : ¬ boundAs ('-' ∈ a.tail) a ≤ boundAs ('-' ∈ a.tail) b := by
      intro hle'
      obtain ⟨hx, hy⟩ := isNaN_of_le hle'
      refine hplain ⟨fun hcomma => ?_, fun hcomma => ?_, fun hdash => ?_⟩
      · rw [Literal.isNaN_boundAs ha' (.inl hcomma)] at hx
        cases hx
      · rw [Literal.isNaN_boundAs hb' (.inl hcomma)] at hy
        cases hy
      · rw [Literal.isNaN_boundAs ha' (.inr (by simpa using hdash))] at hx
        cases hx
    have hword : Bounds.written k.word
        (some (boundAs ('-' ∈ a.tail) a, boundAs ('-' ∈ a.tail) b)) = k.word := by
      rw [Bounds.written, Bounds.valid, if_neg hnan]
    refine iff_of_false ?_ fun h => hplain h.1
    rintro ⟨-, hnone⟩
    rw [hword, block, RandomKind.literal_word, (RandomKind.make_literal l k none st₁).2.1] at hnone
    cases hnone

/-- Commas are not taken out of bounds: `real(1,000-2,000)` has no range. -/
theorem random_range_iff_commas : ∃ lo hi made st',
    (mk .plain .core).block "real(1,000-2,000)" (Store.ofSeed 0) = (made, st') ∧
      made.bounds = some (lo, hi) ∧
      ¬ (Fraction.SameNumber lo (readFraction "1,000".toList).value ∧
        Fraction.SameNumber hi (readFraction "2,000".toList).value) ∧
      ¬ (((mk .plain .core).block (st'.heap.written made) st').1.kind = .randomReal ∧
        ((mk .plain .core).block (st'.heap.written made) st').1.bounds = some (lo, hi)) := by
  obtain ⟨x, y, lo, hi, made, st', hx, hy, hmade, -, hbounds, hsame, hreread⟩ :=
    random_range_iff .plain .real (a := "1,000".toList) (b := "2,000".toList)
      (Pattern.matchesAll_iff.1 (by decide +kernel)) (Pattern.matchesAll_iff.1 (by decide +kernel))
      (Store.ofSeed 0)
  obtain ⟨-, rfl, -, -⟩ := block_number_iff.1 hx
  obtain ⟨-, rfl, -, -⟩ := block_number_iff.1 hy
  have hle : (readFraction (String.ofList "1,000".toList).toList).value ≤
      (readFraction (String.ofList "2,000".toList).toList).value := by decide +kernel
  refine ⟨lo, hi, made, st', hmade, hbounds, fun h => ?_, fun h => ?_⟩
  · exact absurd ((hsame.1 h).1 (.inl (by decide))) (by decide +kernel)
  · exact absurd ((hreread hle st').1 h).1.1 (by decide)

end Environment

end BlockMachine
