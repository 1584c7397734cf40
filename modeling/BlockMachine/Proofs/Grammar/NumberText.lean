import BlockMachine.Proofs.Decimal.PlainText
import BlockMachine.Proofs.Workspace.Names

/-!
# Number tokens
-/

namespace BlockMachine

open Decimal (plain isDigit isNegative isWhole AllDigits pointed plain_eq)

/-! ## The patterns -/

namespace Pattern

variable {s : List Char}

theorem accepts_digit {c : Char} :
    (false != [ClassItem.range '0' '9'].any (ClassItem.accepts c)) = true ↔ isDigit c = true := by
  simp [ClassItem.accepts, isDigit]

theorem matches_star_digit : (Pattern.star digit).Matches s ↔ AllDigits s := by
  rw [digit, matches_star_oneIn]
  exact forall₂_congr fun _ _ => accepts_digit

theorem matches_plus_digit : (Pattern.plus digit).Matches s ↔ s ≠ [] ∧ AllDigits s := by
  rw [digit, matches_plus_oneIn]
  exact and_congr_right fun _ => forall₂_congr fun _ _ => accepts_digit

theorem matches_groupedDigits (hne : s ≠ []) (hs : AllDigits s) : groupedDigits.Matches s := by
  refine matches_plus_oneIn.2 ⟨hne, fun c hc => ?_⟩
  have hdigit : '0' ≤ c ∧ c ≤ '9' := by simpa [isDigit] using hs c hc
  simp [ClassItem.accepts, hdigit]

theorem matches_sign (negative : Bool) :
    optionalMinus.Matches (if negative then ['-'] else []) := by
  cases negative with
  | false => exact .inr rfl
  | true => exact .inl rfl

variable {x : Float}

/-- The text of a finite double is a number. -/
theorem matches_decimalNumber_plain (hx : x.isFinite = true) :
    decimalNumber.Matches (plain x).toList := by
  obtain ⟨front, back, htext, hne, hfront, hback, -, -⟩ := plain_eq hx
  rw [htext]
  refine ⟨_, _, rfl, matches_sign _, front, pointed back, rfl, matches_groupedDigits hne hfront, ?_⟩
  cases back with
  | nil => exact ⟨[], [], rfl, .inr rfl, [], [], rfl, .nil, .inr rfl⟩
  | cons c back =>
    exact ⟨['.'], c :: back, rfl, .inl rfl, c :: back, [], (List.append_nil _).symm,
      matches_star_digit.2 hback, .inr rfl⟩

/-- The text of a whole double is digits with a sign. -/
theorem matches_integer_plain (hx : isWhole x = true) :
    (Pattern.seq optionalMinus (.plus digit)).Matches (plain x).toList := by
  have hfinite : x.isFinite = true := (Bool.and_eq_true_iff.1 hx).1
  obtain ⟨front, back, htext, hne, hfront, -, hplaces, -⟩ := plain_eq hfinite
  rw [htext, hplaces hx]
  exact ⟨_, _, rfl, matches_sign _, by
    rw [show pointed [] = [] from rfl, List.append_nil]
    exact matches_plus_digit.2 ⟨hne, hfront⟩⟩

end Pattern

/-! ## Reading -/

/-- Without blanks there is nothing to cut off. -/
theorem Text.trim_eq_self {s : List Char} (hs : ∀ c ∈ s, Text.isBlank c = false) :
    Text.trim s = s := by
  have hdrop : ∀ t : List Char, (∀ c ∈ t, Text.isBlank c = false) → Text.dropBlanks t = t := by
    intro t ht
    cases t with
    | nil => rfl
    | cons c t => rw [Text.dropBlanks, List.dropWhile_cons_of_neg (by simp [ht c])]
  rw [Text.trim, hdrop s hs, hdrop s.reverse (by simpa using hs), List.reverse_reverse]

theorem mem_plain {x : Float} (hx : x.isFinite = true) {c : Char} (hc : c ∈ (plain x).toList) :
    isDigit c = true ∨ c = '-' ∨ c = '.' := by
  obtain ⟨front, back, htext, hne, hfront, hback, -, -⟩ := plain_eq hx
  rw [htext] at hc
  have hmem : c ∈ (if isNegative x then ['-'] else []) ∨ c ∈ front ∨ c ∈ pointed back := by
    simpa using hc
  rcases hmem with hsign | hc | hpoint
  · split at hsign
    · exact .inr (.inl (List.mem_singleton.1 hsign))
    · cases hsign
  · exact .inl (hfront c hc)
  · rw [pointed] at hpoint
    split at hpoint
    · cases hpoint
    · exact (List.mem_cons.1 hpoint).elim (fun h => .inr (.inr h)) fun h => .inl (hback c h)

/-- A written double is read as itself. -/
theorem Literal.readFloat_plain {x : Float} (hx : x.isFinite = true) :
    readFloat (plain x).toList = x := by
  have hblank : ∀ c ∈ (plain x).toList, Text.isBlank c = false := by
    intro c hc
    exact (plainChar_iff.1 (Pattern.plainChar_of_matches (by decide)
      (Pattern.matches_decimalNumber_plain hx) c hc)).1
  have hletter : 'y' ∉ (plain x).toList :=
    Pattern.not_mem_of_matches (by decide) (Pattern.matches_decimalNumber_plain hx)
  have htrim := Text.trim_eq_self hblank
  have hword : ∀ w : String, 'y' ∈ w.toList → (plain x).toList ≠ w.toList := by
    intro w hw heq
    exact hletter (heq ▸ hw)
  rw [readFloat, htrim, if_neg (hword _ (by decide)), if_neg (hword _ (by decide)),
    Decimal.read?_plain hx]
  rfl

namespace Grammar

/-- Numbers are tried before all but errors. -/
theorem entryOf?_number_iff {u : List Char} :
    core.entryOf? u = some (coreEntry .number) ↔ Kind.number.pattern.Matches u := by
  refine ⟨matches_of_entryOf?, fun h => ?_⟩
  have herror : ¬ Kind.error.pattern.Matches u := by
    rintro ⟨v, w, rfl, hv, -⟩
    have hr : 'r' ∉ v ++ w := Pattern.not_mem_of_matches (by decide) h
    rw [Pattern.matches_word.1 hv] at hr
    exact hr (List.mem_append_left _ (by decide))
  have hentries : core.entries = coreEntry .error :: coreEntry .number :: core.entries.tail.tail :=
    rfl
  rw [entryOf?, hentries, List.find?_cons_of_neg (by rwa [coreEntry, Pattern.matchesAll_iff]),
    List.find?_cons_of_pos (by rwa [coreEntry, Pattern.matchesAll_iff])]

/-- A number token says a number. -/
theorem literal_of_number {text : String} (h : Kind.number.pattern.Matches text.toList) :
    core.literal text = .number (Literal.readFraction text.toList) := by
  rw [literal_of_entryOf? (entryOf?_number_iff.2 h)]
  rfl

end Grammar

namespace Environment

variable {l : Localizer} {text : String} {st st' : Store} {r : Fraction} {rounded : Bool}

/-- **What is read as a number**, and which. -/
theorem block_number_iff : (mk l .core).block text st = (.number r rounded, st') ↔
    Kind.number.pattern.Matches text.toList ∧ r = Literal.readFraction text.toList ∧
      rounded = true ∧ st' = st := by
  have hmade : Kind.number.pattern.Matches text.toList →
      (mk l .core).block text st = (.number (Literal.readFraction text.toList) true, st) := by
    intro hmatch
    rw [block, Grammar.literal_of_number hmatch]
    rfl
  constructor
  · intro h
    have hkind : ((mk l .core).block text st).1.kind = .number := by
      rw [h]
      rfl
    have hmatch := Grammar.entryOf?_number_iff.1 ((kind_block l text st (by simp)).1 hkind)
    have heq := h.symm.trans (hmade hmatch)
    simp only [Prod.mk.injEq, Block.number.injEq] at heq
    exact ⟨hmatch, heq.1.1, heq.1.2, heq.2⟩
  · rintro ⟨hmatch, rfl, rfl, rfl⟩
    exact hmade hmatch

end Environment

end BlockMachine
