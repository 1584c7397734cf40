import BlockMachine.Proofs.Grammar.WrittenLiterals

/-!
# Strings as tokens

A string is written between quotes, with a backslash before each quote and each backslash in it.
Whatever the string holds, this text is a token of one kind only, and its end does not depend on
what stands behind it: a quote of the string itself never closes it.

* `Pattern.mem_lengths_quotedText` — a text in quotes ends at its own closing quote;
* `Grammar.matches_of_quoted` — no other kind of token is a text in quotes;
* `Environment.string_lossless` — so every string is read from its own text.
-/

namespace BlockMachine

namespace Pattern

variable {inside : List Char}

/-- Two texts in quotes that begin at one place end at one place: the scanner finds the closing
quote of both. -/
theorem quoted_unique {inside' rest rest' : List Char} (h : Quoted inside) (h' : Quoted inside')
    (heq : inside ++ '\x22' :: rest = inside' ++ '\x22' :: rest') : inside = inside' := by
  have hscan : inside ++ ['\x22'] = inside' ++ ['\x22'] := by
    rw [← toQuote_append h rest, heq, toQuote_append h' rest']
  exact List.append_cancel_right hscan

/-- **The closing quote.** The only front part that is a text in quotes ends at the first quote that
no backslash takes along. -/
theorem mem_lengths_quotedText (h : Quoted inside) (rest : List Char) {n : Nat} :
    n ∈ quotedText.lengths ('\x22' :: inside ++ ['\x22'] ++ rest) ↔
      n = ('\x22' :: inside ++ ['\x22']).length := by
  constructor
  · intro hn
    obtain ⟨u, v, htext, rfl, hu⟩ := split_of_mem_lengths hn
    obtain ⟨inside', rfl, hinside'⟩ := matches_quotedText.1 hu
    have hbehind : inside ++ '\x22' :: rest = inside' ++ '\x22' :: v := by
      simpa using htext
    rw [quoted_unique h hinside' hbehind]
  · rintro rfl
    exact length_mem_lengths.2 (matches_quotedText.2 ⟨inside, rfl, h⟩)

end Pattern

namespace Grammar

variable {k : Kind} {u : List Char}

/-- **One kind.** Only strings begin with a quote: a text in quotes is a token of no other kind. -/
theorem matches_of_quoted (hk : k ∈ Kind.all) (hu : Pattern.quotedText.Matches u) :
    k.pattern.Matches u ↔ k = .string := by
  constructor
  · intro h
    obtain ⟨inside, rfl, -⟩ := Pattern.matches_quotedText.1 hu
    have honly : ∀ k ∈ Kind.all, k.pattern.starts '\x22' = true →
        k.pattern.avoids '\x22' = false → k = .string := by decide
    refine honly k hk (Pattern.starts_of_matches h) ?_
    rw [← Bool.not_eq_true]
    exact fun havoids => Pattern.not_mem_of_matches havoids h List.mem_cons_self
  · rintro rfl
    exact hu

theorem filter_matches_of_quoted (hu : Pattern.quotedText.Matches u) :
    (Kind.all.filter fun k => k.pattern.matchesAll u) = [.string] := by
  have htest : ∀ k ∈ Kind.all, k.pattern.matchesAll u = (k == .string) := by
    intro k hk
    rw [Bool.eq_iff_iff, Pattern.matchesAll_iff, matches_of_quoted hk hu, beq_iff_eq]
  rw [List.filter_congr htest]
  decide

end Grammar

namespace Environment

/-- **Strings are lossless.** The text of a string is a token of its kind alone, it ends at its own
closing quote whatever follows it, and the block that it writes is the string. -/
theorem string_lossless (l : Localizer) (h : Heap) (s : String) (st : Store) :
    (Kind.all.filter fun k => k.pattern.matchesAll (h.written (.string s)).toList) = [.string] ∧
      Grammar.core.entryOf? (h.written (.string s)).toList = some (Grammar.coreEntry .string) ∧
      (∀ rest n, n ∈ Kind.string.pattern.lengths ((h.written (.string s)).toList ++ rest) ↔
        n = (h.written (.string s)).length) ∧
      (mk l .core).block (h.written (.string s)) st = (.string s, st) := by
  have htext : h.written (.string s) = quote s := by
    simp only [Heap.written, Heap.writtenAt]
  rw [htext]
  refine ⟨Grammar.filter_matches_of_quoted (Literal.matches_quote s),
    Grammar.entryOf?_string_iff.2 (Literal.matches_quote s), fun rest n => ?_, ?_⟩
  · rw [← String.length_toList, Literal.toList_quote]
    exact Pattern.mem_lengths_quotedText (Literal.quoted_quoteChars s.toList) rest
  · rw [block, Grammar.literal_quote, Literal.make]

end Environment

end BlockMachine
