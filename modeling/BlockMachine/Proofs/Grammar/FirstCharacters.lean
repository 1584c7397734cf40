import BlockMachine.Proofs.Workspace.Names

/-!
# What tokens begin with

The kinds of tokens are mostly told apart by their first character, and by characters that only some
of them can hold. Both can be read off the patterns, so which kind a text is read as can be found by
going through the kinds.

* `Pattern.starts` — the characters that a pattern's texts may begin with;
* `Grammar.entryOf?_of_unique` — a text is read as the only kind that it can be a token of.
-/

namespace BlockMachine

namespace Pattern

/-- Whether a pattern may match a text that begins with a character. -/
def starts (c : Char) : Pattern → Bool
  | .empty => false
  | .char d => c == d
  | .any => c != '\n'
  | .oneIn negated items => negated != items.any (ClassItem.accepts c)
  | .seq p q => p.starts c || p.nullable && q.starts c
  | .alt p q => p.starts c || q.starts c
  | .group p | .optional p | .star p | .lazyStar p | .plus p => p.starts c

theorem exists_head_of_repeated {P : List Char → Prop} {c : Char} {u : List Char}
    (h : Repeated P (c :: u)) : ∃ v, P (c :: v) := by
  generalize htext : c :: u = s at h
  cases h with
  | nil => cases htext
  | @cons v w part filled more =>
    obtain ⟨d, v, rfl⟩ := List.exists_cons_of_ne_nil filled
    obtain rfl : c = d := (List.cons.inj htext).1
    exact ⟨v, part⟩

theorem starts_of_matches {p : Pattern} {c : Char} {u : List Char} (h : p.Matches (c :: u)) :
    p.starts c = true := by
  induction p generalizing u with
  | empty => cases h
  | char d =>
    cases h
    exact beq_self_eq_true c
  | any | oneIn negated items =>
    obtain ⟨d, hd, heq⟩ := h
    cases heq
    exact hd
  | seq p q ihp ihq =>
    obtain ⟨v, w, htext, hv, hw⟩ := h
    rw [starts, Bool.or_eq_true_iff, Bool.and_eq_true_iff]
    cases v with
    | nil =>
      obtain rfl : c :: u = w := htext
      exact .inr ⟨nullable_of_matches hv, ihq hw⟩
    | cons d v =>
      obtain rfl : c = d := (List.cons.inj htext).1
      exact .inl (ihp hv)
  | alt p q ihp ihq => exact Bool.or_eq_true_iff.2 (h.imp ihp ihq)
  | group p ih => exact ih h
  | optional p ih => exact h.elim ih fun hnil => nomatch hnil
  | star p ih | lazyStar p ih =>
    obtain ⟨v, hv⟩ := exists_head_of_repeated h
    exact ih hv
  | plus p ih =>
    obtain ⟨v, w, htext, hv, hw⟩ := h
    cases v with
    | nil =>
      obtain rfl : c :: u = w := htext
      obtain ⟨v, hv⟩ := exists_head_of_repeated hw
      exact ih hv
    | cons d v =>
      obtain rfl : c = d := (List.cons.inj htext).1
      exact ih hv

end Pattern

namespace Grammar

/-- **The only kind.** A token of a kind is read as that kind if no other has texts that begin with
its first character and hold another one of its characters. -/
theorem entryOf?_of_unique {k : Kind} {c d : Char} {u : List Char} (hk : k ∈ Kind.all)
    (honly : ∀ k' ∈ Kind.all, k'.pattern.starts c = true → k'.pattern.avoids d = false → k' = k)
    (h : k.pattern.Matches u) (hc : c ∈ u.head?) (hd : d ∈ u) :
    core.entryOf? u = some (coreEntry k) := by
  obtain ⟨u, rfl⟩ := List.head?_eq_some_iff.1 hc
  obtain ⟨k', hk', hmatch, hentry⟩ := exists_entryOf? ⟨k, hk, h⟩
  have havoids : k'.pattern.avoids d = false := by
    rw [← Bool.not_eq_true]
    exact fun havoids => Pattern.not_mem_of_matches havoids hmatch hd
  rw [hentry, honly k' hk' (Pattern.starts_of_matches hmatch) havoids]

end Grammar

end BlockMachine
