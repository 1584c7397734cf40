import BlockMachine.Decimal.Layout
import BlockMachine.Proofs.Decimal.Reading
import BlockMachine.Proofs.Json.Layouts

/-!
# Written doubles are read back

The positional text of a finite double is a sign, digits and perhaps digits behind a point, and it
is read as that double again.

* `positional_eq` — the text of a decimal, `readMagnitude?_pointed` — how such texts are read;
* `isNegative_of_signOf?` — the sign bit, `Binary.IsDouble.neg_float` — changing the sign;
* `plain_eq` — the text of a finite double, with no point if it is whole;
* `read?_plain` — finite doubles are read back;
* `read?_of_comma`, `readMagnitude?_dangling`, `readMagnitude?_minus` — texts that are no number.
-/

namespace BlockMachine.Decimal

open Float.Model (Format UnpackedFloat totalExponent)
open Float.Model.UnpackedFloat (Sign)

/-! ## Digits -/

/-- Whether all characters are digits. -/
def AllDigits (s : List Char) : Prop :=
  ∀ c ∈ s, isDigit c = true

theorem natOfDigits_padLeft (width n : Nat) :
    natOfDigits (padLeft width (Nat.toDigits 10 n)) = n := by
  change Nat.ofDigitChars 10 _ 0 = n
  rw [padLeft, Nat.ofDigitChars_append, Nat.ofDigitChars_replicate_zero, Nat.mul_zero,
    Nat.ofDigitChars_ten_toDigits]

theorem natOfDigits_append_zeros (n k : Nat) :
    natOfDigits (Nat.toDigits 10 n ++ List.replicate k '0') = n * 10 ^ k := by
  change Nat.ofDigitChars 10 _ 0 = _
  rw [Nat.ofDigitChars_append, Nat.ofDigitChars_ten_toDigits, Nat.ofDigitChars_replicate_zero,
    Nat.mul_comm]

theorem allDigits_toDigits (n : Nat) : AllDigits (Nat.toDigits 10 n) :=
  fun _ => Json.isDigit_of_mem_toDigits

theorem allDigits_replicate_zero (k : Nat) : AllDigits (List.replicate k '0') := by
  intro c hc
  rw [List.eq_of_mem_replicate hc]
  rfl

theorem AllDigits.append {s t : List Char} (hs : AllDigits s) (ht : AllDigits t) :
    AllDigits (s ++ t) := by
  intro c hc
  rcases List.mem_append.1 hc with hc | hc
  · exact hs c hc
  · exact ht c hc

/-- A point and what is behind it, unless nothing is. -/
def pointed (back : List Char) : List Char :=
  if back.isEmpty then [] else '.' :: back

/-- **The text of a decimal**: digits, and perhaps digits behind a point. -/
theorem positional_eq (d : Digits) : ∃ front back, d.positional.toList = front ++ pointed back ∧
    front ≠ [] ∧ AllDigits front ∧ AllDigits back ∧ back.length = (-d.exp).toNat ∧
    natOfDigits (front ++ back) = d.digits * 10 ^ d.exp.toNat := by
  rw [Digits.positional]
  simp only
  split
  case isTrue hexp =>
    refine ⟨Nat.toDigits 10 d.digits ++ List.replicate d.exp.toNat '0', [], ?_, ?_,
      (allDigits_toDigits _).append (allDigits_replicate_zero _),
      fun _ h => absurd h List.not_mem_nil, ?_, ?_⟩
    · rw [String.toList_ofList]
      exact (List.append_nil _).symm
    · exact List.append_ne_nil_of_left_ne_nil (Json.toDigits_ne_nil _) _
    · rw [List.length_nil]
      omega
    · rw [List.append_nil, natOfDigits_append_zeros]
  case isFalse hexp =>
    obtain ⟨k, hk⟩ : ∃ k : Nat, (-d.exp).toNat = k + 1 := ⟨(-d.exp).toNat - 1, by omega⟩
    have hzero : d.exp.toNat = 0 := by omega
    rw [hk, hzero]
    generalize hcs : padLeft (k + 1 + 1) (Nat.toDigits 10 d.digits) = cs
    have hlength : k + 2 ≤ cs.length := by
      rw [← hcs, padLeft, List.length_append, List.length_replicate]
      omega
    have hdigits : AllDigits cs := by
      rw [← hcs]
      exact (allDigits_replicate_zero _).append (allDigits_toDigits _)
    refine ⟨cs.take (cs.length - (k + 1)), cs.drop (cs.length - (k + 1)), ?_, ?_,
      fun c hc => hdigits c (List.mem_of_mem_take hc),
      fun c hc => hdigits c (List.mem_of_mem_drop hc), ?_, ?_⟩
    · rw [String.toList_ofList, pointed, if_neg]
      rw [List.isEmpty_iff, List.drop_eq_nil_iff]
      omega
    · rw [Ne, List.take_eq_nil_iff]
      intro h
      rcases h with h | h
      · omega
      · rw [h, List.length_nil] at hlength
        omega
    · rw [List.length_drop]
      omega
    · rw [List.take_append_drop, ← hcs, natOfDigits_padLeft, pow_zero, Nat.mul_one]

/-! ## Reading digits -/

theorem AllDigits.takeWhile_append {s rest : List Char} (hs : AllDigits s)
    (hrest : ∀ c ∈ rest.head?, isDigit c = false) : (s ++ rest).takeWhile isDigit = s := by
  rw [List.takeWhile_append_of_pos hs]
  cases rest with
  | nil => exact List.append_nil s
  | cons c rest => rw [List.takeWhile_cons_of_neg (by simp [hrest c rfl]), List.append_nil]

theorem AllDigits.dropWhile_append {s rest : List Char} (hs : AllDigits s)
    (hrest : ∀ c ∈ rest.head?, isDigit c = false) : (s ++ rest).dropWhile isDigit = rest := by
  rw [List.dropWhile_append_of_pos hs]
  cases rest with
  | nil => rfl
  | cons c rest => rw [List.dropWhile_cons_of_neg (by simp [hrest c rfl])]

/-- Digits and digits behind a point are read as a decimal. -/
theorem readMagnitude?_pointed {front back : List Char} (hne : front ≠ [])
    (hfront : AllDigits front) (hback : AllDigits back) :
    readMagnitude? (front ++ pointed back) =
      some (ofDecimal (natOfDigits (front ++ back)) (-(back.length : Int))) := by
  have hempty : front.isEmpty = false := by simpa using hne
  cases back with
  | nil =>
    have htake : (front ++ []).takeWhile isDigit = front := hfront.takeWhile_append (by simp)
    have hdrop : (front ++ []).dropWhile isDigit = [] := hfront.dropWhile_append (by simp)
    rw [show pointed [] = [] from rfl, readMagnitude?, htake, hdrop]
    simp [hempty]
  | cons c back =>
    have hpoint : ∀ d ∈ ('.' :: c :: back).head?, isDigit d = false := by
      rintro d ⟨⟩
      decide
    have htake := hfront.takeWhile_append hpoint
    have hdrop := hfront.dropWhile_append hpoint
    have htake' : (c :: back ++ []).takeWhile isDigit = c :: back :=
      hback.takeWhile_append (by simp)
    have hdrop' : (c :: back ++ []).dropWhile isDigit = [] := hback.dropWhile_append (by simp)
    rw [List.append_nil] at htake' hdrop'
    rw [show pointed (c :: back) = '.' :: c :: back from rfl, readMagnitude?, htake, hdrop]
    simp only [htake', hdrop', hempty, Bool.false_and, Bool.false_eq_true, if_false]
    rw [Int.zero_sub]

theorem toLower_digit {c : Char} (hc : isDigit c = true) : c.toLower = c := by
  rw [isDigit, Bool.and_eq_true, decide_eq_true_iff, decide_eq_true_iff, Char.le_def,
    Char.le_def] at hc
  rw [Char.toLower, dif_neg]
  rintro ⟨hge, -⟩
  exact absurd (UInt32.le_trans hge hc.2) (by decide)

/-- A text that starts with a digit is no word. -/
theorem readUnsigned?_digit {s : List Char} (hs : ∃ c ∈ s.head?, isDigit c = true) :
    readUnsigned? s = readMagnitude? s := by
  obtain ⟨c, hhead, hc⟩ := hs
  have hlower : (lower s).head? = some c := by
    rw [lower, List.head?_map, hhead, Option.map_some, toLower_digit hc]
  have hword : ∀ word : List Char, word.head?.any isDigit = false → lower s ≠ word := by
    rintro word hword rfl
    rw [hlower, Option.any_some, hc] at hword
    cases hword
  rw [readUnsigned?, if_neg (not_or.2 ⟨hword _ (by decide), hword _ (by decide)⟩),
    if_neg (hword _ (by decide))]

/-- Without a sign there is nothing in front of the magnitude. -/
theorem read?_digit {s : List Char} (hs : ∃ c ∈ s.head?, isDigit c = true) :
    read? s = readMagnitude? s := by
  rw [read?]
  · exact readUnsigned?_digit hs
  · rintro rest rfl
    simp [isDigit] at hs
  · rintro rest rfl
    simp [isDigit] at hs

theorem read?_minus {s : List Char} (hs : ∃ c ∈ s.head?, isDigit c = true) :
    read? ('-' :: s) = (readMagnitude? s).map fun x => -x := by
  rw [read?, readUnsigned?_digit hs]

/-! ## Signs -/

theorem isNegative_of_signOf? {x : Float} {s : Sign} (h : signOf? x.toModel.unpack = some s) :
    isNegative x = (s == .negative) := by
  have hsign : Sign.ofBitVec (UnpackedFloat.unpackSign
      (show BitVec Format.binary64.numBits from x.toModel.toBits.toBitVec)) = s := by
    rw [Float.Model.unpack, UnpackedFloat.unpack] at h
    simp only at h
    split at h
    · split at h
      · exact Option.some.inj h
      · cases h
    · split at h
      · split at h
        · exact Option.some.inj h
        · exact Option.some.inj h
      · exact Option.some.inj h
  have hbit : (UnpackedFloat.unpackSign
      (show BitVec Format.binary64.numBits from x.toModel.toBits.toBitVec)).toNat =
        x.toBits.toNat / 2 ^ 63 := by
    have hlt : x.toBits.toNat < 2 ^ 64 := x.toBits.toNat_lt
    have hextract : ∀ b : BitVec 64, (b.extractLsb' 63 1).toNat = b.toNat / 2 ^ 63 % 2 := by
      intro b
      rw [BitVec.extractLsb'_toNat, Nat.shiftRight_eq_div_pow]
    refine (hextract x.toModel.toBits.toBitVec).trans ?_
    change x.toBits.toNat / 2 ^ 63 % 2 = _
    omega
  change (x.toBits.toNat / 2 ^ 63 == 1) = _
  rw [← hbit, ← hsign]
  generalize UnpackedFloat.unpackSign
    (show BitVec Format.binary64.numBits from x.toModel.toBits.toBitVec) = v
  revert v
  decide

section

variable {x : Binary} (hx : x.IsDouble)

theorem Binary.IsDouble.unpack_float (s : Sign) :
    (hx.float s).toModel.unpack = .finite s x.m x.q hx.pos :=
  hx.unpack_pack s

theorem Binary.IsDouble.isNaN_float (s : Sign) : (hx.float s).isNaN = false := by
  change (hx.float s).toModel.unpack.isNaN = false
  rw [hx.unpack_float]
  rfl

theorem Binary.IsDouble.isInf_float (s : Sign) : (hx.float s).isInf = false := by
  change (hx.float s).toModel.unpack.isInf = false
  rw [hx.unpack_float]
  rfl

theorem Binary.IsDouble.isNegative_float (s : Sign) :
    isNegative (hx.float s) = (s == .negative) := by
  apply isNegative_of_signOf?
  rw [hx.unpack_float]
  rfl

theorem Binary.IsDouble.neg_float (s : Sign) : -hx.float s = hx.float (-s) := by
  have hneg : -hx.float s = .ofModel (.pack (hx.float s).toModel.unpack.neg) := rfl
  rw [hneg, hx.unpack_float]
  rfl

end

/-- The sign does not make a double whole or infinite. -/
theorem isWhole_or_isInf_neg {x : Float} (h : isWhole x = true ∨ x.isInf = true) :
    isWhole (-x) = true ∨ (-x).isInf = true := by
  rcases float_cases x with rfl | ⟨s, rfl⟩ | ⟨s, rfl⟩ | ⟨hm, s, hxs⟩
  · exact absurd h (by decide +kernel)
  · right
    cases s <;> decide +kernel
  · left
    cases s <;> decide +kernel
  · left
    have hwhole : isWhole x = true := h.resolve_right (by
      rw [hxs, hm.isInf_float]
      decide)
    have hneg : -x = hm.float (-s) := by
      conv_lhs => rw [hxs]
      exact hm.neg_float s
    rw [isWhole, Bool.and_eq_true, Binary.isWhole, Bool.or_eq_true, decide_eq_true_iff,
      beq_iff_eq] at hwhole
    rw [hneg]
    exact isWhole_of_unpack (hm.unpack_float _) hwhole.2

/-- The digits of a magnitude are read as the double of that magnitude. -/
theorem read_shortest {x : Binary} (hx : x.IsDouble) {front back : List Char}
    (hlength : back.length = (-x.shortest.exp).toNat)
    (hvalue : natOfDigits (front ++ back) = x.shortest.digits * 10 ^ x.shortest.exp.toNat) :
    ofDecimal (natOfDigits (front ++ back)) (-(back.length : Int)) = hx.float .positive := by
  have hleast := Binary.le_shortest_exp hx.pos hx.least
  refine ofDecimal_nearest hx (by omega) ?_
  have hnumber : (natOfDigits (front ++ back) * 10 ^ (-(back.length : Int)) : ℚ) =
      x.shortest.value := by
    have hten := zpow_mul_pow_toNat (b := 10) (by norm_num) x.shortest.exp
    rw [hvalue, hlength, zpow_neg, zpow_natCast, Digits.value, Nat.cast_mul, Nat.cast_pow,
      Nat.cast_ofNat, ← hten, ← mul_assoc, mul_inv_cancel_right₀ (by positivity)]
  rw [hnumber]
  exact Binary.shortest_nearest hx.pos

/-- **The text of a finite double**: a sign, digits, and perhaps digits behind a point. -/
theorem plain_eq {x : Float} (hx : x.isFinite = true) : ∃ front back,
    (plain x).toList = (if isNegative x then ['-'] else []) ++ (front ++ pointed back) ∧
      front ≠ [] ∧ AllDigits front ∧ AllDigits back ∧ (isWhole x = true → back = []) ∧
      read? (plain x).toList = some x := by
  rcases float_cases x with rfl | ⟨s, rfl⟩ | ⟨s, rfl⟩ | ⟨hm, s, hxs⟩
  · exact absurd hx (by decide +kernel)
  · cases s
    · exact absurd hx (by decide +kernel)
    · exact absurd hx (by decide +kernel)
  · cases s
    · exact ⟨['0'], [], by decide +kernel, by decide, allDigits_replicate_zero 1,
        allDigits_replicate_zero 0, fun _ => rfl, by decide +kernel⟩
    · exact ⟨['0'], [], by decide +kernel, by decide, allDigits_replicate_zero 1,
        allDigits_replicate_zero 0, fun _ => rfl, by decide +kernel⟩
  · have hnan : x.isNaN = false := by
      rw [hxs]
      exact hm.isNaN_float s
    have hinf : x.isInf = false := by
      rw [hxs]
      exact hm.isInf_float s
    have hsign : isNegative x = (s == .negative) := by
      rw [hxs]
      exact hm.isNegative_float s
    obtain ⟨front, back, htext, hne, hfront, hback, hlength, hvalue⟩ :=
      positional_eq (Binary.ofFloat x).shortest
    have hread := read_shortest hm hlength hvalue
    have hmagnitude := readMagnitude?_pointed hne hfront hback
    have hhead : ∃ c ∈ (front ++ pointed back).head?, isDigit c = true := by
      obtain ⟨c, rest, rfl⟩ := List.exists_cons_of_ne_nil hne
      exact ⟨c, rfl, hfront c List.mem_cons_self⟩
    have hplaces : isWhole x = true → back = [] := by
      intro hwhole
      rw [isWhole, Bool.and_eq_true] at hwhole
      have := Binary.shortest_exp_nonneg hm.high hwhole.2
      exact List.length_eq_zero_iff.1 (by omega)
    have hplain : plain x =
        withSign (isNegative x) (Binary.ofFloat x).shortest.positional := by
      rw [plain, hnan, hinf]
      rfl
    refine ⟨front, back, ?_, hne, hfront, hback, hplaces, ?_⟩
    · rw [hplain, withSign]
      split <;> simp [htext]
    · rw [hplain, withSign, hsign]
      cases s with
      | positive =>
        rw [if_neg (by decide), htext, read?_digit hhead, hmagnitude, hread, ← hxs]
      | negative =>
        rw [if_pos (by decide), String.toList_append, htext]
        change read? ('-' :: (front ++ pointed back)) = _
        rw [read?_minus hhead, hmagnitude, hread, Option.map_some, hm.neg_float]
        exact congrArg some hxs.symm

/-- **Written doubles are read back.** -/
theorem read?_plain {x : Float} (hx : x.isFinite = true) : read? (plain x).toList = some x := by
  obtain ⟨_, _, _, _, _, _, _, h⟩ := plain_eq hx
  exact h

/-! ## Texts that are no number -/

/-- A comma is not part of an integer. -/
theorem readInt?_of_comma {s : List Char} (h : ',' ∈ s) : readInt? s = none := by
  have hnone : ∀ {ds : List Char} (negative : Bool), ',' ∈ ds →
      (if ds.isEmpty || !ds.all isDigit then none
        else some (if negative then -(natOfDigits ds : Int) else natOfDigits ds)) = none := by
    intro ds negative hds
    rw [if_pos]
    rw [Bool.or_eq_true, Bool.not_eq_true', List.all_eq_false]
    exact .inr ⟨',', hds, by decide⟩
  cases s with
  | nil => cases h
  | cons c t =>
    have htail : c ≠ ',' → ',' ∈ t := fun hc => (List.mem_cons.1 h).resolve_left (Ne.symm hc)
    by_cases hminus : c = '-'
    · subst hminus
      exact hnone true (htail (by decide))
    · by_cases hplus : c = '+'
      · subst hplus
        exact hnone false (htail (by decide))
      · rw [readInt?]
        · exact hnone false h
        · exact fun _ heq => hminus (List.cons.inj heq).1
        · exact fun _ heq => hplus (List.cons.inj heq).1

theorem exponent_of_eq_some {empty : Bool} (value : Int → Float) {rest : List Char} {x : Float}
    (h : (if empty then none else match rest with
      | [] => some (value 0)
      | c :: more => if c = 'e' ∨ c = 'E' then (readInt? more).map value else none) = some x) :
    rest = [] ∨ ∃ c more n, rest = c :: more ∧ (c = 'e' ∨ c = 'E') ∧ readInt? more = some n := by
  split at h
  · cases h
  · split at h
    · exact .inl rfl
    · rename_i c more
      split at h
      · rename_i hc
        obtain ⟨n, hn, -⟩ := Option.map_eq_some_iff.1 h
        exact .inr ⟨c, more, n, rfl, hc, hn⟩
      · cases h

/-- What is read as a magnitude is digits, with a point perhaps, and nothing or an exponent. -/
theorem exists_exponent {s : List Char} {x : Float} (h : readMagnitude? s = some x) :
    ∃ lead rest, s = lead ++ rest ∧ (∀ c ∈ lead, isDigit c = true ∨ c = '.') ∧
      (rest = [] ∨ ∃ c more n, rest = c :: more ∧ (c = 'e' ∨ c = 'E') ∧ readInt? more = some n) := by
  have hfront : ∀ c ∈ s.takeWhile isDigit, isDigit c = true := fun c => List.mem_takeWhile_imp
  rw [readMagnitude?] at h
  have hsplit := List.takeWhile_append_dropWhile (p := isDigit) (l := s)
  cases hrest : s.dropWhile isDigit with
  | nil =>
    refine ⟨s.takeWhile isDigit, [], ?_, fun c hc => .inl (hfront c hc), .inl rfl⟩
    rw [← hrest, hsplit]
  | cons d more =>
    rw [hrest] at h hsplit
    by_cases hd : d = '.'
    · subst hd
      simp only at h
      have hback : ∀ c ∈ more.takeWhile isDigit, isDigit c = true := fun c =>
        List.mem_takeWhile_imp
      refine ⟨s.takeWhile isDigit ++ '.' :: more.takeWhile isDigit, more.dropWhile isDigit, ?_, ?_,
        exponent_of_eq_some (fun e => ofDecimal
          (natOfDigits (s.takeWhile isDigit ++ more.takeWhile isDigit))
          (e - ((more.takeWhile isDigit).length : Int))) h⟩
      · rw [List.append_assoc, List.cons_append, List.takeWhile_append_dropWhile, hsplit]
      · intro c hc
        rcases List.mem_append.1 hc with hc | hc
        · exact .inl (hfront c hc)
        · exact (List.mem_cons.1 hc).elim .inr fun hc => .inl (hback c hc)
    · refine ⟨s.takeWhile isDigit, d :: more, hsplit.symm, fun c hc => .inl (hfront c hc), ?_⟩
      split at h
      rename_i heq
      split at heq
      · rename_i heq'
        exact absurd (List.cons.inj heq').1 hd
      · cases heq
        exact exponent_of_eq_some (fun e => ofDecimal (natOfDigits (s.takeWhile isDigit ++ []))
          (e - (([] : List Char).length : Int))) h

/-- **Commas.** No text with a comma is a number. -/
theorem read?_of_comma {s : List Char} (h : ',' ∈ s) : read? s = none := by
  have hmagnitude : ∀ t : List Char, ',' ∈ t → readMagnitude? t = none := by
    intro t ht
    cases hx : readMagnitude? t with
    | none => rfl
    | some x =>
      obtain ⟨lead, rest, rfl, hlead, hrest⟩ := exists_exponent hx
      have hcomma : ',' ∈ rest := (List.mem_append.1 ht).resolve_left fun hmem => by
        rcases hlead _ hmem with h | h <;>
        · revert h
          decide
      rcases hrest with rfl | ⟨c, more, n, rfl, hc, hn⟩
      · cases hcomma
      · have hmore : ',' ∈ more := (List.mem_cons.1 hcomma).resolve_left (by
          rintro rfl
          revert hc
          decide)
        rw [readInt?_of_comma hmore] at hn
        cases hn
  have hunsigned : ∀ t : List Char, ',' ∈ t → readUnsigned? t = none := by
    intro t ht
    have hlower : ',' ∈ lower t := List.mem_map.2 ⟨',', ht, by decide⟩
    have hword : ∀ w : List Char, ',' ∉ w → lower t ≠ w := fun w hw heq => hw (heq ▸ hlower)
    rw [readUnsigned?, if_neg (not_or.2 ⟨hword _ (by decide), hword _ (by decide)⟩),
      if_neg (hword _ (by decide)), hmagnitude t ht]
  cases s with
  | nil => cases h
  | cons c t =>
    have htail : c ≠ ',' → ',' ∈ t := fun hc => (List.mem_cons.1 h).resolve_left (Ne.symm hc)
    by_cases hminus : c = '-'
    · subst hminus
      rw [read?, hunsigned t (htail (by decide))]
      rfl
    · by_cases hplus : c = '+'
      · subst hplus
        exact hunsigned t (htail (by decide))
      · rw [read?]
        · exact hunsigned _ h
        · exact fun _ heq => hminus (List.cons.inj heq).1
        · exact fun _ heq => hplus (List.cons.inj heq).1

/-- An exponent has digits. -/
theorem readMagnitude?_dangling {s : List Char} {e : Char} (he : e = 'e' ∨ e = 'E')
    (hs : ∀ c ∈ s, isDigit c = true ∨ c = '.') : readMagnitude? (s ++ [e]) = none := by
  have hletter : ¬ (isDigit e = true ∨ e = '.') := by
    rcases he with rfl | rfl <;> decide
  cases hx : readMagnitude? (s ++ [e]) with
  | none => rfl
  | some x =>
    obtain ⟨lead, rest, heq, hlead, hrest⟩ := exists_exponent hx
    rcases hrest with rfl | ⟨c, more, n, rfl, hc, hn⟩
    · have hmem : e ∈ lead := by
        rw [List.append_nil] at heq
        rw [← heq]
        exact List.mem_append_right s (List.mem_singleton_self e)
      exact absurd (hlead e hmem) hletter
    · rcases List.eq_nil_or_concat more with rfl | ⟨inside, z, rfl⟩
      · cases hn
      · have hs' : s = lead ++ c :: inside := by
          have hends : s ++ [e] = (lead ++ c :: inside) ++ [z] := by
            simpa using heq
          exact (List.append_inj' hends rfl).1
        have hc' := hs c (hs' ▸ List.mem_append_right lead List.mem_cons_self)
        rcases hc with rfl | rfl
        · exact absurd hc' (by decide)
        · exact absurd hc' (by decide)

/-- A minus sign behind a digit is no part of a number. -/
theorem readMagnitude?_minus {s t : List Char} (hs : AllDigits s) :
    readMagnitude? (s ++ '-' :: t) = none := by
  have hdash : ∀ d ∈ ('-' :: t).head?, isDigit d = false := by
    rintro d ⟨⟩
    decide
  rw [readMagnitude?, hs.takeWhile_append hdash, hs.dropWhile_append hdash]
  simp

end BlockMachine.Decimal
