import BlockMachine.Proofs.Grammar.WrittenLiterals
import BlockMachine.Proofs.Heap.Equality

/-!
# Packages that are written and read again

The text of a package is the text of what is in it, in brackets. Brackets, braces and quotes in that
text end the package too early, and an error is written with its message in quotes.

* `Block.Alike`, `Heap.equals_package_iff` — when packages that do not nest are equal;
* `Heap.Enclosable` — what stays in its brackets: `enclosable_of_alike`, `alike_of_enclosable`;
* `Environment.package_reread_iff` — the packages that are read again as they were;
* `Grammar.record_of_records?` — what can stand in a workspace that is read;
* `Heap.Writable` — what is written as a token: `Workspace.parse_written_of_writable`;
* `Environment.packages_reread` — packages on their own and in workspaces.
-/

namespace BlockMachine

/-! ## Comparing packages -/

/-- What is in packages, if it is not bound, is equal as it stands; of empty stacks one is as good
as another. -/
def Block.Alike (y z : Block) : Prop :=
  (y.stack?.isSome = true ∧ z.stack?.isSome = true) ∨ y.plainEquals z = true ∨
    ∃ name, y = .code name none ∧ z = .code name none

namespace Heap

variable {h : Heap} {a c : Loc} {y z : Block}

theorem matchBlock_iff_alike (enter : Trail → Loc → Loc → Option Trail) (t : Trail)
    (hy : y.boundTo? = none) (hz : z.boundTo? = none)
    (henter : ∀ d e, y.stack? = some d → z.stack? = some e → (enter t d e).isSome = true) :
    (matchBlock enter t y z).isSome = true ↔ y.Alike z := by
  rw [matchBlock.eq_def]
  split
  case h_1 d e hd he =>
    exact iff_of_true (henter d e hd he) (.inl ⟨by simp [hd], by simp [he]⟩)
  case h_2 hstack =>
    have hnot : ¬ (y.stack?.isSome = true ∧ z.stack?.isSome = true) := by
      rintro ⟨hd, he⟩
      obtain ⟨d, hd⟩ := Option.isSome_iff_exists.1 hd
      obtain ⟨e, he⟩ := Option.isSome_iff_exists.1 he
      exact hstack d e hd he
    split
    case h_1 => cases hy
    case h_2 m n =>
      by_cases hmn : m = n
      · simp [hmn, Block.Alike]
      · simp [hmn, Ne.symm hmn, Block.Alike, Block.stack?, Block.plainEquals]
    case h_3 hcalls =>
      have hno : ¬ ∃ name, y = .code name none ∧ z = .code name none := by
        rintro ⟨name, rfl, rfl⟩
        exact hcalls name name rfl rfl
      cases hequal : y.plainEquals z <;> simp [Block.Alike, hnot, hno, hequal]

/-- **Packages are equal** if what is in them is alike. -/
theorem equals_package_iff (ha : h.blocks a = [y]) (hc : h.blocks c = [z])
    (hy : y.boundTo? = none) (hz : z.boundTo? = none)
    (hempty : ∀ b ∈ [y, z], ∀ d, b.stack? = some d → h.blocks d = []) :
    h.equals (.package a) (.package c) = true ↔ y.Alike z := by
  have hsize : a < h.size := lt_size_of_getElem? (k := 0) (b := y) (by simp [ha])
  obtain ⟨n, hn⟩ := Nat.exists_eq_add_one.2 (Nat.zero_lt_of_lt hsize)
  rw [← matchBlock_iff_alike (matchStacks h h.size) [(a, c)] hy hz]
  · have hwalk : h.equals (.package a) (.package c) =
        ((matchBlock (matchStacks h h.size) [(a, c)] y z).bind fun t => some t).isSome := by
      rw [equals, matchBlock.eq_def]
      change (matchStacks h (h.size + 1) [] a c).isSome = _
      rw [matchStacks, if_neg (by simp), if_neg (by simp), ha, hc]
      rfl
    rw [hwalk, Option.bind_fun_some]
  · intro d e hd he
    have hd' := hempty y (by simp) d hd
    have he' := hempty z (by simp) e he
    have hda : d ≠ a := by
      rintro rfl
      rw [ha] at hd'
      cases hd'
    have hec : e ≠ c := by
      rintro rfl
      rw [hc] at he'
      cases he'
    rw [hn, matchStacks, if_neg (by simp [hda]), if_neg (by simp [Ne.symm hda, Ne.symm hec]), hd',
      he']
    rfl

/-! ## What is in packages -/

/-- Whether a block stays in its brackets when it is written: a name holds no delimiters, and an
error has no message, which would be in quotes. -/
def Enclosable (h : Heap) (b : Block) : Prop :=
  (∀ message, b = .error message → message = "") ∧
    ∀ name, h.reference? b = some name → ∀ c ∈ name.toList, c ∉ delimiters

theorem enclosable_of_made {l : Localizer} {x : Literal} {b : Block} (hb : Made l h x b) :
    h.Enclosable b ↔ x.Enclosable l := by
  cases x with
  | null =>
    obtain ⟨d, rfl, -⟩ := hb
    simp [Enclosable, reference?, Literal.Enclosable]
  | package inner =>
    obtain ⟨d, z, rfl, -⟩ := hb
    simp [Enclosable, reference?, Literal.Enclosable]
  | data name =>
    obtain ⟨d, rfl, -, hname⟩ := hb
    by_cases hempty : name = ""
    · simp [Enclosable, reference?, Literal.Enclosable, hname, hempty, delimiters]
    · simp [Enclosable, reference?, Literal.Enclosable, hname, hempty]
  | _ =>
    obtain ⟨dice, rfl⟩ := hb
    simp [Enclosable, reference?, Literal.make, Literal.Enclosable, Block.ofFraction]

end Heap

section

variable {l : Localizer} {h h' : Heap} {x : Literal} {y z : Block}

/-- What is made of a literal twice is alike, but for what is rolled and for NaN. -/
theorem alike_of_made (hy : Made l h x y) (hz : Made l h' x z)
    (hrolled : z.kind ∉ [.randomInt, .randomReal, .randomBool]) (hnan : z.isNaN = false) :
    y.Alike z := by
  cases x with
  | null =>
    obtain ⟨d, rfl, -⟩ := hy
    obtain ⟨e, rfl, -⟩ := hz
    exact .inl ⟨rfl, rfl⟩
  | data name =>
    obtain ⟨d, rfl, -⟩ := hy
    obtain ⟨e, rfl, -⟩ := hz
    exact .inl ⟨rfl, rfl⟩
  | package inner =>
    obtain ⟨d, y, rfl, -⟩ := hy
    obtain ⟨e, z, rfl, -⟩ := hz
    exact .inl ⟨rfl, rfl⟩
  | code name =>
    obtain ⟨dice, rfl⟩ := hy
    obtain ⟨dice', rfl⟩ := hz
    exact .inr (.inr ⟨name, rfl, rfl⟩)
  | randomInt bounds | randomReal bounds | randomBool =>
    obtain ⟨dice, rfl⟩ := hz
    exact absurd (by simp [Literal.make, Block.kind]) hrolled
  | _ =>
    obtain ⟨dice, rfl⟩ := hy
    obtain ⟨dice', heq⟩ := hz
    have hself : z.plainEquals z = !z.isNaN := Block.plainEquals_self (by rw [heq]; rfl)
      (by rw [heq]; simp [Literal.make, Block.ofFraction])
    rw [hnan] at hself
    nth_rewrite 1 [heq] at hself
    exact .inr (.inl hself)

/-- What is made of a literal that is no package holds nothing. -/
theorem blocks_of_made (hx : ∀ inner, x ≠ .package inner) (hz : Made l h x z) {d : Loc}
    (hd : z.stack? = some d) : h.blocks d = [] := by
  cases x with
  | package inner => exact absurd rfl (hx inner)
  | null =>
    obtain ⟨e, rfl, hempty⟩ := hz
    obtain rfl := Option.some.inj hd
    exact hempty
  | data name =>
    obtain ⟨e, rfl, hempty, -⟩ := hz
    obtain rfl := Option.some.inj hd
    exact hempty
  | _ =>
    obtain ⟨dice, rfl⟩ := hz
    cases hd

/-- Packages that do not nest are equal if what is in them is alike. -/
theorem equals_iff_of_made {x' : Literal} {a c : Loc} (hx' : ∀ inner, x' ≠ .package inner)
    (hx : ∀ inner, x ≠ .package inner) (ha : h.blocks a = [y]) (hy : Made l h x' y)
    (hc : h.blocks c = [z]) (hz : Made l h x z) :
    h.equals (.package a) (.package c) = true ↔ y.Alike z := by
  refine Heap.equals_package_iff ha hc (boundTo?_of_made hy) (boundTo?_of_made hz) ?_
  intro b hb d hd
  simp only [List.mem_cons, List.not_mem_nil, or_false] at hb
  rcases hb with rfl | rfl
  · exact blocks_of_made hx' hy hd
  · exact blocks_of_made hx hz hd

/-- What is made of a text is of the kind of its token. -/
theorem entryOf?_of_made {text : String} (hx : Grammar.core.literal text = x) (hy : Made l h x y)
    {k : Kind} (hk : k ≠ .error) :
    y.kind = k ↔ Grammar.core.entryOf? text.toList = some (Grammar.coreEntry k) := by
  rw [kind_of_made hy (Store.ofSeed 0), ← hx]
  exact Environment.kind_block l text (Store.ofSeed 0) hk

variable {text : String}

/-- What can stand in brackets is no error with a message. -/
theorem inside_errorText {message : String} (hin : Inside (errorText message).toList) :
    message = "" := by
  by_contra hne
  have hquote : '\x22' ∈ (errorText message).toList := by
    rw [errorText, if_neg (by simpa using hne)]
    simp
  rcases hin with hplain | hquoted
  · exact hplain _ hquote (by decide)
  · have hstart : ∃ t, (errorText message).toList = 'E' :: t := by
      rw [errorText, if_neg (by simpa using hne)]
      exact ⟨_, by simp; rfl⟩
    obtain ⟨t, ht⟩ := hstart
    rw [ht] at hquoted
    exact absurd (Pattern.starts_of_matches hquoted) (by decide)

/-- Only a reference is alike to a reference, or the null block. -/
theorem entryOf?_of_alike_data {d : Loc} {resolved : Bool}
    (hx : Grammar.core.literal text = x) (hy : Made l h x y) (halike : y.Alike (.data d resolved))
    (htext : '[' ∉ text.toList.head?) :
    Grammar.core.entryOf? text.toList = some (Grammar.coreEntry .null) ∨
      Grammar.core.entryOf? text.toList = some (Grammar.coreEntry .data) := by
  rcases halike with ⟨hstack, -⟩ | hequal | ⟨name, -, hcode⟩
  · cases y with
    | null e => exact .inl ((entryOf?_of_made hx hy (by simp)).1 rfl)
    | data e _ => exact .inr ((entryOf?_of_made hx hy (by simp)).1 rfl)
    | package e =>
      have hentry := (entryOf?_of_made hx hy (k := .package) (by simp)).1 rfl
      obtain ⟨s, -, heq⟩ := Kind.matches_package.1 (Grammar.matches_of_entryOf? hentry)
      rw [heq] at htext
      exact absurd rfl htext
    | _ => cases hstack
  · cases (Block.target?_of_plainEquals hequal).2
  · cases hcode

/-- A call is alike to a call of the same name only. -/
theorem entryOf?_of_alike_code {name : String} (hx : Grammar.core.literal text = x)
    (hy : Made l h x y) (halike : y.Alike (.code name none)) :
    Grammar.core.entryOf? text.toList = some (Grammar.coreEntry .code) := by
  rcases halike with ⟨-, hstack⟩ | hequal | ⟨name', rfl, -⟩
  · cases hstack
  · cases y <;> cases hequal
  · exact (entryOf?_of_made hx hy (by simp)).1 rfl

/-- **What is alike stays in brackets**, and is no reserved call. -/
theorem enclosable_of_alike {x' : Literal} (hz : Made l h x z)
    (hx : Grammar.core.literal (x.written l) = x') (hy : Made l h' x' y)
    (hin : Inside (x.written l).toList) (halike : y.Alike z) :
    h.Enclosable z ∧ ∀ name target, z = .code name target → ¬ Reserved name.toList := by
  rw [Heap.enclosable_of_made hz]
  cases x with
  | null =>
    obtain ⟨d, rfl, -⟩ := hz
    exact ⟨trivial, by simp⟩
  | package inner =>
    obtain ⟨d, z, rfl, -⟩ := hz
    exact ⟨trivial, by simp⟩
  | error message =>
    obtain ⟨dice, rfl⟩ := hz
    exact ⟨inside_errorText hin, by simp [Literal.make]⟩
  | unreadable text =>
    obtain ⟨dice, rfl⟩ := hz
    exact ⟨inside_errorText hin, by simp [Literal.make]⟩
  | data name =>
    obtain ⟨d, rfl, -⟩ := hz
    refine ⟨?_, by simp⟩
    have htext : (Literal.written l (.data name)).toList =
        '@' :: Text.escapeChars (if name.isEmpty then "a1" else name).toList := by
      simp [Literal.written, Text.escape]
    have hchars : ∀ c ∈ (if name.isEmpty then "a1" else name).toList, c ∉ delimiters := by
      rw [← delimiters_escapeChars]
      have hhead : '[' ∉ (Literal.written l (.data name)).toList.head? := by
        rw [htext]
        simp
      rcases entryOf?_of_alike_data hx hy halike hhead with hentry | hentry
      · have hnull : (Literal.written l (.data name)).toList = '@' :: "null".toList :=
          Pattern.matches_word.1 (Grammar.matches_of_entryOf? hentry)
        rw [htext] at hnull
        rw [(List.cons.inj hnull).2]
        simp [delimiters]
      · obtain ⟨t, ht, hname, -⟩ := Grammar.literal_of_data hentry
        rw [htext] at ht
        rw [(List.cons.inj ht).2]
        exact fun c hc => ((matches_plus_nameChar.1 hname).2 c hc).2
    intro c hc
    split at hchars
    case isTrue hempty =>
      rw [String.isEmpty_iff.1 hempty] at hc
      cases hc
    case isFalse _ => exact hchars c hc
  | code name =>
    obtain ⟨dice, rfl⟩ := hz
    replace halike : y.Alike (.code name none) := halike
    have hentry := entryOf?_of_alike_code hx hy halike
    have htext : (Literal.written l (.code name)).toList = Text.escapeChars name.toList :=
      String.toList_ofList
    rw [htext, Grammar.entryOf?_code_iff] at hentry
    obtain ⟨-, hchars, hreserved⟩ := hentry
    refine ⟨delimiters_escapeChars.1 fun c hc => (hchars c hc).2, ?_⟩
    rintro _ _ ⟨⟩
    rwa [reserved_escapeChars] at hreserved
  | _ =>
    obtain ⟨dice, rfl⟩ := hz
    exact ⟨trivial, by simp [Literal.make, Block.ofFraction]⟩

/-- A written error is read as an error. -/
theorem literal_errorText (message : String) : ∃ message',
    Grammar.core.literal (errorText message) = .error message' :=
  ⟨_, Grammar.literal_of_entryOf? (Grammar.entryOf?_error_iff.2 (matches_errorText message))⟩

theorem literal_token (op : Operator) : Grammar.core.literal op.info.token = .operator op := by
  have hall : ∀ op ∈ Operator.all, Grammar.core.literal op.info.token = .operator op := by
    decide +kernel
  exact hall op op.mem_all

/-- A written name is read again, if it is not reserved. -/
theorem literal_name {name : String} (hne : name ≠ "") (hname : ∀ c ∈ name.toList, c ∉ delimiters)
    (hreserved : ¬ Reserved name.toList) :
    Grammar.core.literal (Text.escape name) = .code name := by
  have htext : (Text.escape name).toList = Text.escapeChars name.toList := String.toList_ofList
  have hchars := matches_plus_nameChar.1 (Literal.matches_name_written hne hname)
  rw [Grammar.literal_of_code (Grammar.entryOf?_code_iff.2 ⟨hchars.1, hchars.2, ?_⟩),
    Text.unescape_escape]
  rwa [htext, reserved_escapeChars]

theorem literal_reference {name : String} (hne : name ≠ "")
    (hname : ∀ c ∈ name.toList, c ∉ delimiters) :
    Grammar.core.literal ("@" ++ Text.escape name) = .data name ∨
      Grammar.core.literal ("@" ++ Text.escape name) = .null := by
  by_cases hnull : name = "null"
  · subst hnull
    exact .inr (by decide)
  have htext : ("@" ++ Text.escape name).toList = '@' :: Text.escapeChars name.toList := by
    simp [Text.escape]
  have hfilled : Text.escapeChars name.toList ≠ [] := by
    rw [Ne, Text.escapeChars_eq_nil_iff]
    simpa using hne
  have hentry : Grammar.core.entryOf? ("@" ++ Text.escape name).toList =
      some (Grammar.coreEntry .data) := by
    rw [htext, Grammar.entryOf?_data_iff hfilled fun c => Text.isBlank_of_mem_escapeChars,
      delimiters_escapeChars, Ne, Text.escapeChars_eq_iff (List.all_eq_true.1 rfl),
      String.toList_inj]
    exact ⟨hname, hnull⟩
  obtain ⟨t, ht, -, hliteral⟩ := Grammar.literal_of_data hentry
  obtain rfl : Text.escapeChars name.toList = t := (List.cons.inj (htext.symm.trans ht)).2
  have hread : Text.unescape (String.ofList (Text.escapeChars name.toList)) = name :=
    Text.unescape_escape name
  exact .inl (hliteral.trans (congrArg Literal.data hread))

/-- A number that is not NaN is read again as one that is equal. -/
theorem literal_number {r : Fraction} (hd : Decimal.isWhole r.denominator = true)
    (hr : r.value.isNaN = false) : ∃ r', Grammar.core.literal r.written = .number r' ∧
      r'.fuzzyEq r = true := by
  have hnan : ¬ (r.numerator.isNaN = true ∧ (r.denominator == 1) = false) := by
    rintro ⟨hn, -⟩
    rw [Fraction.value, Decimal.isNaN_div hn] at hr
    cases hr
  obtain ⟨hmatch, hsame⟩ := (Fraction.readsAs_written_iff hd).2 hnan
  refine ⟨_, Grammar.literal_of_number hmatch, ?_⟩
  rcases hsame with hequal | ⟨-, hvalue⟩
  · rw [Fraction.fuzzyEq, hequal, Bool.true_or]
  · rw [hr] at hvalue
    cases hvalue

/-- **What stays in brackets is alike** when it is read again, but for what is rolled, for NaN and
for reserved calls. -/
theorem alike_of_enclosable {x' : Literal} (hx : Grammar.core.literal text = x)
    (hin : Inside text.toList) (hz : Made l h x z)
    (hx' : Grammar.core.literal (x.written l) = x') (hy : Made l h' x' y)
    (hrolled : z.kind ∉ [.randomInt, .randomReal, .randomBool]) (hnan : z.isNaN = false)
    (henclosable : h.Enclosable z)
    (hcode : ∀ name target, z = .code name target → ¬ Reserved name.toList) : y.Alike z := by
  -- most literals are read again as they were
  have hsame : x' = x → y.Alike z := by
    rintro rfl
    exact alike_of_made hy hz hrolled hnan
  rw [Heap.enclosable_of_made hz] at henclosable
  have herror : ∀ {message message'}, z = .error message → x.written l = errorText message' →
      y.Alike z := by
    rintro message message' rfl hwritten
    obtain ⟨message', herror⟩ := literal_errorText message'
    rw [hwritten, herror] at hx'
    subst hx'
    obtain ⟨dice, rfl⟩ := hy
    exact .inr (.inl rfl)
  cases he : Grammar.core.entryOf? text.toList with
  | none =>
    obtain rfl : _ = x := (Grammar.literal_of_unreadable he).symm.trans hx
    obtain ⟨dice, rfl⟩ := hz
    exact herror rfl rfl
  | some e =>
    obtain ⟨k, hk, rfl⟩ := Grammar.exists_kind_of_mem (List.mem_of_find?_eq_some he)
    by_cases hverbatim : k ∈ Kind.verbatim
    · refine hsame ?_
      rw [← hx', ← hx, Literal.written_verbatim hverbatim he]
    have hneeds := Grammar.eq_string_of_needs hin he
    have hliteral := (Grammar.literal_of_entryOf? he).symm.trans hx
    cases k with
    | boolean | randomBool | assign | fetch | null => exact absurd (by decide) hverbatim
    | memoryReference | memory | package | getSymbol | setSymbol | color => cases hneeds rfl
    | extension => cases Kind.not_nullable _ hk
    | error =>
      obtain rfl : _ = x := hliteral
      obtain ⟨dice, rfl⟩ := hz
      exact herror rfl rfl
    | string =>
      obtain rfl : _ = x := hliteral
      exact hsame (hx'.symm.trans (Grammar.literal_quote _))
    | operator op =>
      obtain rfl : _ = x := hliteral
      exact hsame (hx'.symm.trans (literal_token op))
    | randomInt =>
      exact absurd ((entryOf?_of_made hx hz (by simp)).2 he ▸ by simp) hrolled
    | randomReal =>
      exact absurd ((entryOf?_of_made hx hz (by simp)).2 he ▸ by simp) hrolled
    | number =>
      obtain rfl : _ = x := hliteral
      obtain ⟨dice, rfl⟩ := hz
      obtain ⟨r', hread, hequal⟩ := literal_number
        (Fraction.isWhole_denominator_readFraction text.toList) hnan
      obtain rfl : _ = x' := hread.symm.trans hx'
      obtain ⟨dice', rfl⟩ := hy
      exact .inr (.inl hequal)
    | data =>
      obtain ⟨t, -, ht, hdata⟩ := Grammar.literal_of_data he
      obtain rfl : _ = x := hdata.symm.trans hx
      have hne := Text.unescape_ne_empty (matches_plus_nameChar.1 ht).1
      rw [Literal.written, if_neg (by simpa using hne)] at hx'
      rcases literal_reference hne henclosable with hread | hread
      · exact hsame (hx'.symm.trans hread)
      · obtain rfl : _ = x' := hread.symm.trans hx'
        obtain ⟨d, rfl, -⟩ := hz
        obtain ⟨d', rfl, -⟩ := hy
        exact .inl ⟨rfl, rfl⟩
    | code =>
      obtain rfl : _ = x := (Grammar.literal_of_code he).symm.trans hx
      have hne := Text.unescape_ne_empty
        (matches_plus_nameChar.1 (Grammar.matches_of_entryOf? he)).1
      rw [String.ofList_toList] at hne
      obtain ⟨dice, rfl⟩ := hz
      exact hsame (hx'.symm.trans (literal_name hne henclosable (hcode _ _ rfl)))

end

/-! ## Packages that are read again -/

namespace Environment

variable {l : Localizer} {text : String} {st st' : Store} {loc : Loc} {h : Heap}

/-- A package that is read holds what is made of the text in the brackets. -/
theorem made_of_package (hread : (mk l .core).block text st = (.package loc, st')) :
    ∃ w : String, Inside w.toList ∧ text = "[" ++ w ++ "]" ∧
      (∀ inner, Grammar.core.literal w ≠ .package inner) ∧ ∀ {h : Heap}, st'.heap.Grows h →
        ∃ z, h.blocks loc = [z] ∧ Made l h (Grammar.core.literal w) z := by
  have hkind : ((mk l .core).block text st).1.kind = .package := by
    rw [hread]
    rfl
  have hliteral := Grammar.literal_of_entryOf? ((kind_block l text st (by simp)).1 hkind)
  rw [Literal.ofToken] at hliteral
  obtain ⟨w, hw, rfl, -⟩ := Grammar.literal_eq_package_iff.1 hliteral
  have hbracketed := Grammar.literal_bracketed hw
  refine ⟨w, hw, rfl, Grammar.literal_package hbracketed, fun {h} hgrows => ?_⟩
  have hmade := Literal.make_made (l := l) (h := h) (.package (Grammar.core.literal w)) st
  rw [block, hbracketed] at hread
  rw [hread] at hmade
  obtain ⟨_, z, ⟨⟩, hblocks, hz⟩ := hmade fun c _ hc => hgrows.get hc
  exact ⟨z, hblocks, hz⟩

/-- What is read for a text in brackets, against a package that was there before. -/
theorem compared_bracketed {u : String} {loc' : Loc} {x : Literal} {z : Block}
    (hread : (mk l .core).block ("[" ++ u ++ "]") st = (.package loc', st'))
    (hflat : ∀ inner, x ≠ .package inner) (hblocks : st'.heap.blocks loc = [z])
    (hz : Made l st'.heap x z) : ∃ y, Inside u.toList ∧ Made l st'.heap (Grammar.core.literal u) y ∧
      (st'.heap.equals (.package loc') (.package loc) = true ↔ y.Alike z) := by
  obtain ⟨w, hin, htext, hflat', hmade⟩ := made_of_package hread
  obtain rfl : u = w := by simpa [String.append_left_inj] using htext
  obtain ⟨y, hblocks', hy⟩ := hmade (.refl _)
  exact ⟨y, hin, hy, equals_iff_of_made hflat' hflat hblocks' hy hblocks hz⟩

/-- **Packages that survive.** A package that is read is written as a text that is read as an equal
package if and only if what is in it stays in its brackets and is no reserved call. Rolled values
and NaN are left out, since these may not be equal to themselves. -/
theorem package_reread_iff {z : Block} {st₁ : Store}
    (hread : (mk l .core).block text st = (.package loc, st'))
    (hinside : st'.heap.blocks loc = [z])
    (hrolled : z.kind ∉ [.randomInt, .randomReal, .randomBool]) (hnan : z.isNaN = false)
    (hgrows : st'.heap.Grows st₁.heap) :
    (∃ loc' st₂, (mk l .core).block (st'.heap.written (.package loc)) st₁ = (.package loc', st₂) ∧
        st₂.heap.equals (.package loc') (.package loc) = true) ↔
      st'.heap.Enclosable z ∧ ∀ name target, z = .code name target → ¬ Reserved name.toList := by
  obtain ⟨w, hw, rfl, hflat, hmade⟩ := made_of_package hread
  obtain ⟨z', hblocks, hz⟩ := hmade (.refl _)
  obtain rfl : z = z' := List.singleton_inj.1 (hinside.symm.trans hblocks)
  have hwritten : st'.heap.written (.package loc) =
      "[" ++ (Grammar.core.literal w).written l ++ "]" := by
    refine Literal.written_of_made (x := .package (Grammar.core.literal w)) ?_
      ⟨_, _, rfl, hblocks, hz⟩
    rintro inner ⟨⟩
    exact hflat
  rw [hwritten]
  generalize hx : Grammar.core.literal w = x at hz hflat hmade
  -- the package is still there when its text has been read
  have hlater : ∀ {text' : String} {b : Block} {st₂ : Store},
      (mk l .core).block text' st₁ = (b, st₂) →
        st₂.heap.blocks loc = [z] ∧ Made l st₂.heap x z := by
    intro text' b st₂ hreread
    have hmake := Literal.make_grows l (Grammar.core.literal text') st₁
    rw [block] at hreread
    rw [hreread] at hmake
    have hlast : st'.heap.Grows st₂.heap := hgrows.trans hmake
    obtain ⟨z₂, hblocks₂, hz₂⟩ := hmade hlast
    have hkept : st₂.heap.blocks loc = st'.heap.blocks loc := congrArg Stack.blocks
      (hlast.get (Heap.lt_size_of_getElem? (k := 0) (b := z) (by simp [hblocks])))
    obtain rfl : z = z₂ := List.singleton_inj.1 (hblocks.symm.trans (hkept.symm.trans hblocks₂))
    exact ⟨hblocks₂, hz₂⟩
  constructor
  · rintro ⟨loc', st₂, hreread, hequal⟩
    obtain ⟨hblocks₂, hz₂⟩ := hlater hreread
    obtain ⟨y, hin, hy, hiff⟩ := compared_bracketed hreread hflat hblocks₂ hz₂
    exact enclosable_of_alike hz rfl hy hin (hiff.1 hequal)
  · rintro ⟨henclosable, hcode⟩
    have hin : Inside (x.written l).toList := by
      rw [Heap.enclosable_of_made hz] at henclosable
      rw [← hx] at henclosable ⊢
      exact Literal.inside_written hw henclosable
    have hreread : ∃ loc' st₂,
        (mk l .core).block ("[" ++ x.written l ++ "]") st₁ = (.package loc', st₂) := by
      rw [block, Grammar.literal_bracketed hin]
      exact ⟨_, _, rfl⟩
    obtain ⟨loc', st₂, hreread⟩ := hreread
    obtain ⟨hblocks₂, hz₂⟩ := hlater hreread
    obtain ⟨y, -, hy, hiff⟩ := compared_bracketed hreread hflat hblocks₂ hz₂
    exact ⟨loc', st₂, hreread,
      hiff.2 (alike_of_enclosable hx hw hz rfl hy hrolled hnan henclosable hcode)⟩

end Environment

/-! ## Workspaces that are read again -/

namespace Grammar

/-- A token in a list is one that would be read as a whole text of the same kind. -/
theorem entryOf?_of_tokenAt? {s : List Char} {e : Entry} {n : Nat}
    (h : core.tokenAt? s = some (e, n)) : core.entryOf? (s.take n) = some e := by
  obtain ⟨before, e', after, hentries, he, hbefore⟩ := List.findSome?_eq_some_iff.1 h
  obtain ⟨n', hfind, heq⟩ := Option.map_eq_some_iff.1 he
  obtain ⟨rfl, rfl⟩ := Prod.mk.inj heq
  have hblank := List.find?_some hfind
  obtain ⟨u, v, rfl, rfl, hu⟩ := Pattern.split_of_mem_lengths (List.mem_of_find?_eq_some hfind)
  rw [List.take_left]
  refine List.find?_eq_some_iff_append.2 ⟨Pattern.matchesAll_iff.2 hu, before, after, hentries, ?_⟩
  intro e'' he''
  rw [Bool.not_eq_true', ← Bool.not_eq_true]
  intro hmatch
  have hnone := List.find?_eq_none.1 (Option.map_eq_none_iff.1 (hbefore e'' he'')) u.length
    (Pattern.length_mem_lengths.2 (Pattern.matchesAll_iff.1 hmatch))
  exact hnone hblank

theorem entryOf?_of_mem_tokens {fuel : Nat} {s : List Char} :
    ∀ w ∈ core.tokens fuel s, core.entryOf? w.2 = some w.1 := by
  induction fuel generalizing s with
  | zero => exact nofun
  | succ fuel ih =>
    cases s with
    | nil => exact nofun
    | cons c s =>
      intro w hw
      rw [tokens] at hw
      split at hw
      case h_1 e n htoken =>
        rcases List.mem_cons.1 hw with rfl | hw
        · exact entryOf?_of_tokenAt? htoken
        · exact ih w hw
      case h_2 => exact ih w hw

/-- **What a list of tokens says**, each token says alone. -/
theorem exists_of_mem_literals {s : List Char} {x : Literal} (hx : x ∈ core.literals s) :
    ∃ (text : String) (k : Kind), core.entryOf? text.toList = some (coreEntry k) ∧
      x = core.literal text := by
  obtain ⟨⟨e, u⟩, hw, rfl⟩ := List.mem_map.1 hx
  have he := entryOf?_of_mem_tokens _ hw
  obtain ⟨k, hk, rfl⟩ := exists_kind_of_mem (List.mem_of_find?_eq_some he)
  refine ⟨String.ofList u, k, by rwa [String.toList_ofList], ?_⟩
  exact content_eq_literal hk (matches_of_entryOf? he) he

theorem mem_of_mem_splitOnP {test : Char → Bool} {s u : List Char} (hu : u ∈ s.splitOnP test) :
    ∀ c ∈ u, c ∈ s ∧ test c = false := by
  induction s generalizing u with
  | nil =>
    rw [List.splitOnP_nil, List.mem_singleton] at hu
    subst hu
    exact nofun
  | cons d s ih =>
    have hlift : ∀ v ∈ s.splitOnP test, ∀ c ∈ v, c ∈ d :: s ∧ test c = false := fun v hv c hc =>
      (ih hv c hc).imp_left (List.mem_cons_of_mem d)
    rw [List.splitOnP_cons_eq_if_modifyHead] at hu
    split at hu
    case isTrue _ =>
      rcases List.mem_cons.1 hu with rfl | hu
      · exact nofun
      · exact hlift u hu
    case isFalse hd =>
      cases hsplit : s.splitOnP test with
      | nil =>
        rw [hsplit] at hu
        cases hu
      | cons v vs =>
        rw [hsplit] at hu hlift
        rcases List.mem_cons.1 hu with rfl | hu
        · exact List.forall_mem_cons.2
            ⟨⟨List.mem_cons_self, by simpa using hd⟩, hlift v List.mem_cons_self⟩
        · exact hlift u (List.mem_cons_of_mem v hu)

/-- The inputs of a record are names. -/
theorem isName_of_mem_inputNames {v : List Char} (hv : inputList.Matches v) {name : String}
    (hname : name ∈ inputNames v) : IsName name.toList := by
  obtain ⟨u, hu, rfl⟩ := List.mem_map.1 hname
  obtain ⟨hu, hfilled⟩ := List.mem_filter.1 hu
  rw [String.toList_ofList]
  refine ⟨by simpa using hfilled, fun c hc => ?_⟩
  obtain ⟨hmem, hblank⟩ := mem_of_mem_splitOnP hu c hc
  refine ⟨hblank, ?_, ?_⟩
  · rintro rfl
    exact Pattern.not_mem_of_matches (by decide) hv hmem
  · rintro rfl
    exact Pattern.not_mem_of_matches (by decide) hv hmem

theorem exists_of_mem_findAll {α : Type} {find : List Char → Option (α × List Char)} {fuel : Nat}
    {s : List Char} {x : α} (hx : x ∈ findAll find fuel s) :
    ∃ s' rest, find s' = some (x, rest) := by
  induction fuel generalizing s with
  | zero => cases hx
  | succ fuel ih =>
    cases s with
    | nil => cases hx
    | cons c s =>
      rw [findAll] at hx
      split at hx
      case h_1 y after hfind =>
        rcases List.mem_cons.1 hx with rfl | hx
        · exact ⟨_, _, hfind⟩
        · exact ih hx
      case h_2 => exact ih hx

/-- **What a record says**: its inputs are names, and its blocks are read from tokens. -/
theorem record_of_records? {text : String} {rs : List Record} (h : core.records? text = some rs)
    {r : Record} (hr : r ∈ rs) : (∀ name ∈ r.inputs, IsName name.toList) ∧
      ∀ x ∈ r.body, ∃ (u : String) (k : Kind),
        core.entryOf? u.toList = some (coreEntry k) ∧ x = core.literal u := by
  rw [records?] at h
  split at h
  case isFalse => cases h
  obtain rfl := Option.some.inj h
  obtain ⟨s, rest, hfind⟩ := exists_of_mem_findAll hr
  obtain ⟨_, s₁, rfl, rfl, h₁⟩ := exists_of_splitting hfind
  obtain ⟨name, s₂, rfl, hname, h₂⟩ := exists_of_splitting h₁
  obtain ⟨gap, s₃, rfl, hgap, h₃⟩ := exists_of_splitting h₂
  obtain ⟨⟨inputs, body, rest'⟩, hparts, heq⟩ := Option.map_eq_some_iff.1 h₃
  obtain ⟨rfl, rfl⟩ := Prod.mk.inj heq
  refine ⟨fun name hname => ?_, fun x hx => exists_of_mem_literals hx⟩
  rcases inputsAndBody?_cases hparts with ⟨_, _, -, -, hinputs, -⟩ | ⟨rfl, -, -⟩
  · exact isName_of_mem_inputNames hinputs hname
  · cases hname

end Grammar

namespace Heap

variable {h : Heap}

/-- Whether a block is written as a token: a name holds no delimiters, a random number is not rolled
between infinite bounds, and what is in a package stays in its brackets. -/
structure Writable (h : Heap) (b : Block) : Prop where
  name : ∀ name, h.reference? b = some name → ∀ c ∈ name.toList, c ∉ delimiters
  bounds : ∀ x y, b.bounds.valid = some (x, y) → x.isFinite = true ∧ y.isFinite = true
  inside : ∀ loc, b = .package loc → ∀ z ∈ h.blocks loc, h.Enclosable z

theorem writable_of_made {l : Localizer} {x : Literal} {b : Block} (hb : Made l h x b)
    (hwritable : h.Writable b) : x.Writable l := by
  obtain ⟨hname, hbounds, hinside⟩ := hwritable
  cases x with
  | error | unreadable => trivial
  | randomInt bounds | randomReal bounds =>
    obtain ⟨dice, rfl⟩ := hb
    exact hbounds
  | package inner =>
    obtain ⟨d, z, rfl, hblocks, hz⟩ := hb
    exact (enclosable_of_made hz).1 (hinside d rfl z (by simp [hblocks]))
  | data name =>
    exact (enclosable_of_made hb).1 ⟨by obtain ⟨d, rfl, -⟩ := hb; exact nofun, hname⟩
  | code name =>
    exact (enclosable_of_made hb).1 ⟨by obtain ⟨dice, rfl⟩ := hb; exact nofun, hname⟩
  | _ => trivial

end Heap

namespace Workspace

variable {l : Localizer} {ws : Workspace} {h : Heap} {b : Block}

/-- Binding a block does not change its text. -/
theorem written_resolve (ws : Workspace) (h : Heap) (b : Block) :
    h.written (ws.resolve h b) = h.written b := by
  cases b with
  | data loc resolved =>
    cases resolved with
    | true => rfl
    | false =>
      simp only [resolve]
      cases hfound : ws.find? h (h.nameOf loc) with
      | none => rfl
      | some found =>
        simp only [Heap.written, Heap.writtenAt, nameOf_of_find? hfound]
  | code name target => cases target <;> rfl
  | _ => rfl

theorem writable_resolve (hb : h.Writable (ws.resolve h b)) : h.Writable b := by
  obtain ⟨hname, hbounds, hinside⟩ := hb
  rw [reference?_resolve] at hname
  refine ⟨hname, ?_, ?_⟩
  · cases b with
    | randomInt | randomReal => exact hbounds
    | _ => exact nofun
  · rintro loc rfl
    exact hinside loc rfl

/-- What was read from a token and is still written as one. -/
theorem readable_written {text : String} {k : Kind}
    (he : Grammar.core.entryOf? text.toList = some (Grammar.coreEntry k))
    (hb : Made l h (Grammar.core.literal text) b) (hwritable : h.Writable b) :
    Readable (h.written b).toList := by
  have hflat : ∀ inner, Grammar.core.literal text = .package inner → ∀ y, inner ≠ .package y :=
    fun inner => Grammar.literal_package
  obtain ⟨k', hk', hmatch, hcomma⟩ :=
    Literal.exists_matches_written he (Heap.writable_of_made hb hwritable)
  rw [Literal.written_of_made hflat hb]
  refine ⟨?_, k', hk', hmatch⟩
  rcases Kind.token_of_matches hk' hmatch with htoken | ⟨hmemory, hext⟩
  · exact htoken
  · exact absurd hext.mem (hcomma hmemory)

/-- **Workspaces that are read again.** A workspace that is read from a text is written as a text
that can be read, if no name of a stack holds braces and every block is written as a token. -/
theorem parse_written_of_writable {text : String} {st st' : Store}
    (hread : parse Grammar.core l text st = .ok (ws, st'))
    (hnames : ∀ loc ∈ ws.locs, ∀ c ∈ (st'.heap.nameOf loc).toList, c ≠ '\x7b' ∧ c ≠ '\x7d')
    (hblocks : ∀ loc ∈ ws.locs, ∀ b ∈ st'.heap.blocks loc, st'.heap.Writable b) (st₁ : Store) :
    ∃ ws' st₂, parse Grammar.core l (ws.written st'.heap) st₁ = .ok (ws', st₂) := by
  rw [parse] at hread
  cases hrecords : Grammar.core.records? text with
  | none =>
    rw [hrecords] at hread
    cases hread
  | some rs =>
    rw [hrecords] at hread
    have hbuilt := ofRecords_built l rs st
    rw [Except.ok.inj hread] at hbuilt
    have hstack : ∀ loc ∈ ws.locs, ∃ r ∈ rs, StackOf l ws st'.heap r loc := fun loc hloc =>
      hbuilt.exists_record hloc
    have hwritten : Grammar.core.records? (ws.written st'.heap) = some (ws.records st'.heap) := by
      refine records?_written (fun loc hloc => ⟨?_, hnames loc hloc⟩) ?_ ?_
      · obtain ⟨r, hr, hstack⟩ := hstack loc hloc
        rw [hstack.name]
        split
        case isTrue _ => decide
        case isFalse hfilled => simpa using hfilled
      · intro loc hloc
        obtain ⟨r, hr, hstack⟩ := hstack loc hloc
        rw [hstack.inputs]
        exact (Grammar.record_of_records? hrecords hr).1
      · intro loc hloc b hb
        obtain ⟨r, hr, hstack⟩ := hstack loc hloc
        obtain ⟨ys, hys, heq⟩ := hstack.blocks
        have hwritable := hblocks loc hloc b hb
        rw [heq] at hb
        obtain ⟨y, hy, rfl⟩ := List.mem_map.1 hb
        obtain ⟨k, hk, rfl⟩ := List.getElem_of_mem hy
        have hk' : k < r.body.length := hys.length_eq ▸ hk
        have hmade := List.Forall₂.get hys hk' hk
        obtain ⟨u, kind, he, hliteral⟩ :=
          (Grammar.record_of_records? hrecords hr).2 _ (List.getElem_mem hk')
        rw [written_resolve]
        rw [List.get_eq_getElem, hliteral] at hmade
        exact readable_written he hmade (writable_resolve hwritable)
    exact ⟨_, _, by rw [parse, hwritten]⟩

end Workspace

namespace Environment

open Workspace

/-- **Packages in texts.** A package that is read holds one block. But for a rolled value and NaN,
it is written as a text that is read as an equal package if and only if the block stays in its
brackets and is no reserved call. A workspace that is read is written as a text that can be read, if
all of its packages, names and random numbers can be written. -/
theorem packages_reread (l : Localizer) :
    (∀ (text : String) (st st' : Store) (loc : Loc),
      (mk l .core).block text st = (.package loc, st') →
        ∃ z, st'.heap.blocks loc = [z] ∧
          (z.kind ∉ [.randomInt, .randomReal, .randomBool] → z.isNaN = false →
            ∀ st₁ : Store, st'.heap.Grows st₁.heap →
              ((∃ loc' st₂,
                (mk l .core).block (st'.heap.written (.package loc)) st₁ = (.package loc', st₂) ∧
                  st₂.heap.equals (.package loc') (.package loc) = true) ↔
                st'.heap.Enclosable z ∧
                  ∀ name target, z = .code name target → ¬ Reserved name.toList))) ∧
    ∀ (text : String) (st st' : Store) (ws : Workspace),
      parse Grammar.core l text st = .ok (ws, st') →
      (∀ loc ∈ ws.locs, ∀ c ∈ (st'.heap.nameOf loc).toList, c ≠ '\x7b' ∧ c ≠ '\x7d') →
      (∀ loc ∈ ws.locs, ∀ b ∈ st'.heap.blocks loc, st'.heap.Writable b) →
      ∀ st₁ : Store,
        ∃ ws' st₂, parse Grammar.core l (ws.written st'.heap) st₁ = .ok (ws', st₂) := by
  refine ⟨fun text st st' loc hread => ?_, fun text st st' ws hread hnames hblocks st₁ => ?_⟩
  · obtain ⟨w, -, -, -, hmade⟩ := made_of_package hread
    obtain ⟨z, hblocks, -⟩ := hmade (.refl _)
    exact ⟨z, hblocks, fun hrolled hnan st₁ hgrows =>
      package_reread_iff hread hblocks hrolled hnan hgrows⟩
  · exact parse_written_of_writable hread hnames hblocks st₁

/-- A stack with a package in it. -/
def boxedRecords : List Record :=
  [⟨"a", [], [.package (.code "a")]⟩]

/-- The package `[a b]` holds an error with a message, which does not stay in the brackets; `[a]`
can be written and read again, also in a workspace. -/
theorem packages_reread_words :
    (∃ loc st', (mk .plain .core).block "[a b]" (Store.ofSeed 0) = (.package loc, st') ∧
      ¬ ∃ loc' st₂,
        (mk .plain .core).block (st'.heap.written (.package loc)) st' = (.package loc', st₂) ∧
          st₂.heap.equals (.package loc') (.package loc) = true) ∧
    (∃ loc st', (mk .plain .core).block "[a]" (Store.ofSeed 0) = (.package loc, st') ∧
      ∃ loc' st₂,
        (mk .plain .core).block (st'.heap.written (.package loc)) st' = (.package loc', st₂) ∧
          st₂.heap.equals (.package loc') (.package loc) = true) ∧
    ∃ ws st', parse Grammar.core .plain "@a \x7b [a] \x7d" (Store.ofSeed 0) = .ok (ws, st') ∧
      ∃ ws' st₂, parse Grammar.core .plain (ws.written st'.heap) st' = .ok (ws', st₂) := by
  refine ⟨?_, ?_, ?_⟩
  · have hliteral : Grammar.core.literal "[a b]" = .package (.unreadable "a b") := by
      decide +kernel
    have hread : (mk .plain .core).block "[a b]" (Store.ofSeed 0) =
        (Literal.package (.unreadable "a b")).make .plain (Store.ofSeed 0) := by
      rw [block, hliteral]
    refine ⟨_, _, hread, ?_⟩
    obtain ⟨z, hblocks, hiff⟩ := (packages_reread .plain).1 _ _ _ _ hread
    obtain rfl := List.singleton_inj.1 hblocks
    rw [hiff (by decide) rfl _ (.refl _)]
    rintro ⟨⟨herror, -⟩, -⟩
    exact absurd (herror _ rfl) (by decide +kernel)
  · have hliteral : Grammar.core.literal "[a]" = .package (.code "a") := by decide +kernel
    have hread : (mk .plain .core).block "[a]" (Store.ofSeed 0) =
        (Literal.package (.code "a")).make .plain (Store.ofSeed 0) := by
      rw [block, hliteral]
    refine ⟨_, _, hread, ?_⟩
    obtain ⟨z, hblocks, hiff⟩ := (packages_reread .plain).1 _ _ _ _ hread
    obtain rfl := List.singleton_inj.1 hblocks
    have hcall : ((mk .plain .core).block "a" (Store.ofSeed 0)).1.kind = .code := by
      rw [block, show Grammar.core.literal "a" = .code "a" by decide +kernel]
      rfl
    have hentry := (kind_block .plain "a" (Store.ofSeed 0) (by simp)).1 hcall
    refine (hiff (by decide) rfl _ (.refl _)).2 ⟨⟨by simp, ?_⟩, ?_⟩
    · rintro _ ⟨⟩
      simp [delimiters]
    · rintro _ _ ⟨⟩
      exact (Grammar.entryOf?_code_iff.1 hentry).2.2
  · have hrecords : Grammar.core.records? "@a \x7b [a] \x7d" = some boxedRecords := by
      decide +kernel
    have hread : parse Grammar.core .plain "@a \x7b [a] \x7d" (Store.ofSeed 0) =
        .ok (ofRecords .plain boxedRecords (Store.ofSeed 0)) := by
      rw [parse, hrecords]
    obtain ⟨hlocs, hname, hstack, hpackage⟩ :
        (ofRecords .plain boxedRecords (Store.ofSeed 0)).1.locs = [1] ∧
          (ofRecords .plain boxedRecords (Store.ofSeed 0)).2.heap.nameOf 1 = "a" ∧
          (ofRecords .plain boxedRecords (Store.ofSeed 0)).2.heap.blocks 1 = [.package 0] ∧
          (ofRecords .plain boxedRecords (Store.ofSeed 0)).2.heap.blocks 0 = [.code "a" none] := by
      decide +kernel
    generalize ofRecords .plain boxedRecords (Store.ofSeed 0) = built at *
    obtain ⟨ws, st'⟩ := built
    dsimp only at hlocs hname hstack hpackage
    refine ⟨ws, st', hread, (packages_reread .plain).2 _ _ _ _ hread ?_ ?_ _⟩
    · simp [hlocs, hname]
    · intro loc hloc b hb
      obtain rfl : loc = 1 := by simpa [hlocs] using hloc
      obtain rfl : b = .package 0 := by simpa [hstack] using hb
      refine ⟨by rintro _ ⟨⟩, by rintro _ _ ⟨⟩, ?_⟩
      rintro _ ⟨⟩ z hz
      obtain rfl : z = .code "a" none := by simpa [hpackage] using hz
      refine ⟨by simp, ?_⟩
      rintro _ ⟨⟩
      simp [delimiters]

end Environment

end BlockMachine
