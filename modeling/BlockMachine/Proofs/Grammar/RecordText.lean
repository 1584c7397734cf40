import BlockMachine.Grammar.Record
import BlockMachine.Proofs.Grammar.TokenList
import Mathlib.Data.List.Forall2

/-!
# Records are read back

The record of a stack is found by a search that tries names, blanks, inputs and bodies of several
lengths. For a record as it is written, every way through that search that succeeds gives the same
record; only for the name it matters that the longest one is tried first, since a name may hold
parentheses.

* `Line` — what a record says, character by character, `Line.text` — how it is written;
* `Line.Legible` — names and tokens that can be told apart again;
* `Grammar.stackRecordAt?_text` — the record at the front of a text;
* `Grammar.records?_page` — lines of records are accepted, and read one by one.
-/

namespace BlockMachine

/-- A name as it stands in a record. -/
def IsName (u : List Char) : Prop :=
  u ≠ [] ∧ ∀ c ∈ u, Text.isBlank c = false ∧ c ≠ '\x7b' ∧ c ≠ '\x7d'

instance (u : List Char) : Decidable (IsName u) :=
  decidable_of_iff
    ((!u.isEmpty && u.all fun c => !Text.isBlank c && c != '\x7b' && c != '\x7d') = true)
    (by simp [IsName, and_assoc])

/-- A record, as texts. -/
structure Line where
  name : List Char
  inputs : List (List Char)
  body : List (List Char)

namespace Line

/-- The inputs in parentheses, with blanks around them; one blank without inputs. -/
def inputText (l : Line) : List Char :=
  if l.inputs = [] then [' '] else " ( ".toList ++ Grammar.spaced l.inputs ++ ") ".toList

/-- The tokens in braces. -/
def bodyText (l : Line) : List Char :=
  '\x7b' :: ' ' :: Grammar.spaced l.body ++ ['\x7d']

/-- The record as it is written. -/
def text (l : Line) : List Char :=
  '@' :: l.name ++ l.inputText ++ l.bodyText

/-- The stack that the record says. -/
def record (l : Line) : Record where
  name := Text.unescape (String.ofList l.name)
  inputs := l.inputs.map String.ofList
  body := l.body.map fun u => Grammar.core.literal (String.ofList u)

/-- Names and tokens that can be told apart again. -/
structure Legible (l : Line) : Prop where
  name : IsName l.name
  inputs : ∀ u ∈ l.inputs, IsName u
  body : ∀ u ∈ l.body, Readable u

end Line

namespace Grammar

/-! ## Trying lengths -/

section Splitting

variable {α : Type} {p : Pattern} {s u v : List Char} {next : List Char → List Char → Option α}

theorem exists_of_splitting {x : α} (h : splitting p s next = some x) :
    ∃ u v, s = u ++ v ∧ p.Matches u ∧ next u v = some x := by
  obtain ⟨n, hn, hx⟩ := List.exists_of_findSome?_eq_some h
  obtain ⟨u, v, rfl, rfl, hu⟩ := Pattern.split_of_mem_lengths hn
  rw [List.take_left, List.drop_left] at hx
  exact ⟨u, v, rfl, hu, hx⟩

theorem splitting_isSome (hs : s = u ++ v) (hu : p.Matches u) (h : (next u v).isSome) :
    (splitting p s next).isSome := by
  subst hs
  rw [splitting, List.findSome?_isSome_iff]
  refine ⟨u.length, Pattern.length_mem_lengths.2 hu, ?_⟩
  rwa [List.take_left, List.drop_left]

/-- A part of one character. -/
theorem splitting_char {c : Char} :
    splitting (.char c) (c :: s) next = next [c] s := by
  simp [splitting, Pattern.lengths, Pattern.oneChar]

theorem splitting_char_of_ne {c d : Char} (h : d ≠ c) :
    splitting (.char c) (d :: s) next = none := by
  simp [splitting, Pattern.lengths, Pattern.oneChar, h]

end Splitting

/-! ## Parts of a record -/

theorem matches_recordName {u : List Char} : recordName.Matches u ↔ IsName u := by
  simp [recordName, Pattern.matches_plus_oneIn, ClassItem.accepts, IsName]

theorem matches_body {u : List Char} :
    core.body.Matches u ↔ ∃ b v, u = '\x7b' :: b ++ v ++ ['\x7d'] ∧ IsGap b ∧
      core.tokenList.Matches v := by
  constructor
  · rintro ⟨_, _, rfl, rfl, b, _, rfl, hb, v, _, rfl, hv, rfl⟩
    exact ⟨b, v, by simp, matches_someBlanks.1 hb, hv⟩
  · rintro ⟨b, v, rfl, hb, hv⟩
    exact ⟨['\x7b'], _, by simp, rfl, b, _, rfl, matches_someBlanks.2 hb, v, ['\x7d'], rfl, hv, rfl⟩

/-- **The body of a record.** Tokens in braces are a body, and no other front part is. -/
theorem body_unique {ws : List (List Char × List Char)}
    (h : ∀ w ∈ ws, Readable w.1 ∧ IsGap w.2) {front : List Char}
    (hfront : ∀ c ∈ front, Text.isBlank c = true) {u v rest : List Char} (hu : core.body.Matches u)
    (hs : '\x7b' :: front ++ gapped ws ++ '\x7d' :: rest = u ++ v) :
    u = '\x7b' :: front ++ gapped ws ++ ['\x7d'] ∧ v = rest := by
  obtain ⟨b, w, rfl, ⟨-, hb⟩, hw⟩ := matches_body.1 hu
  have htokens := matches_tokenList.2 ⟨ws, rfl, fun w hw => ⟨(h w hw).1.known, (h w hw).2⟩⟩
  have hinside : front ++ (gapped ws ++ '\x7d' :: rest) = b ++ (w ++ '\x7d' :: v) := by
    simpa using hs
  obtain ⟨rfl, hmore⟩ := front_unique hfront (isBlank_head_tokenList htokens) hb
    (isBlank_head_tokenList hw) hinside
  obtain rfl := tokenList_unique h hw hmore.symm
  exact ⟨by simp, by simpa using hmore.symm⟩

theorem split_of_bodyAt? {s b rest : List Char} (h : core.bodyAt? s = some (b, rest)) :
    s = b ++ rest ∧ core.body.Matches b := by
  obtain ⟨u, v, hs, hu, hx⟩ := exists_of_splitting h
  cases hx
  exact ⟨hs, hu⟩

theorem bodyText_matches {l : Line} (h : l.Legible) : core.body.Matches l.bodyText :=
  matches_body.2 ⟨[' '], spaced l.body, by simp [Line.bodyText], isGap_space,
    tokenList_spaced fun u hu => (h.body u hu).known⟩

theorem body_eq_bodyText {l : Line} (h : l.Legible) {u v rest : List Char}
    (hu : core.body.Matches u) (hs : l.bodyText ++ rest = u ++ v) : u = l.bodyText ∧ v = rest := by
  have hwords : ∀ w ∈ l.body.map (·, [' ']), Readable w.1 ∧ IsGap w.2 := by
    intro w hw
    obtain ⟨u, hu, rfl⟩ := List.mem_map.1 hw
    exact ⟨h.body u hu, isGap_space⟩
  have hfront : '\x7b' :: [' '] ++ gapped (l.body.map (·, [' '])) ++ '\x7d' :: rest = u ++ v := by
    simpa [Line.bodyText, spaced_eq_gapped] using hs
  obtain ⟨hbody, hrest⟩ := body_unique hwords isBlank_space hu hfront
  exact ⟨by simpa [Line.bodyText, spaced_eq_gapped] using hbody, hrest⟩

theorem bodyAt?_text {l : Line} (h : l.Legible) (rest : List Char) :
    core.bodyAt? (l.bodyText ++ rest) = some (l.bodyText, rest) := by
  have hsome : (core.bodyAt? (l.bodyText ++ rest)).isSome :=
    splitting_isSome rfl (bodyText_matches h) rfl
  obtain ⟨⟨b, rest'⟩, hb⟩ := Option.isSome_iff_exists.1 hsome
  obtain ⟨hs, hmatch'⟩ := split_of_bodyAt? hb
  obtain ⟨rfl, rfl⟩ := body_eq_bodyText h hmatch' hs
  exact hb

/-- A list of inputs has no braces, and it begins with no blank. -/
theorem forall_mem_inputList {v : List Char} (hv : inputList.Matches v) :
    ∀ c ∈ v, (c != '\x7b') = true := by
  refine Pattern.Repeated.forall_mem hv ?_
  rintro _ ⟨name, b, rfl, hname, hb⟩ c hc
  rw [bne_iff_ne]
  rintro rfl
  rcases List.mem_append.1 hc with hc | hc
  · exact ((matches_recordName.1 hname).2 _ hc).2.1 rfl
  · have := (matches_someBlanks.1 hb).2 _ hc
    revert this
    decide

theorem isBlank_head_inputList {v rest : List Char} (hv : inputList.Matches v) :
    ∀ c ∈ (v ++ ')' :: rest).head?, Text.isBlank c = false := by
  refine isBlank_head_words rest hv (fun u hu => ?_) (by decide)
  obtain ⟨hne, hname⟩ := matches_recordName.1 hu
  obtain ⟨c, w, rfl⟩ := List.exists_cons_of_ne_nil hne
  exact ⟨c, w, rfl, (hname c List.mem_cons_self).1⟩

theorem inputList_spaced {us : List (List Char)} (h : ∀ u ∈ us, IsName u) :
    inputList.Matches (spaced us) :=
  matches_spaced fun u hu => matches_recordName.2 (h u hu)

/-- In parentheses, a list of inputs ends in front of the last one. -/
theorem inputList_unique {b v w b' v' w' : List Char} (hb : ∀ c ∈ b, Text.isBlank c = true)
    (hv : inputList.Matches v) (hw : ∀ c ∈ w, Text.isBlank c = true)
    (hb' : ∀ c ∈ b', Text.isBlank c = true) (hv' : inputList.Matches v')
    (hw' : ∀ c ∈ w', Text.isBlank c = true)
    (hs : b ++ (v ++ ')' :: w) = b' ++ (v' ++ ')' :: w')) : v = v' := by
  obtain ⟨-, hinside⟩ := front_unique hb (isBlank_head_inputList hv) hb'
    (isBlank_head_inputList hv') hs
  -- the blanks behind the parenthesis, from the back
  have hclose : w.reverse ++ ')' :: v.reverse = w'.reverse ++ ')' :: v'.reverse := by
    simpa using congrArg List.reverse hinside
  have hparen : Text.isBlank ')' = false := by decide
  obtain ⟨-, hinputs⟩ := front_unique (by simpa using hw) (by simp [hparen]) (by simpa using hw')
    (by simp [hparen]) hclose
  simpa using hinputs

/-- **The inputs of a record.** In front of a body, the inputs are found in one way only: behind
them comes the last parenthesis before the brace. -/
theorem inputs_unique {us : List (List Char)} (h : ∀ u ∈ us, IsName u)
    {b v b' body body' : List Char} (hb : ∀ c ∈ b, Text.isBlank c = true)
    (hv : inputList.Matches v) (hb' : ∀ c ∈ b', Text.isBlank c = true)
    (hs : '(' :: ' ' :: spaced us ++ ')' :: ' ' :: '\x7b' :: body
      = '(' :: b ++ v ++ ')' :: b' ++ '\x7b' :: body') :
    v = spaced us ∧ body' = body := by
  have hnot : ∀ c, Text.isBlank c = true → (c != '\x7b') = true := by
    intro c hc
    rw [bne_iff_ne]
    rintro rfl
    revert hc
    decide
  have hus := inputList_spaced h
  have hleft : ∀ c ∈ ' ' :: spaced us ++ [')', ' '], (c != '\x7b') = true := by
    intro c hc
    simp only [List.cons_append, List.mem_cons, List.mem_append, List.not_mem_nil, or_false] at hc
    rcases hc with rfl | hc | rfl | rfl
    · decide
    · exact forall_mem_inputList hus c hc
    · decide
    · decide
  have hright : ∀ c ∈ b ++ v ++ ')' :: b', (c != '\x7b') = true := by
    intro c hc
    simp only [List.mem_cons, List.mem_append] at hc
    rcases hc with (hc | hc) | rfl | hc
    · exact hnot c (hb c hc)
    · exact forall_mem_inputList hv c hc
    · decide
    · exact hnot c (hb' c hc)
  -- the text in front of the brace
  have hbrace : (' ' :: spaced us ++ [')', ' ']) ++ '\x7b' :: body
      = (b ++ v ++ ')' :: b') ++ '\x7b' :: body' := by simpa using hs
  obtain ⟨hfront, hrest⟩ := front_unique hleft (by simp) hright (by simp) hbrace
  have hinside : b ++ (v ++ ')' :: b') = [' '] ++ (spaced us ++ ')' :: [' ']) := by
    simpa using hfront.symm
  exact ⟨inputList_unique hb hv hb' isBlank_space hus isBlank_space hinside,
    by simpa using hrest.symm⟩

/-- How `inputsAndBody?` finds something: inputs in parentheses and what `bodyAt?` finds behind
them, or that alone. -/
theorem inputsAndBody?_split {s inputs body rest : List Char}
    (h : core.inputsAndBody? s = some (inputs, body, rest)) :
    (∃ b b' t, s = '(' :: b ++ inputs ++ ')' :: b' ++ t ∧ (∀ c ∈ b, Text.isBlank c = true) ∧
      inputList.Matches inputs ∧ (∀ c ∈ b', Text.isBlank c = true) ∧
      core.bodyAt? t = some (body, rest)) ∨
    inputs = [] ∧ core.bodyAt? s = some (body, rest) := by
  rcases Option.or_eq_some_iff.1 h with hin | ⟨-, hout⟩
  · obtain ⟨_, s₁, hs, ⟨_, b, rfl, rfl, hb⟩, hin₁⟩ := exists_of_splitting hin
    obtain ⟨v, s₂, rfl, hv, hin₂⟩ := exists_of_splitting hin₁
    obtain ⟨_, s₃, rfl, ⟨_, b', rfl, rfl, hb'⟩, hin₃⟩ := exists_of_splitting hin₂
    obtain ⟨⟨body', rest'⟩, hbody, hx⟩ := Option.map_eq_some_iff.1 hin₃
    cases hx
    exact .inl ⟨b, b', s₃, by simp [hs], matches_blanks.1 hb, hv, matches_blanks.1 hb', hbody⟩
  · obtain ⟨⟨body', rest'⟩, hbody, hx⟩ := Option.map_eq_some_iff.1 hout
    cases hx
    exact .inr ⟨rfl, hbody⟩

/-- What `inputsAndBody?` finds: inputs in parentheses and a body, or a body alone. -/
theorem inputsAndBody?_cases {s inputs body rest : List Char}
    (h : core.inputsAndBody? s = some (inputs, body, rest)) :
    (∃ b b', s = '(' :: b ++ inputs ++ ')' :: b' ++ (body ++ rest) ∧
      (∀ c ∈ b, Text.isBlank c = true) ∧ inputList.Matches inputs ∧
      (∀ c ∈ b', Text.isBlank c = true) ∧ core.body.Matches body) ∨
    inputs = [] ∧ s = body ++ rest ∧ core.body.Matches body := by
  rcases inputsAndBody?_split h with ⟨b, b', t, rfl, hb, hv, hb', hbody⟩ | ⟨rfl, hbody⟩
  · obtain ⟨rfl, hmatch⟩ := split_of_bodyAt? hbody
    exact .inl ⟨b, b', rfl, hb, hv, hb', hmatch⟩
  · exact .inr ⟨rfl, split_of_bodyAt? hbody⟩

/-- A body begins with a brace. -/
theorem exists_cons_of_body {u : List Char} (h : core.body.Matches u) : ∃ v, u = '\x7b' :: v := by
  obtain ⟨b, v, rfl, -⟩ := matches_body.1 h
  exact ⟨_, rfl⟩

/-- However the inputs and the body of a record are found, they are those that were written. -/
theorem inputsAndBody?_unique {l : Line} (h : l.Legible) {s rest v body rest' : List Char}
    (hs : ' ' :: s = l.inputText ++ (l.bodyText ++ rest))
    (hx : core.inputsAndBody? s = some (v, body, rest')) :
    v = spaced l.inputs ∧ body = l.bodyText ∧ rest' = rest := by
  by_cases hinputs : l.inputs = []
  · obtain rfl : s = l.bodyText ++ rest := by simpa [Line.inputText, hinputs] using hs
    rcases inputsAndBody?_cases hx with ⟨b, b', hs', -⟩ | ⟨rfl, hs', hbody⟩
    · simp [Line.bodyText] at hs'
    · exact ⟨by rw [hinputs]; rfl, body_eq_bodyText h hbody hs'⟩
  · obtain rfl : s = '(' :: ' ' :: spaced l.inputs ++ ')' :: ' ' :: (l.bodyText ++ rest) := by
      simpa [Line.inputText, hinputs] using hs
    rcases inputsAndBody?_cases hx with ⟨b, b', hs', hb, hv, hb', hbody⟩ | ⟨-, hs', hbody⟩
    · obtain ⟨w, hw⟩ := exists_cons_of_body hbody
      replace hs' : '(' :: ' ' :: spaced l.inputs ++ ')' :: ' ' ::
            '\x7b' :: (' ' :: spaced l.body ++ '\x7d' :: rest)
          = '(' :: b ++ v ++ ')' :: b' ++ '\x7b' :: (w ++ rest') := by
        simpa [Line.bodyText, hw] using hs'
      obtain ⟨rfl, hrest⟩ := inputs_unique h.inputs hb hv hb' hs'
      refine ⟨rfl, body_eq_bodyText h hbody ?_⟩
      rw [hw, List.cons_append, hrest]
      simp [Line.bodyText]
    · obtain ⟨w, rfl⟩ := exists_cons_of_body hbody
      simp at hs'

/-- The inputs and the body of a record are found. -/
theorem inputsAndBody?_text {l : Line} (h : l.Legible) {s rest : List Char}
    (hs : ' ' :: s = l.inputText ++ (l.bodyText ++ rest)) :
    core.inputsAndBody? s = some (spaced l.inputs, l.bodyText, rest) := by
  have hbodyAt := bodyAt?_text h rest
  suffices hsome : (core.inputsAndBody? s).isSome by
    obtain ⟨⟨v, body, rest'⟩, hx⟩ := Option.isSome_iff_exists.1 hsome
    obtain ⟨rfl, rfl, rfl⟩ := inputsAndBody?_unique h hs hx
    exact hx
  by_cases hinputs : l.inputs = []
  · obtain rfl : s = l.bodyText ++ rest := by simpa [Line.inputText, hinputs] using hs
    simp [inputsAndBody?, hbodyAt]
  · obtain rfl : s =
        ('(' :: [' ']) ++ (spaced l.inputs ++ ((')' :: [' ']) ++ (l.bodyText ++ rest))) := by
      simpa [Line.inputText, hinputs] using hs
    have hblanks : ∀ c : Char, (Pattern.seq (.char c) blanks).Matches (c :: [' ']) := by
      intro c
      exact ⟨[c], [' '], rfl, rfl, matches_blanks.2 isBlank_space⟩
    rw [inputsAndBody?, Option.isSome_or, Bool.or_eq_true]
    refine .inl (splitting_isSome rfl (hblanks _) ?_)
    refine splitting_isSome rfl (inputList_spaced h.inputs) ?_
    refine splitting_isSome rfl (hblanks _) ?_
    rw [hbodyAt]
    rfl

theorem inputNames_spaced {us : List (List Char)} (h : ∀ u ∈ us, IsName u) :
    inputNames (spaced us) = us.map String.ofList := by
  induction us with
  | nil => rfl
  | cons u us ih =>
    obtain ⟨hne, hu⟩ := h u List.mem_cons_self
    have hus := ih fun v hv => h v (List.mem_cons_of_mem u hv)
    have hsplit : (u ++ ' ' :: spaced us).splitOnP Text.isBlank
        = u :: (spaced us).splitOnP Text.isBlank :=
      List.splitOnP_append_cons_of_forall_mem (fun c hc => (hu c hc).1) ' ' (by decide) _
    simp only [inputNames] at hus
    simp [inputNames, hsplit, hne, hus]

/-! ## Records -/

theorem bodyLiterals_text {l : Line} (h : l.Legible) :
    core.bodyLiterals l.bodyText = l.body.map fun u => core.literal (String.ofList u) := by
  have hinside : Literal.between 1 1 l.bodyText = [' '] ++ gapped (l.body.map (·, [' '])) := by
    simp [Literal.between, Line.bodyText, spaced_eq_gapped]
  have hwords : ∀ w ∈ l.body.map (·, [' ']), Readable w.1 ∧ IsGap w.2 := by
    intro w hw
    obtain ⟨u, hu, rfl⟩ := List.mem_map.1 hw
    exact ⟨h.body u hu, isGap_space⟩
  rw [bodyLiterals, hinside, literals_gapped hwords isBlank_space, List.map_map]
  rfl

/-- The longest name is tried first. -/
theorem splitting_recordName {α : Type} {name rest : List Char} {x : α}
    {next : List Char → List Char → Option α} (hname : IsName name)
    (hrest : ∀ c ∈ rest.head?, Text.isBlank c = true) (hx : next name rest = some x) :
    splitting recordName (name ++ rest) next = some x := by
  obtain ⟨hne, hchars⟩ := hname
  obtain ⟨c, run, rfl⟩ := List.exists_cons_of_ne_nil hne
  obtain ⟨hc, hrun⟩ := List.forall_mem_cons.1 hchars
  obtain ⟨more, hlengths⟩ := Pattern.plus_lengths true [.blank, .char '\x7b', .char '\x7d']
    (by simpa [ClassItem.accepts] using hc) (by simpa [ClassItem.accepts] using hrun)
    (fun d hd => by simp [ClassItem.accepts, hrest d hd])
  rw [splitting, recordName, hlengths, List.findSome?_cons]
  simp [hx]

/-- Inputs and a body begin with a parenthesis or a brace. -/
theorem isBlank_head_inputsAndBody? {s : List Char} (h : (core.inputsAndBody? s).isSome) :
    ∀ c ∈ s.head?, Text.isBlank c = false := by
  obtain ⟨⟨v, body, rest⟩, hx⟩ := Option.isSome_iff_exists.1 h
  rcases inputsAndBody?_cases hx with ⟨b, b', rfl, -⟩ | ⟨-, rfl, hbody⟩
  · simpa using (by decide : Text.isBlank '(' = false)
  · obtain ⟨w, rfl⟩ := exists_cons_of_body hbody
    simpa using (by decide : Text.isBlank '\x7b' = false)

/-- What follows the name of a record. -/
theorem splitting_blanks_text {l : Line} (h : l.Legible) (rest : List Char) {α : Type}
    (f : List Char × List Char × List Char → α) :
    splitting blanks (l.inputText ++ (l.bodyText ++ rest))
        (fun _ s => (core.inputsAndBody? s).map f)
      = some (f (spaced l.inputs, l.bodyText, rest)) := by
  obtain ⟨s, hs⟩ : ∃ s, ' ' :: s = l.inputText ++ (l.bodyText ++ rest) := by
    rw [Line.inputText]
    split
    · exact ⟨_, rfl⟩
    · exact ⟨_, rfl⟩
  have hparts := inputsAndBody?_text h hs
  have hsome : (splitting blanks (l.inputText ++ (l.bodyText ++ rest))
      (fun _ s => (core.inputsAndBody? s).map f)).isSome := by
    refine splitting_isSome (u := [' ']) (v := s) hs.symm (matches_blanks.2 isBlank_space) ?_
    rw [hparts]
    rfl
  obtain ⟨x, hx⟩ := Option.isSome_iff_exists.1 hsome
  obtain ⟨b, v, hbv, hb, hv⟩ := exists_of_splitting hx
  obtain ⟨y, hy, rfl⟩ := Option.map_eq_some_iff.1 hv
  -- all of the blanks are taken, since inputs and a body begin with none
  obtain ⟨-, rfl⟩ := front_unique isBlank_space
    (isBlank_head_inputsAndBody? (by rw [hparts]; rfl)) (matches_blanks.1 hb)
    (isBlank_head_inputsAndBody? (by rw [hy]; rfl)) (hs.trans hbv)
  rw [hparts] at hy
  rw [hx, ← Option.some.inj hy]

/-- **A record is read back**, and the search goes on right behind it. -/
theorem stackRecordAt?_text {l : Line} (h : l.Legible) (rest : List Char) :
    core.stackRecordAt? (l.text ++ rest) = some (l.record, rest) := by
  have htext : l.text ++ rest = '@' :: (l.name ++ (l.inputText ++ (l.bodyText ++ rest))) := by
    simp [Line.text]
  have hblank : ∀ c ∈ (l.inputText ++ (l.bodyText ++ rest)).head?, Text.isBlank c = true := by
    rw [Line.inputText]
    split <;> simpa using (by decide : Text.isBlank ' ' = true)
  rw [htext, stackRecordAt?, splitting_char]
  refine splitting_recordName h.name hblank ?_
  rw [splitting_blanks_text h]
  simp only [inputNames_spaced h.inputs, bodyLiterals_text h, Line.record]

/-! ## Records one behind the other -/

section FindAll

variable {α ι : Type} {find : List Char → Option (α × List Char)}

/-- Nothing is found at blanks. -/
theorem findAll_blanks (hfind : ∀ c s, Text.isBlank c = true → find (c :: s) = none)
    {b : List Char} (hb : ∀ c ∈ b, Text.isBlank c = true) (fuel : Nat) (s : List Char) :
    findAll find (b.length + fuel) (b ++ s) = findAll find fuel s := by
  induction b with
  | nil => rw [List.length_nil, Nat.zero_add, List.nil_append]
  | cons c b ih =>
    obtain ⟨hc, hb⟩ := List.forall_mem_cons.1 hb
    rw [List.length_cons, Nat.add_right_comm, List.cons_append, findAll, hfind _ _ hc]
    exact ih hb

/-- **Parts that are found whole**, with blanks behind each, are found one after the other. -/
theorem findAll_gapped (hfind : ∀ c s, Text.isBlank c = true → find (c :: s) = none)
    (word gap : ι → List Char) {Q : ι → α → Prop} {ps : List ι}
    (h : ∀ p ∈ ps, word p ≠ [] ∧ (∀ c ∈ gap p, Text.isBlank c = true) ∧
      ∀ rest, ∃ x, find (word p ++ rest) = some (x, rest) ∧ Q p x) {fuel : Nat}
    (hfuel : (gapped (ps.map fun p => (word p, gap p))).length < fuel) :
    List.Forall₂ Q ps (findAll find fuel (gapped (ps.map fun p => (word p, gap p)))) := by
  induction ps generalizing fuel with
  | nil =>
    obtain ⟨fuel, rfl⟩ := Nat.exists_eq_add_one.2 hfuel
    exact .nil
  | cons p ps ih =>
    obtain ⟨⟨hne, hgap, hword⟩, hps⟩ := List.forall_mem_cons.1 h
    obtain ⟨c, t, ht⟩ := List.exists_cons_of_ne_nil hne
    simp only [List.map_cons, gapped_cons, ht, List.cons_append, List.length_cons,
      List.length_append] at hfuel ⊢
    obtain ⟨x, hx, hQ⟩ := hword (gap p ++ gapped (ps.map fun p => (word p, gap p)))
    rw [ht, List.cons_append] at hx
    obtain ⟨fuel, rfl⟩ : ∃ n, fuel = ((gap p).length + n) + 1 :=
      ⟨fuel - (gap p).length - 1, by omega⟩
    rw [findAll]
    simp only [hx]
    rw [findAll_blanks hfind hgap]
    exact .cons hQ (ih hps (by omega))

end FindAll

theorem stackRecordAt?_blank (c : Char) (s : List Char) (hc : Text.isBlank c = true) :
    core.stackRecordAt? (c :: s) = none := by
  refine splitting_char_of_ne ?_
  rintro rfl
  exact absurd hc (by decide)

/-! ## Lines of records -/

/-- Lines of records, as they are written. -/
def page (ls : List Line) : List Char :=
  ls.flatMap fun l => l.text ++ ['\n']

theorem page_cons (l : Line) (ls : List Line) : page (l :: ls) = l.text ++ '\n' :: page ls := by
  simp [page]

theorem page_eq_gapped (ls : List Line) :
    page ls = gapped (ls.map fun l => (l.text, ['\n'])) := by
  simp [page, gapped, List.flatMap_map]

/-- The records of a page are found one after the other. -/
theorem findAll_page {ls : List Line} (h : ∀ l ∈ ls, l.Legible) :
    findAll core.stackRecordAt? ((page ls).length + 1) (page ls) = ls.map Line.record := by
  have hfound : List.Forall₂ (fun l r => Line.record l = r) ls
      (findAll core.stackRecordAt? ((page ls).length + 1) (page ls)) := by
    rw [page_eq_gapped]
    refine findAll_gapped stackRecordAt?_blank Line.text (fun _ => ['\n']) ?_ (Nat.lt_succ_self _)
    intro l hl
    exact ⟨by simp [Line.text], List.all_eq_true.1 rfl, fun rest =>
      ⟨l.record, stackRecordAt?_text (h l hl) rest, rfl⟩⟩
  rw [← List.forall₂_map_left_iff, List.forall₂_eq_eq_eq] at hfound
  exact hfound.symm

/-- What stands between the name and the body, after one blank. -/
theorem inputGroup_text {l : Line} (h : l.Legible) :
    ∃ v, l.inputText = ' ' :: v ∧ (Pattern.optional (.group inputGroup)).Matches v := by
  by_cases hinputs : l.inputs = []
  · exact ⟨[], by simp [Line.inputText, hinputs], .inr rfl⟩
  · have hblanks : blanks.Matches [' '] := matches_blanks.2 isBlank_space
    refine ⟨['('] ++ ([' '] ++ (spaced l.inputs ++ ([')'] ++ [' ']))), ?_, .inl ?_⟩
    · simp [Line.inputText, hinputs]
    · exact ⟨['('], _, rfl, rfl, [' '], _, rfl, hblanks, spaced l.inputs, _, rfl,
        inputList_spaced h.inputs, [')'], [' '], rfl, rfl, hblanks⟩

theorem stackRecord_text {l : Line} (h : l.Legible) : core.stackRecord.Matches l.text := by
  obtain ⟨v, hv, hgroup⟩ := inputGroup_text h
  refine ⟨['@'], l.name ++ ([' '] ++ (v ++ l.bodyText)), ?_, rfl, l.name, _, rfl,
    matches_recordName.2 h.name, [' '], _, rfl, matches_blanks.2 isBlank_space, v, l.bodyText, rfl,
    hgroup, bodyText_matches h⟩
  simp [Line.text, hv]

/-- A page of records is the text of a workspace. -/
theorem workspaceText_page {ls : List Line} (h : ∀ l ∈ ls, l.Legible) :
    core.workspaceText.Matches (page ls) := by
  refine ⟨page ls, [], by simp, ?_, .nil⟩
  induction ls with
  | nil => exact .nil
  | cons l ls ih =>
    have hls := ih fun m hm => h m (List.mem_cons_of_mem l hm)
    have hline : (Pattern.group (.seq core.stackRecord blanks)).Matches (l.text ++ ['\n']) :=
      ⟨l.text, ['\n'], rfl, stackRecord_text (h l List.mem_cons_self),
        matches_blanks.2 (List.all_eq_true.1 rfl)⟩
    have hpage : page (l :: ls) = (l.text ++ ['\n']) ++ page ls := by simp [page_cons]
    rw [hpage]
    exact .cons hline (by simp) hls

/-- **Lines of records are read back.** -/
theorem records?_page {ls : List Line} (h : ∀ l ∈ ls, l.Legible) :
    core.records? (String.ofList (page ls)) = some (ls.map Line.record) := by
  have hall := Pattern.matchesAll_iff.2 (workspaceText_page h)
  simp only [records?, String.toList_ofList, hall, if_true]
  rw [findAll_page h]

end Grammar

end BlockMachine
