import BlockMachine.CommandLine
import BlockMachine.Proofs.Grammar.FirstReading
import BlockMachine.Proofs.Workspace.Acceptance
import BlockMachine.Proofs.Workspace.Packages

/-!
# Files one behind the other

The files of a run are read as one workspace, each with a line break behind it. What is read of such
a text is what is read of each file alone, one file after the other: a record is found in the same
way whatever comes behind it, and so is a text of records. There are two exceptions. Blanks in front
of the first record are refused, so a blank file cannot come first, unless all files are blank. And
an object that is written with its contents may reach into the text behind it on its line; where it
does, the search may have to take it back, and then a quote in a later file can make it go another
way.

* `Passage.LongestName` — the way in which a record is read that can be read in several ways;
* `Grammar.stackRecordAt?_local` — a record is found in the same way in front of every text;
* `Workspace.Steady` — a text in which no object reaches into what is behind it;
* `Grammar.recordsIn_line` — what is read of such a text with more behind it;
* `Grammar.spells_joined_iff` — which files are accepted one behind the other;
* `Workspace.parse_sources` — what is read of them.
-/

namespace BlockMachine

/-! ## Line breaks -/

theorem swallows_append {x : List Char} (y : List Char) (h : Swallows x) : Swallows (x ++ y) := by
  obtain ⟨a, c, b, rfl, ha, hc⟩ := h
  exact ⟨a, c, b ++ y, by simp, ha, hc⟩

/-- What an object reaches is on its line. -/
theorem swallows_line {x rest : List Char} (h : Swallows (x ++ '\n' :: rest)) :
    Swallows (x ++ ['\n']) := by
  obtain ⟨a, c, b, hs, ha, hc⟩ := h
  have hline : '\n' ∉ a ++ ['\x7d', ']'] := by simpa using ha
  replace hs : x ++ '\n' :: rest = (a ++ ['\x7d', ']']) ++ c :: b := by simpa using hs
  rcases List.append_eq_append_iff.1 hs with ⟨y, hy, hbreak⟩ | ⟨y, rfl, hbreak⟩
  · -- the line does not end in front of the bracket
    cases y with
    | nil =>
      obtain ⟨rfl, -⟩ := List.cons.inj hbreak
      exact ⟨a, '\n', [], by rw [List.append_nil] at hy; simp [← hy], ha, hc⟩
    | cons d y =>
      obtain ⟨rfl, -⟩ := List.cons.inj hbreak
      exact absurd (by rw [hy]; simp) hline
  · cases y with
    | nil =>
      obtain ⟨rfl, -⟩ := List.cons.inj hbreak
      exact ⟨a, '\n', [], by simp, ha, hc⟩
    | cons d y =>
      obtain ⟨rfl, -⟩ := List.cons.inj hbreak
      exact ⟨a, c, y ++ ['\n'], by simp, ha, hc⟩

theorem held_of_plain {ws : List (List Char × List Char)} (h : ∀ w ∈ ws, ¬ Extended w.1)
    (rest : List Char) : Held ws rest := by
  induction ws with
  | nil => trivial
  | cons w ws ih =>
    obtain ⟨hw, hws⟩ := List.forall_mem_cons.1 h
    exact ⟨fun hext => absurd hext hw, ih hws⟩

theorem Held.imp {rest rest' : List Char}
    (h : ∀ x, Swallows (x ++ rest') → Swallows (x ++ rest)) {ws : List (List Char × List Char)}
    (hheld : Held ws rest) : Held ws rest' := by
  induction ws with
  | nil => trivial
  | cons w ws ih =>
    refine ⟨fun hext hswallows => hheld.1 hext ?_, ih hheld.2⟩
    rw [← List.append_assoc] at hswallows ⊢
    exact h _ hswallows

/-! ## The longest name -/

namespace Passage

/-- The names of the inputs, as a text. -/
def inputText (p : Passage) : List Char :=
  (p.inputs.map fun i => Grammar.gapped i.names).getD []

/-- Written in this way, the record has the longest name that it can have. -/
def LongestName (p : Passage) : Prop :=
  ∀ q : Passage, q.WellFormed → q.text = p.text → q.name.length ≤ p.name.length

theorem text_eq (p : Passage) : p.text = '@' :: (p.name ++ p.middle) ++ p.body := by
  simp [text]

/-- Another way to write the front of a record. -/
theorem text_of_heading {p q : Passage}
    (h : '@' :: (q.name ++ q.middle) = '@' :: (p.name ++ p.middle)) :
    { p with name := q.name, gap := q.gap, inputs := q.inputs }.text = p.text := by
  rw [text_eq p, ← h]
  exact text_eq _

theorem wellFormed_of_heading {p q : Passage} (hp : p.WellFormed) (hq : q.WellFormed) :
    { p with name := q.name, gap := q.gap, inputs := q.inputs }.WellFormed :=
  ⟨hq.name, hq.gap, hq.inputs, hp.front, hp.tokens, hp.back⟩

/-- Records that are written the same have the same front and the same body. -/
theorem heading_unique {p q : Passage} (hp : p.WellFormed) (hq : q.WellFormed)
    (h : q.text = p.text) : '@' :: (q.name ++ q.middle) = '@' :: (p.name ++ p.middle) := by
  have hsplit : '@' :: (q.name ++ q.middle) ++ q.body = '@' :: (p.name ++ p.middle) ++ p.body := by
    rw [← text_eq, ← text_eq, h]
  exact (front_unique (Grammar.heading_ne_brace hq) (by simp [body]) (Grammar.heading_ne_brace hp)
    (by simp [body]) hsplit).1

/-- Every record can be written in the way with the longest name. -/
theorem exists_longestName {p : Passage} (h : p.WellFormed) :
    ∃ q : Passage, q.WellFormed ∧ q.text = p.text ∧ q.tokens = p.tokens ∧ q.LongestName := by
  -- a name is never longer than the record, so names cannot get longer for ever
  induction hn : p.text.length - p.name.length using Nat.strong_induction_on generalizing p with
  | h n ih =>
    by_cases hlong : p.LongestName
    · exact ⟨p, h, rfl, rfl, hlong⟩
    · simp only [LongestName, not_forall, Nat.not_le] at hlong
      obtain ⟨q, hq, htext, hlt⟩ := hlong
      have hsame := text_of_heading (heading_unique h hq htext)
      have hbound : q.name.length < p.text.length := by
        rw [← htext]
        simp only [text, List.length_cons, List.length_append]
        omega
      obtain ⟨r, hr, hrtext, hrtokens, hrlong⟩ :=
        ih (p.text.length - q.name.length) (by omega) (wellFormed_of_heading h hq) (by rw [hsame])
      exact ⟨r, hr, hrtext.trans hsame, hrtokens, hrlong⟩

end Passage

namespace Grammar

/-! ## Records in front of a text -/

section Local

variable {p : Passage} {rest : List Char}

/-- What is found as inputs and a body: inputs as in a record, and a body at the first brace. -/
theorem exists_inputPart {s inputs body : List Char}
    (h : core.inputsAndBody? s = some (inputs, body, rest)) :
    ∃ (i : Option InputPart) (t : List Char), (∀ part ∈ i, part.WellFormed) ∧
      s = (i.map InputPart.text).getD [] ++ '\x7b' :: t ∧
      inputs = (i.map fun part => gapped part.names).getD [] ∧
      core.bodyAt? ('\x7b' :: t) = some (body, rest) := by
  have hbrace : ∀ {t}, core.bodyAt? t = some (body, rest) → ∃ t', t = '\x7b' :: t' := by
    intro t ht
    obtain ⟨rfl, hmatch⟩ := split_of_bodyAt? ht
    obtain ⟨t', rfl⟩ := exists_cons_of_body hmatch
    exact ⟨_, rfl⟩
  rcases inputsAndBody?_split h with ⟨b, b', t, rfl, hb, hv, hb', ht⟩ | ⟨rfl, ht⟩
  · obtain ⟨t, rfl⟩ := hbrace ht
    obtain ⟨ws, rfl, hws⟩ := matches_gapped.1 hv
    refine ⟨some ⟨b, ws, b'⟩, t, ?_, by simp [InputPart.text], rfl, ht⟩
    rintro part hpart
    obtain rfl := Option.some.inj hpart
    exact ⟨hb, fun w hw => ⟨matches_recordName.1 (hws w hw).1, matches_someBlanks.1 (hws w hw).2⟩,
      hb'⟩
  · obtain ⟨t, rfl⟩ := hbrace ht
    exact ⟨none, t, by simp, rfl, rfl, ht⟩

/-- Inputs that are written the same are the same list. -/
theorem inputPart_unique {i j : Option InputPart} (hi : ∀ part ∈ i, part.WellFormed)
    (hj : ∀ part ∈ j, part.WellFormed)
    (h : (i.map InputPart.text).getD [] = (j.map InputPart.text).getD []) :
    (i.map fun part => gapped part.names).getD [] = (j.map fun part => gapped part.names).getD [] := by
  cases i with
  | none =>
    cases j with
    | none => rfl
    | some part => cases h
  | some part =>
    cases j with
    | none => cases h
    | some part' =>
      have hpart := hi part rfl
      have hpart' := hj part' rfl
      exact inputList_unique hpart.front (inputList_gapped hpart) hpart.back hpart'.front
        (inputList_gapped hpart') hpart'.back (List.cons.inj h).2

/-- The inputs and the body of a record are found as they stand, if the body is. -/
theorem inputsAndBody?_passage (h : p.WellFormed)
    (hbody : core.bodyAt? (p.body ++ rest) = some (p.body, rest)) :
    core.inputsAndBody? ((p.inputs.map InputPart.text).getD [] ++ (p.body ++ rest))
      = some (p.inputText, p.body, rest) := by
  have hsome := inputsAndBody?_isSome h (s := p.body ++ rest) (by rw [hbody]; rfl)
  obtain ⟨⟨inputs, body, rest'⟩, hx⟩ := Option.isSome_iff_exists.1 hsome
  obtain ⟨i, t, hi, hs, rfl, ht⟩ := exists_inputPart hx
  have hfront : ∀ {j : Option InputPart}, (∀ part ∈ j, part.WellFormed) →
      ∀ c ∈ (j.map InputPart.text).getD [], (c != '\x7b') = true := fun {j} hj =>
    middle_ne_brace (p := { p with gap := [], inputs := j })
      ⟨h.name, List.forall_mem_nil _, hj, h.front, h.tokens, h.back⟩
  obtain ⟨hinputs, hbodies⟩ := front_unique (hfront h.inputs) (by simp [Passage.body]) (hfront hi)
    (by simp) hs
  rw [← hbodies, hbody] at ht
  obtain ⟨rfl, rfl⟩ := Prod.mk.inj (Option.some.inj ht)
  rw [hx, ← inputPart_unique h.inputs hi hinputs, Passage.inputText]

/-- Blanks, inputs and a body behind the name of a record belong to a record with this name. -/
theorem eq_none_of_longer (h : p.WellFormed) (hlong : p.LongestName) {v more : List Char}
    (hs : p.name ++ (p.middle ++ (p.body ++ rest)) = v ++ more) (hv : IsName v)
    (hlt : p.name.length < v.length) {α : Type} (f : List Char × List Char × List Char → α) :
    splitting blanks more (fun _ s => (core.inputsAndBody? s).map f) = none := by
  by_contra hsome
  obtain ⟨x, hx⟩ := Option.ne_none_iff_exists'.1 hsome
  obtain ⟨gap, s, rfl, hgap, hparts⟩ := exists_of_splitting hx
  obtain ⟨⟨inputs, body, rest'⟩, hparts, -⟩ := Option.map_eq_some_iff.1 hparts
  obtain ⟨i, t, hi, rfl, -, -⟩ := exists_inputPart hparts
  have hq : { p with name := v, gap := gap, inputs := i }.WellFormed :=
    ⟨hv, matches_blanks.1 hgap, hi, h.front, h.tokens, h.back⟩
  have hsplit : '@' :: (p.name ++ p.middle) ++ (p.body ++ rest)
      = '@' :: (v ++ { p with name := v, gap := gap, inputs := i }.middle) ++ '\x7b' :: t := by
    simpa [Passage.middle] using hs
  obtain ⟨hheading, -⟩ := front_unique (heading_ne_brace h) (by simp [Passage.body])
    (heading_ne_brace hq) (by simp) hsplit
  exact absurd (hlong _ hq (Passage.text_of_heading hheading.symm)) (Nat.not_le.2 hlt)

/-- The record with the longest name is the one that is found. -/
theorem stackRecordAt?_longest (h : p.WellFormed) (hlong : p.LongestName)
    (hbody : core.bodyAt? (p.body ++ rest) = some (p.body, rest)) :
    core.stackRecordAt? (p.text ++ rest)
      = some (⟨Text.unescape (String.ofList p.name), inputNames p.inputText,
          core.bodyLiterals p.body⟩, rest) := by
  have hparts := inputsAndBody?_passage h hbody
  have htext : p.text ++ rest = '@' :: (p.name ++ (p.middle ++ (p.body ++ rest))) := by
    simp [Passage.text]
  rw [htext, stackRecordAt?, splitting_char]
  refine splitting_longest greedy_recordName (matches_recordName.2 h.name) ?_ ?_
  · have hhead := isBlank_head_inputsAndBody? (Option.isSome_iff_exists.2 ⟨_, hparts⟩)
    rw [Passage.middle, List.append_assoc]
    exact splitting_of_prefers (prefers_blanks h.gap hhead) (by rw [hparts]; rfl)
  · intro v more hs hv hlt
    exact eq_none_of_longer h hlong hs (matches_recordName.1 hv) hlt _

/-- **A record is found in the same way in front of every text** that its objects do not reach
into. -/
theorem stackRecordAt?_local (h : p.WellFormed) :
    ∃ r, ∀ rest, Held p.tokens ('\x7d' :: rest) →
      core.stackRecordAt? (p.text ++ rest) = some (r, rest) := by
  obtain ⟨q, hq, htext, htokens, hlong⟩ := Passage.exists_longestName h
  refine ⟨⟨Text.unescape (String.ofList q.name), inputNames q.inputText, core.bodyLiterals q.body⟩,
    fun rest hheld => ?_⟩
  rw [← htext]
  rw [← htokens] at hheld
  exact stackRecordAt?_longest hq hlong (bodyAt?_held hq.front
    (fun w hw => ⟨exists_kind_of_isSome (hq.tokens w hw).1, (hq.tokens w hw).2⟩) hheld)

end Local

/-! ## Texts in front of texts -/

/-- The records that are found in a text, whether it is accepted or not. -/
def recordsIn (s : List Char) : List Record :=
  findAll core.stackRecordAt? (s.length + 1) s

theorem findAll_fuel {α : Type} {find : List Char → Option (α × List Char)}
    (hfind : ∀ s x rest, find s = some (x, rest) → rest.length < s.length) {fuel fuel' : Nat}
    {s : List Char} (hfuel : s.length < fuel) (hfuel' : s.length < fuel') :
    findAll find fuel s = findAll find fuel' s := by
  induction fuel generalizing fuel' s with
  | zero => cases hfuel
  | succ fuel ih =>
    obtain ⟨fuel', rfl⟩ := Nat.exists_eq_add_one.2 (Nat.zero_lt_of_lt hfuel')
    cases s with
    | nil => rfl
    | cons c s =>
      rw [List.length_cons] at hfuel hfuel'
      rw [findAll, findAll]
      cases hx : find (c :: s) with
      | none => exact ih (by omega) (by omega)
      | some found =>
        have hlt := hfind _ _ _ hx
        rw [List.length_cons] at hlt
        exact congrArg (found.1 :: ·) (ih (by omega) (by omega))

theorem length_lt_of_stackRecordAt? {s rest : List Char} {r : Record}
    (h : core.stackRecordAt? s = some (r, rest)) : rest.length < s.length := by
  obtain ⟨front, body, rfl, -, hbody, -⟩ := stackRecordAt?_cases h
  obtain ⟨t, rfl⟩ := exists_cons_of_body hbody
  simp only [List.length_append, List.length_cons]
  omega

theorem recordsIn_of_stackRecordAt? {s rest : List Char} {r : Record}
    (h : core.stackRecordAt? s = some (r, rest)) : recordsIn s = r :: recordsIn rest := by
  have hlt := length_lt_of_stackRecordAt? h
  cases s with
  | nil => cases hlt
  | cons c s =>
    rw [recordsIn, findAll, h]
    exact congrArg (r :: ·) (findAll_fuel (fun _ _ _ => length_lt_of_stackRecordAt?)
      (by simpa using hlt) (Nat.lt_succ_self _))

theorem recordsIn_blanks {b : List Char} (hb : IsBlank b) (s : List Char) :
    recordsIn (b ++ s) = recordsIn s := by
  rw [recordsIn, List.length_append, Nat.add_assoc]
  exact findAll_blanks stackRecordAt?_blank hb _ s

/-- Records with blanks behind each. -/
def spelled (ps : List Passage) : List Char :=
  gapped (ps.map fun p => (p.text, p.back))

theorem spelled_cons (p : Passage) (ps : List Passage) :
    spelled (p :: ps) = p.text ++ (p.back ++ spelled ps) := by
  simp [spelled]

theorem spelled_append (ps qs : List Passage) : spelled (ps ++ qs) = spelled ps ++ spelled qs := by
  simp [spelled, gapped]

/-- Records of which no object reaches into what is behind it. -/
def AllHeld : List Passage → List Char → Prop
  | [], _ => True
  | p :: ps, rest => Held p.tokens ('\x7d' :: (p.back ++ (spelled ps ++ rest))) ∧ AllHeld ps rest

theorem recordsIn_spelled {ps : List Passage} (h : ∀ p ∈ ps, p.WellFormed) :
    ∃ rs, ∀ rest, AllHeld ps rest → recordsIn (spelled ps ++ rest) = rs ++ recordsIn rest := by
  induction ps with
  | nil => exact ⟨[], fun _ _ => rfl⟩
  | cons p ps ih =>
    obtain ⟨hp, hps⟩ := List.forall_mem_cons.1 h
    obtain ⟨r, hr⟩ := stackRecordAt?_local hp
    obtain ⟨rs, hrs⟩ := ih hps
    refine ⟨r :: rs, fun rest hheld => ?_⟩
    have hfirst := recordsIn_of_stackRecordAt? (hr _ hheld.1)
    rw [recordsIn_blanks hp.back, hrs rest hheld.2] at hfirst
    rw [spelled_cons, List.append_assoc, List.append_assoc, hfirst, List.cons_append]

theorem allHeld_of_plain {ps : List Passage} (h : ∀ p ∈ ps, ∀ w ∈ p.tokens, ¬ Extended w.1)
    (rest : List Char) : AllHeld ps rest := by
  induction ps with
  | nil => trivial
  | cons p ps ih =>
    obtain ⟨hp, hps⟩ := List.forall_mem_cons.1 h
    exact ⟨held_of_plain hp _, ih hps⟩

theorem AllHeld.imp {rest rest' : List Char}
    (h : ∀ x, Swallows (x ++ rest') → Swallows (x ++ rest)) {ps : List Passage}
    (hheld : AllHeld ps rest) : AllHeld ps rest' := by
  induction ps with
  | nil => trivial
  | cons p ps ih =>
    refine ⟨hheld.1.imp fun x hswallows => ?_, ih hheld.2⟩
    have hassoc : ∀ t, x ++ '\x7d' :: (p.back ++ (spelled ps ++ t))
        = (x ++ '\x7d' :: (p.back ++ spelled ps)) ++ t := by simp
    rw [hassoc] at hswallows ⊢
    exact h _ hswallows

/-- **What is read of a text stays the same with more behind it**, from the next line on. -/
theorem recordsIn_line {ps : List Passage} {s : List Char} (h : Spells ps s)
    (hheld : AllHeld ps ['\n']) (more : List Char) :
    recordsIn (s ++ '\n' :: more) = recordsIn s ++ recordsIn more := by
  have hbreak : IsBlank ['\n'] := List.all_eq_true.1 rfl
  have hmore : recordsIn ('\n' :: more) = recordsIn more := recordsIn_blanks hbreak more
  rcases h.text with hs | ⟨-, hblank⟩
  · obtain ⟨rs, hrs⟩ := recordsIn_spelled h.wellFormed
    have halone := hrs [] (hheld.imp fun x hx => by
      rw [List.append_nil] at hx
      exact swallows_append _ hx)
    have hfollowed := hrs ('\n' :: more) (hheld.imp fun x hx => swallows_line hx)
    change s = spelled ps at hs
    rw [hmore] at hfollowed
    rw [List.append_nil] at halone
    rw [hs, hfollowed, halone]
    simp [recordsIn, findAll]
  · have halone := recordsIn_blanks hblank []
    rw [List.append_nil] at halone
    rw [recordsIn_blanks hblank, hmore, halone]
    rfl

/-! ## Joined texts -/

/-- Texts one behind the other, each with a line break behind it. -/
def joined (ts : List (List Char)) : List Char :=
  ts.flatMap (· ++ ['\n'])

@[simp] theorem joined_cons (t : List Char) (ts : List (List Char)) :
    joined (t :: ts) = t ++ '\n' :: joined ts := by
  simp [joined]

theorem isBlank_joined {ts : List (List Char)} : IsBlank (joined ts) ↔ ∀ t ∈ ts, IsBlank t := by
  induction ts with
  | nil => simp [joined, IsBlank]
  | cons t ts ih =>
    have hbreak : Text.isBlank '\n' = true := by decide
    rw [List.forall_mem_cons, ← ih]
    simp [IsBlank, or_imp, forall_and, hbreak]

/-- Joined texts are records, with blanks in front of the first one only if the first text is
blank. -/
theorem exists_joined {ts : List (List Char)} (h : ∀ t ∈ ts, ∃ ps, Spells ps t) :
    ∃ b ps, joined ts = b ++ spelled ps ∧ IsBlank b ∧ (∀ p ∈ ps, p.WellFormed) ∧
      ((∀ t ∈ ts.head?, ¬ IsBlank t) → b = []) := by
  induction ts with
  | nil => exact ⟨[], [], rfl, List.forall_mem_nil _, by simp, fun _ => rfl⟩
  | cons t ts ih =>
    obtain ⟨⟨ps, hps⟩, hts⟩ := List.forall_mem_cons.1 h
    obtain ⟨b, qs, hjoined, hb, hqs, -⟩ := ih hts
    have hline : IsBlank ('\n' :: b) := List.forall_mem_cons.2 ⟨by decide, hb⟩
    by_cases ht : IsBlank t
    · refine ⟨t ++ '\n' :: b, qs, by simp [hjoined], List.forall_mem_append.2 ⟨ht, hline⟩, hqs, ?_⟩
      exact fun hhead => absurd ht (hhead t rfl)
    · -- the blanks behind the text go to its last record
      have hs := hps.text.resolve_right fun hblank => ht hblank.2
      obtain ⟨ps', hps'⟩ := spells_append hps.wellFormed hline
      rw [← hs] at hps'
      have hs' := hps'.text.resolve_right fun hblank =>
        ht fun c hc => hblank.2 c (List.mem_append_left _ hc)
      change t ++ '\n' :: b = spelled ps' at hs'
      refine ⟨[], ps' ++ qs, ?_, List.forall_mem_nil _,
        List.forall_mem_append.2 ⟨hps'.wellFormed, hqs⟩, fun _ => rfl⟩
      rw [joined_cons, hjoined, spelled_append, ← hs']
      simp

/-- **Which texts are accepted one behind the other**: any that are accepted alone, unless there is
a blank one in front of a record. -/
theorem spells_joined_iff {ts : List (List Char)} (h : ∀ t ∈ ts, ∃ ps, Spells ps t) :
    (∃ ps, Spells ps (joined ts)) ↔ (∀ t ∈ ts.head?, ¬ IsBlank t) ∨ ∀ t ∈ ts, IsBlank t := by
  constructor
  · rintro ⟨ps, hps⟩
    rcases hps.text with hs | ⟨-, hblank⟩
    · refine .inl ?_
      rintro t ht hblank
      obtain ⟨ts, rfl⟩ := List.head?_eq_some_iff.1 ht
      -- a blank text begins, or its line break does, and a record begins with neither
      obtain ⟨c, s, hc, hcs⟩ : ∃ c s, Text.isBlank c = true ∧ joined (t :: ts) = c :: s := by
        cases t with
        | nil => exact ⟨'\n', _, by decide, joined_cons _ _⟩
        | cons c t => exact ⟨c, _, hblank c List.mem_cons_self, joined_cons _ _⟩
      rw [hcs] at hs
      cases ps with
      | nil => cases hs
      | cons p ps =>
        obtain ⟨rfl, -⟩ := List.cons.inj hs
        exact absurd hc (by decide)
    · exact .inr (isBlank_joined.1 hblank)
  · rintro (hhead | hblank)
    · obtain ⟨b, ps, hjoined, -, hps, hb⟩ := exists_joined h
      obtain rfl := hb hhead
      exact ⟨ps, hps, .inl hjoined⟩
    · exact ⟨[], by simp, .inr ⟨rfl, isBlank_joined.2 hblank⟩⟩

/-- What is read of joined texts is what is read of each. -/
theorem recordsIn_joined {ts : List (List Char)}
    (h : ∀ t ∈ ts, ∃ ps, Spells ps t ∧ AllHeld ps ['\n']) :
    recordsIn (joined ts) = ts.flatMap recordsIn := by
  induction ts with
  | nil => rfl
  | cons t ts ih =>
    obtain ⟨⟨ps, hps, hheld⟩, hts⟩ := List.forall_mem_cons.1 h
    rw [joined_cons, recordsIn_line hps hheld, ih hts, List.flatMap_cons]

end Grammar

/-! ## Stacks as texts -/

/-- What is written of a stack: its name, its inputs and the text of each of its blocks. -/
structure StackText where
  name : String
  inputs : List String
  blocks : List String

/-- What is written of the stack that a record says. -/
def Record.stackText (l : Localizer) (r : Record) : StackText where
  name := if r.name.isEmpty then "i" else r.name
  inputs := r.inputs
  blocks := r.body.map (Literal.written l)

namespace Workspace

open Grammar (core recordsIn joined)

variable {l : Localizer}

/-- What is written of the stacks of a workspace, in order. -/
def stackTexts (ws : Workspace) (h : Heap) : List StackText :=
  ws.locs.map fun loc => ⟨h.nameOf loc, (h.get loc).inputs, (h.blocks loc).map h.written⟩

/-- Blocks that were made of literals and bound are written as the literals say. -/
theorem written_of_stackOf {ws : Workspace} {h : Heap} {r : Record} {loc : Loc}
    (hloc : StackOf l ws h r loc)
    (hflat : ∀ x ∈ r.body, ∀ inner, x = .package inner → ∀ y, inner ≠ .package y) :
    (h.blocks loc).map h.written = r.body.map (Literal.written l) := by
  obtain ⟨ys, hmade, hblocks⟩ := hloc.blocks
  have hwritten : r.body.map (Literal.written l) = ys.map h.written := by
    rw [← List.forall₂_eq_eq_eq, List.forall₂_map_left_iff, List.forall₂_map_right_iff]
    refine ((List.forall₂_and_left _ _).2 ⟨hflat, hmade⟩).imp fun x y hxy => ?_
    exact (Literal.written_of_made hxy.1 hxy.2).symm
  rw [hblocks, List.map_map, hwritten]
  exact List.map_congr_left fun y _ => written_resolve ws h y

/-- **What is written of a workspace that was read**, its records say. -/
theorem stackTexts_of_parse {text : String} {st : Store} {r : Workspace × Store}
    (h : parse core l text st = .ok r) :
    core.records? text = some (recordsIn text.toList) ∧
      r.1.stackTexts r.2.heap = (recordsIn text.toList).map (Record.stackText l) := by
  have hrecords : core.records? text = some (recordsIn text.toList) :=
    Grammar.records?_of_spells (exists_parse_iff.1 ⟨r, h⟩)
  refine ⟨hrecords, ?_⟩
  rw [parse, hrecords] at h
  obtain rfl := Except.ok.inj h
  have hbuilt := ofRecords_built l (recordsIn text.toList) st
  have hflat : ∀ rec ∈ recordsIn text.toList,
      ∀ x ∈ rec.body, ∀ inner, x = .package inner → ∀ y, inner ≠ .package y := by
    intro rec hrec x hx inner hinner
    obtain ⟨u, k, -, rfl⟩ := (Grammar.record_of_records? hrecords hrec).2 x hx
    exact Grammar.literal_package hinner
  symm
  rw [stackTexts, ← List.forall₂_eq_eq_eq, List.forall₂_map_left_iff, List.forall₂_map_right_iff]
  refine ((List.forall₂_and_left _ _).2 ⟨hflat, hbuilt.made⟩).imp ?_
  rintro rec loc ⟨hplain, hloc⟩
  rw [hloc.name, hloc.inputs, written_of_stackOf hloc hplain, Record.stackText]

/-! ## Files -/

/-- A text that can be put together from records in such a way that no object with contents reaches
into what is behind it on its line. -/
def Steady (text : String) : Prop :=
  ∃ ps, Spells ps text.toList ∧ Grammar.AllHeld ps ['\n']

/-- Without a comma there is no object with contents. -/
theorem steady_of_plain {text : String} (h : ∃ ps, Spells ps text.toList)
    (hcomma : ',' ∉ text.toList) : Steady text := by
  obtain ⟨ps, hps⟩ := h
  refine ⟨ps, hps, Grammar.allHeld_of_plain (fun p hp w hw hext => hcomma ?_) _⟩
  rcases hps.text with hs | ⟨rfl, -⟩
  · have hbody : ',' ∈ p.text := by
      have htoken : ',' ∈ Grammar.gapped p.tokens :=
        List.mem_flatMap.2 ⟨w, hw, List.mem_append_left _ hext.mem⟩
      simp [Passage.text, Passage.body, htoken]
    rw [hs]
    exact List.mem_flatMap.2
      ⟨(p.text, p.back), List.mem_map_of_mem hp, List.mem_append_left _ hbody⟩
  · cases hp

theorem toList_readSources {files : CommandLine.Files} {names ts : List String}
    (h : List.Forall₂ (fun name t => files name = .ok t) names ts) :
    ∃ text, CommandLine.readSources files names = .ok text ∧
      text.toList = joined (ts.map String.toList) := by
  induction h with
  | nil => exact ⟨"", rfl, rfl⟩
  | @cons name t names ts hname _ ih =>
    obtain ⟨more, hread, hmore⟩ := ih
    refine ⟨t ++ "\n" ++ more, ?_, by simp [hmore]⟩
    rw [CommandLine.readSources, hname, hread]
    rfl

/-- **Files are read one after the other.** Files that are accepted alone are accepted together
exactly if the first one is not blank or all of them are. The stacks that are read then are those of
the first file, those of the second one and so on, with the same names, inputs and texts of blocks,
if no object in a file reaches into what is behind it. -/
theorem parse_sources (l : Localizer) {files : CommandLine.Files} {names ts : List String}
    (hfiles : List.Forall₂ (fun name t => files name = .ok t) names ts)
    (hts : ∀ t ∈ ts, ∃ st r, parse core l t st = .ok r) :
    ∃ text, CommandLine.readSources files names = .ok text ∧
      (∀ st, (∃ r, parse core l text st = .ok r)
        ↔ (∀ t ∈ ts.head?, ¬ IsBlank t.toList) ∨ ∀ t ∈ ts, IsBlank t.toList) ∧
      ∀ st r, parse core l text st = .ok r → (∀ t ∈ ts, Steady t) →
        ∀ rs, List.Forall₂ (fun t r => ∃ st, parse core l t st = .ok r) ts rs →
          r.1.stackTexts r.2.heap = rs.flatMap fun r => r.1.stackTexts r.2.heap := by
  obtain ⟨text, hread, htext⟩ := toList_readSources hfiles
  refine ⟨text, hread, fun st => ?_, fun st r hr hsteady rs hrs => ?_⟩
  · have hspells : ∀ t ∈ ts.map String.toList, ∃ ps, Spells ps t := by
      intro t ht
      obtain ⟨u, hu, rfl⟩ := List.mem_map.1 ht
      obtain ⟨st, hst⟩ := hts u hu
      exact exists_parse_iff.1 hst
    rw [exists_parse_iff, htext, Grammar.spells_joined_iff hspells]
    simp
  · have hjoined : recordsIn text.toList = ts.flatMap fun t => recordsIn t.toList := by
      have hheld : ∀ t ∈ ts.map String.toList, ∃ ps, Spells ps t ∧ Grammar.AllHeld ps ['\n'] := by
        intro t ht
        obtain ⟨u, hu, rfl⟩ := List.mem_map.1 ht
        exact hsteady u hu
      rw [htext, Grammar.recordsIn_joined hheld, List.flatMap_map]
    have hlisted : List.Forall₂
        (fun t r => (recordsIn t.toList).map (Record.stackText l) = r.1.stackTexts r.2.heap)
        ts rs := hrs.imp fun t r ⟨_, hr⟩ => (stackTexts_of_parse hr).2.symm
    rw [(stackTexts_of_parse hr).2, hjoined, List.map_flatMap]
    clear hfiles hts hsteady hrs hjoined htext
    induction hlisted with
    | nil => rfl
    | cons hfirst _ ih => rw [List.flatMap_cons, List.flatMap_cons, hfirst, ih]

/-- A program, a blank text, and an object with its contents next to a text with a brace. -/
def sampleTexts : List String :=
  ["@Poly ( x ) \x7b @data $x nth \x7d", " \n",
    "@data \x7b Object[robot, \x7b\x7d] \"\x7d\" \x7d"]

/-- Files of these texts. -/
def sampleFiles : CommandLine.Files := fun name =>
  match ["main", "blank", "data"].zip sampleTexts |>.lookup name with
  | some text => .ok text
  | none => .error Error.noSuchFile

/-- The record of the object. -/
def dataPassage : Passage where
  name := "data".toList
  gap := [' ']
  inputs := none
  front := [' ']
  tokens := [("Object[robot, \x7b\x7d]".toList, [' ']), ("\"\x7d\"".toList, [' '])]
  back := []

theorem spells_dataPassage :
    Spells [dataPassage] "@data \x7b Object[robot, \x7b\x7d] \"\x7d\" \x7d".toList := by
  refine ⟨?_, .inl (by decide)⟩
  rintro p hp
  obtain rfl := List.mem_singleton.1 hp
  have hname : IsName dataPassage.name := by decide
  have hfront : Grammar.IsGap dataPassage.front := by decide
  have htokens : ∀ w ∈ dataPassage.tokens,
      (core.entryOf? w.1).isSome = true ∧ Grammar.IsGap w.2 := by decide +kernel
  exact ⟨hname, List.all_eq_true.1 rfl, nofun, hfront, htokens, List.forall_mem_nil _⟩

theorem steady_sampleTexts : ∀ t ∈ sampleTexts, Steady t := by
  have hplain : ∀ t, core.workspaceText.matchesAll t.toList = true → ',' ∉ t.toList → Steady t :=
    fun t ht => steady_of_plain (Grammar.workspaceText_iff.1 ht)
  refine List.forall_mem_cons.2 ⟨hplain _ (by decide +kernel) (by decide),
    List.forall_mem_cons.2 ⟨hplain _ (by decide +kernel) (by decide), ?_⟩⟩
  intro t ht
  obtain rfl := List.mem_singleton.1 ht
  refine ⟨[dataPassage], spells_dataPassage, ⟨?_, ?_, trivial⟩, trivial⟩
  · -- there is no second bracket to reach
    rintro - ⟨a, c, b, hs, -⟩
    have hmem : ']' ∈ a ++ '\x7d' :: ']' :: c :: b := by simp
    rw [← hs] at hmem
    revert hmem
    decide
  · rintro ⟨id, contents, hword, -⟩
    exact absurd (List.cons.inj hword).1 (by decide)

/-- They are read one after the other; with the blank one in front they are refused. -/
theorem parse_sources_sample :
    (∃ text r, CommandLine.readSources sampleFiles ["main", "blank", "data"] = .ok text ∧
      parse core Localizer.plain text (Store.ofSeed 0) = .ok r ∧
      ∀ rs, List.Forall₂ (fun t r => ∃ st, parse core Localizer.plain t st = .ok r) sampleTexts rs →
        r.1.stackTexts r.2.heap = rs.flatMap fun r => r.1.stackTexts r.2.heap) ∧
      ∃ text, CommandLine.readSources sampleFiles ["blank", "main"] = .ok text ∧
        ¬∃ r, parse core Localizer.plain text (Store.ofSeed 0) = .ok r := by
  have hread : ∀ t ∈ sampleTexts, ∃ st r, parse core Localizer.plain t st = .ok r := by
    intro t ht
    obtain ⟨ps, hps, -⟩ := steady_sampleTexts t ht
    exact ⟨Store.ofSeed 0, exists_parse_iff.2 ⟨ps, hps⟩⟩
  have hprogram : ¬ IsBlank "@Poly ( x ) \x7b @data $x nth \x7d".toList := fun h =>
    absurd (h '@' (by decide)) (by decide)
  refine ⟨?_, ?_⟩
  · have hfiles : List.Forall₂ (fun name t => sampleFiles name = .ok t) ["main", "blank", "data"]
        sampleTexts := .cons rfl (.cons rfl (.cons rfl .nil))
    obtain ⟨text, htext, hiff, hstacks⟩ := parse_sources Localizer.plain hfiles hread
    obtain ⟨r, hr⟩ := (hiff (Store.ofSeed 0)).2 (.inl fun t ht => Option.some.inj ht ▸ hprogram)
    exact ⟨text, r, htext, hr, hstacks _ r hr steady_sampleTexts⟩
  · have hfiles : List.Forall₂ (fun name t => sampleFiles name = .ok t) ["blank", "main"]
        (sampleTexts.take 2).reverse := .cons rfl (.cons rfl .nil)
    obtain ⟨text, htext, hiff, -⟩ := parse_sources Localizer.plain hfiles fun t ht =>
      hread t (List.mem_of_mem_take (List.mem_reverse.1 ht))
    refine ⟨text, htext, fun hparse => ?_⟩
    rcases (hiff (Store.ofSeed 0)).1 hparse with hhead | hall
    · exact hhead " \n" rfl (List.all_eq_true.1 rfl)
    · exact hprogram (hall _ (by simp [sampleTexts]))

/-- With a text that goes on in the next file, an object can take a record along. -/
example :
    let first := "@a \x7b Object[x, \x7b\x7d] \x7d @b \x7b \"\x7d] \" \x7d"
    let second := "@d \x7b \" \x7d \" \x7d"
    (core.records? first).map (·.map Record.name) = some ["a", "b"] ∧
      (core.records? second).map (·.map Record.name) = some ["d"] ∧
      (core.records? (first ++ "\n" ++ second ++ "\n")).map (·.map Record.name) = some ["a"] := by
  decide +kernel

end Workspace

end BlockMachine
