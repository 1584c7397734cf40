import BlockMachine.Proofs.Grammar.BlockLists
import BlockMachine.Proofs.Grammar.RecordText

/-!
# Which texts are workspaces

A text is checked as a whole by one pattern, and then searched for records by another, and each record
for its tokens by a third. All three agree: a text is accepted exactly if it is put together from
records, and then it is read as these records, with nothing skipped. The one exception are objects
that are written with their contents, in which the search for tokens may go too far.

In front of a body there are no braces, so a body begins at the first brace of its record, whatever
stands in the parentheses or in the name. From there on tokens end in one way only.

* `Passage` — a record in a text, part by part; `Spells` — a text that is put together from some;
* `Grammar.workspaceText_iff` — these are the texts that are accepted;
* `Grammar.stackRecordAt?_passage` — the body of a record is found as it stands;
* `Workspace.parse_spelled` — what is read of a text.
-/

namespace BlockMachine

/-- Blanks, or none. -/
def IsBlank (b : List Char) : Prop :=
  ∀ c ∈ b, Text.isBlank c = true

/-- A list of inputs in parentheses. -/
structure InputPart where
  front : List Char
  /-- The names, each with the blanks behind it. -/
  names : List (List Char × List Char)
  back : List Char

/-- A record in a text, and the blanks behind it. -/
structure Passage where
  name : List Char
  gap : List Char
  inputs : Option InputPart
  front : List Char
  /-- The tokens, each with the blanks behind it. -/
  tokens : List (List Char × List Char)
  back : List Char

/-- The inputs, with blanks behind the opening and the closing parenthesis. -/
def InputPart.text (i : InputPart) : List Char :=
  '(' :: (i.front ++ (Grammar.gapped i.names ++ ')' :: i.back))

structure InputPart.WellFormed (i : InputPart) : Prop where
  front : IsBlank i.front
  names : ∀ w ∈ i.names, IsName w.1 ∧ Grammar.IsGap w.2
  back : IsBlank i.back

namespace Passage

/-- What stands between the name and the body. -/
def middle (p : Passage) : List Char :=
  p.gap ++ (p.inputs.map InputPart.text).getD []

/-- The tokens in braces. -/
def body (p : Passage) : List Char :=
  '\x7b' :: p.front ++ Grammar.gapped p.tokens ++ ['\x7d']

/-- The record. -/
def text (p : Passage) : List Char :=
  '@' :: (p.name ++ (p.middle ++ p.body))

structure WellFormed (p : Passage) : Prop where
  name : IsName p.name
  gap : IsBlank p.gap
  inputs : ∀ i ∈ p.inputs, i.WellFormed
  front : Grammar.IsGap p.front
  /-- Each token is accepted as a whole text. -/
  tokens : ∀ w ∈ p.tokens, (Grammar.core.entryOf? w.1).isSome = true ∧ Grammar.IsGap w.2
  back : IsBlank p.back

/-- The tokens say what they say alone. -/
def literals (p : Passage) : List Literal :=
  p.tokens.map fun w => Grammar.core.literal (String.ofList w.1)

end Passage

/-- A text that is put together from records with blanks behind them, or is blank. -/
structure Spells (ps : List Passage) (s : List Char) : Prop where
  wellFormed : ∀ p ∈ ps, p.WellFormed
  text : s = Grammar.gapped (ps.map fun p => (p.text, p.back)) ∨ ps = [] ∧ IsBlank s

namespace Grammar

/-! ## What is accepted -/

theorem matches_inputGroup {u : List Char} :
    inputGroup.Matches u ↔ ∃ i : InputPart, i.WellFormed ∧ i.text = u := by
  constructor
  · rintro ⟨_, _, rfl, rfl, b, _, rfl, hb, v, _, rfl, hv, _, b', rfl, rfl, hb'⟩
    obtain ⟨ws, rfl, hws⟩ := matches_gapped.1 hv
    refine ⟨⟨b, ws, b'⟩, ⟨matches_blanks.1 hb, ?_, matches_blanks.1 hb'⟩, rfl⟩
    intro w hw
    exact ⟨matches_recordName.1 (hws w hw).1, matches_someBlanks.1 (hws w hw).2⟩
  · rintro ⟨i, h, rfl⟩
    refine ⟨['('], _, rfl, rfl, i.front, _, rfl, matches_blanks.2 h.front, gapped i.names, _, rfl,
      matches_gapped.2 ⟨_, rfl, ?_⟩, [')'], i.back, rfl, rfl, matches_blanks.2 h.back⟩
    intro w hw
    exact ⟨matches_recordName.2 (h.names w hw).1, matches_someBlanks.2 (h.names w hw).2⟩

theorem matches_passageBody {u : List Char} :
    core.body.Matches u ↔ ∃ front ws, u = '\x7b' :: front ++ gapped ws ++ ['\x7d'] ∧ IsGap front ∧
      ∀ w ∈ ws, (core.entryOf? w.1).isSome = true ∧ IsGap w.2 := by
  rw [matches_body]
  constructor
  · rintro ⟨b, v, rfl, hb, hv⟩
    obtain ⟨ws, rfl, hws⟩ := matches_tokenList.1 hv
    refine ⟨b, ws, rfl, hb, ?_⟩
    intro w hw
    obtain ⟨hknown, hgap⟩ := hws w hw
    obtain ⟨k, -, -, he⟩ := exists_entryOf? hknown
    exact ⟨by rw [he]; rfl, hgap⟩
  · rintro ⟨b, ws, rfl, hb, hws⟩
    refine ⟨b, _, rfl, hb, matches_tokenList.2 ⟨ws, rfl, ?_⟩⟩
    intro w hw
    exact ⟨exists_kind_of_isSome (hws w hw).1, (hws w hw).2⟩

theorem matches_stackRecord {u b : List Char} (hb : IsBlank b) :
    core.stackRecord.Matches u ↔ ∃ p : Passage, p.WellFormed ∧ (p.text, p.back) = (u, b) := by
  constructor
  · rintro ⟨_, _, rfl, rfl, name, _, rfl, hname, gap, _, rfl, hgap, v, body, rfl, hv, hbody⟩
    obtain ⟨front, ws, rfl, hfront, hws⟩ := matches_passageBody.1 hbody
    obtain ⟨inputs, hinputs, rfl⟩ : ∃ inputs : Option InputPart,
        (∀ i ∈ inputs, i.WellFormed) ∧ (inputs.map InputPart.text).getD [] = v := by
      rcases hv with hv | rfl
      · obtain ⟨i, hi, rfl⟩ := matches_inputGroup.1 hv
        exact ⟨some i, by simpa using hi, rfl⟩
      · exact ⟨none, by simp, rfl⟩
    refine ⟨⟨name, gap, inputs, front, ws, b⟩, ⟨matches_recordName.1 hname, matches_blanks.1 hgap,
      hinputs, hfront, hws, hb⟩, ?_⟩
    simp [Passage.text, Passage.middle, Passage.body]
  · rintro ⟨p, h, heq⟩
    obtain ⟨rfl, rfl⟩ := Prod.mk.inj heq
    refine ⟨['@'], p.name ++ (p.gap ++ ((p.inputs.map InputPart.text).getD [] ++ p.body)), ?_, rfl,
      p.name, _, rfl, matches_recordName.2 h.name, p.gap, _, rfl, matches_blanks.2 h.gap, _, p.body,
      rfl, ?_, matches_passageBody.2 ⟨p.front, p.tokens, rfl, h.front, h.tokens⟩⟩
    · simp [Passage.text, Passage.middle]
    · cases hi : p.inputs with
      | none => exact .inr rfl
      | some i => exact .inl (matches_inputGroup.2 ⟨i, h.inputs i hi, rfl⟩)

/-- Blanks behind the last record belong to it. -/
theorem spells_append {ps : List Passage} {b : List Char} (h : ∀ p ∈ ps, p.WellFormed)
    (hb : IsBlank b) :
    ∃ qs, Spells qs (gapped (ps.map fun p => (p.text, p.back)) ++ b) := by
  rcases List.eq_nil_or_concat ps with rfl | ⟨ps, p, hps⟩
  · exact ⟨[], by simp, .inr ⟨rfl, by simpa using hb⟩⟩
  · rw [List.concat_eq_append] at hps
    subst hps
    obtain ⟨hinit, hlast⟩ := List.forall_mem_append.1 h
    have hp := hlast p (List.mem_singleton_self p)
    refine ⟨ps ++ [{ p with back := p.back ++ b }], ?_, .inl ?_⟩
    · refine List.forall_mem_append.2 ⟨hinit, ?_⟩
      rintro q hq
      obtain rfl := List.mem_singleton.1 hq
      exact { hp with back := List.forall_mem_append.2 ⟨hp.back, hb⟩ }
    · simp [gapped, Passage.text, Passage.middle, Passage.body]

/-- **What is accepted**: texts that are put together from records. -/
theorem workspaceText_iff {s : List Char} :
    core.workspaceText.matchesAll s = true ↔ ∃ ps, Spells ps s := by
  rw [Pattern.matchesAll_iff]
  constructor
  · rintro ⟨v, b, rfl, hv, hb⟩
    obtain ⟨ws, rfl, hws⟩ := matches_gapped.1 hv
    obtain ⟨ps, hps, rfl⟩ : ∃ ps : List Passage, (∀ p ∈ ps, p.WellFormed) ∧
        ps.map (fun p => (p.text, p.back)) = ws := by
      clear hv
      induction ws with
      | nil => exact ⟨[], by simp, rfl⟩
      | cons w ws ih =>
        obtain ⟨⟨hrecord, hback⟩, hws⟩ := List.forall_mem_cons.1 hws
        obtain ⟨p, hp, hw⟩ := (matches_stackRecord (matches_blanks.1 hback)).1 hrecord
        obtain ⟨ps, hps, rfl⟩ := ih hws
        exact ⟨p :: ps, List.forall_mem_cons.2 ⟨hp, hps⟩, by simp [hw]⟩
    exact spells_append hps (matches_blanks.1 hb)
  · rintro ⟨ps, hps, rfl | ⟨-, hs⟩⟩
    · refine ⟨_, [], (List.append_nil _).symm, matches_gapped.2 ⟨_, rfl, ?_⟩, .nil⟩
      intro w hw
      obtain ⟨p, hp, rfl⟩ := List.mem_map.1 hw
      exact ⟨(matches_stackRecord (hps p hp).back).2 ⟨p, hps p hp, rfl⟩,
        matches_blanks.2 (hps p hp).back⟩
    · exact ⟨[], s, rfl, .nil, matches_blanks.2 hs⟩

theorem records?_of_spells {text : String} (h : ∃ ps, Spells ps text.toList) :
    core.records? text
      = some (findAll core.stackRecordAt? (text.toList.length + 1) text.toList) := by
  simp only [records?, workspaceText_iff.2 h, if_true]

theorem records?_eq_none {text : String} (h : ¬∃ ps, Spells ps text.toList) :
    core.records? text = none := by
  rw [← workspaceText_iff, Bool.not_eq_true] at h
  simp only [records?, h, Bool.false_eq_true, if_false]

/-! ## What is found -/

theorem ne_brace_of_blank {b : List Char} (hb : IsBlank b) : ∀ c ∈ b, (c != '\x7b') = true := by
  intro c hc
  rw [bne_iff_ne]
  rintro rfl
  exact absurd (hb _ hc) (by decide)

theorem ne_brace_of_name {u : List Char} (hu : IsName u) : ∀ c ∈ u, (c != '\x7b') = true := by
  intro c hc
  exact bne_iff_ne.2 (hu.2 c hc).2.1

/-- **What a search for a record finds**: a body behind a text without braces. -/
theorem stackRecordAt?_cases {s rest : List Char} {r : Record}
    (h : core.stackRecordAt? s = some (r, rest)) :
    ∃ front body, s = front ++ (body ++ rest) ∧ (∀ c ∈ front, (c != '\x7b') = true) ∧
      core.body.Matches body ∧ r.body = core.bodyLiterals body := by
  obtain ⟨_, s₁, rfl, rfl, h₁⟩ := exists_of_splitting h
  obtain ⟨name, s₂, rfl, hname, h₂⟩ := exists_of_splitting h₁
  obtain ⟨gap, s₃, rfl, hgap, h₃⟩ := exists_of_splitting h₂
  obtain ⟨⟨inputs, body, rest'⟩, hparts, hr⟩ := Option.map_eq_some_iff.1 h₃
  obtain ⟨rfl, rfl⟩ := Prod.mk.inj hr
  have hhead : ∀ c ∈ '@' :: (name ++ gap), (c != '\x7b') = true := by
    refine List.forall_mem_cons.2 ⟨by decide, List.forall_mem_append.2 ⟨?_, ?_⟩⟩
    · exact ne_brace_of_name (matches_recordName.1 hname)
    · exact ne_brace_of_blank (matches_blanks.1 hgap)
  rcases inputsAndBody?_cases hparts with ⟨b, b', rfl, hb, hv, hb', hbody⟩ | ⟨rfl, rfl, hbody⟩
  · refine ⟨'@' :: (name ++ gap) ++ '(' :: (b ++ (inputs ++ ')' :: b')), body, by simp, ?_, hbody,
      rfl⟩
    refine List.forall_mem_append.2 ⟨hhead, List.forall_mem_cons.2 ⟨by decide, ?_⟩⟩
    refine List.forall_mem_append.2 ⟨ne_brace_of_blank hb, List.forall_mem_append.2 ⟨?_, ?_⟩⟩
    · exact forall_mem_inputList hv
    · exact List.forall_mem_cons.2 ⟨by decide, ne_brace_of_blank hb'⟩
  · exact ⟨'@' :: (name ++ gap), body, by simp, hhead, hbody, rfl⟩

section Passage

variable {p : Passage}

theorem inputList_gapped {i : InputPart} (h : i.WellFormed) :
    inputList.Matches (gapped i.names) := by
  refine matches_gapped.2 ⟨_, rfl, ?_⟩
  intro w hw
  exact ⟨matches_recordName.2 (h.names w hw).1, matches_someBlanks.2 (h.names w hw).2⟩

theorem middle_ne_brace (h : p.WellFormed) : ∀ c ∈ p.middle, (c != '\x7b') = true := by
  refine List.forall_mem_append.2 ⟨ne_brace_of_blank h.gap, ?_⟩
  cases hi : p.inputs with
  | none => simp
  | some i =>
    have hinputs := h.inputs i hi
    refine List.forall_mem_cons.2 ⟨by decide,
      List.forall_mem_append.2 ⟨ne_brace_of_blank hinputs.front, ?_⟩⟩
    refine List.forall_mem_append.2 ⟨forall_mem_inputList (inputList_gapped hinputs), ?_⟩
    exact List.forall_mem_cons.2 ⟨by decide, ne_brace_of_blank hinputs.back⟩

/-- Up to the body there is no brace. -/
theorem heading_ne_brace (h : p.WellFormed) :
    ∀ c ∈ '@' :: (p.name ++ p.middle), (c != '\x7b') = true :=
  List.forall_mem_cons.2 ⟨by decide,
    List.forall_mem_append.2 ⟨ne_brace_of_name h.name, middle_ne_brace h⟩⟩

/-- Inputs and a body are found where they stand, if a body is found behind them. -/
theorem inputsAndBody?_isSome (h : p.WellFormed) {s : List Char} (hs : (core.bodyAt? s).isSome) :
    (core.inputsAndBody? ((p.inputs.map InputPart.text).getD [] ++ s)).isSome := by
  rw [inputsAndBody?, Option.isSome_or, Bool.or_eq_true]
  cases hi : p.inputs with
  | none =>
    refine .inr ?_
    rw [Option.isSome_map]
    exact hs
  | some i =>
    have hinputs := h.inputs i hi
    have hopen : (Pattern.seq (.char '(') blanks).Matches ('(' :: i.front) :=
      ⟨['('], i.front, rfl, rfl, matches_blanks.2 hinputs.front⟩
    have hclose : (Pattern.seq (.char ')') blanks).Matches (')' :: i.back) :=
      ⟨[')'], i.back, rfl, rfl, matches_blanks.2 hinputs.back⟩
    have hsplit : i.text ++ s = '(' :: i.front ++ (gapped i.names ++ (')' :: i.back ++ s)) := by
      simp [InputPart.text]
    refine .inl (splitting_isSome hsplit hopen ?_)
    refine splitting_isSome rfl (inputList_gapped hinputs) ?_
    refine splitting_isSome rfl hclose ?_
    rw [Option.isSome_map]
    exact hs

/-- Something is found where a record stands. -/
theorem stackRecordAt?_isSome (h : p.WellFormed) (rest : List Char) :
    (core.stackRecordAt? (p.text ++ rest)).isSome := by
  have hbody : (core.bodyAt? (p.body ++ rest)).isSome :=
    splitting_isSome rfl (matches_passageBody.2 ⟨p.front, p.tokens, rfl, h.front, h.tokens⟩) rfl
  have htext : p.text ++ rest = '@' :: (p.name ++
      (p.gap ++ ((p.inputs.map InputPart.text).getD [] ++ (p.body ++ rest)))) := by
    simp [Passage.text, Passage.middle]
  rw [htext, stackRecordAt?, splitting_char]
  refine splitting_isSome rfl (matches_recordName.2 h.name) ?_
  refine splitting_isSome rfl (matches_blanks.2 h.gap) ?_
  rw [Option.isSome_map]
  exact inputsAndBody?_isSome h hbody

/-- A token that is accepted, and is no object with contents, can be told apart from what follows. -/
theorem readable_of_entryOf? {u : List Char} (h : (core.entryOf? u).isSome = true)
    (hu : ¬ Extended u) : Readable u := by
  obtain ⟨k, hk, hmatch⟩ := exists_kind_of_isSome h
  rcases Kind.token_of_matches hk hmatch with htoken | ⟨-, hext⟩
  · exact ⟨htoken, k, hk, hmatch⟩
  · exact absurd hext hu

/-- **A record is found as it stands**, and the search goes on right behind it. -/
theorem stackRecordAt?_passage (h : p.WellFormed) (hp : ∀ w ∈ p.tokens, ¬ Extended w.1)
    (rest : List Char) :
    ∃ r, core.stackRecordAt? (p.text ++ rest) = some (r, rest) ∧ p.literals = r.body := by
  obtain ⟨⟨r, rest'⟩, hr⟩ := Option.isSome_iff_exists.1 (stackRecordAt?_isSome h rest)
  have hwords : ∀ w ∈ p.tokens, Readable w.1 ∧ IsGap w.2 := fun w hw =>
    ⟨readable_of_entryOf? (h.tokens w hw).1 (hp w hw), (h.tokens w hw).2⟩
  obtain ⟨front, body, hs, hfront, hbody, hlit⟩ := stackRecordAt?_cases hr
  obtain ⟨t, ht⟩ := exists_cons_of_body hbody
  -- both bodies begin at the first brace
  have hsplit : '@' :: (p.name ++ p.middle) ++ (p.body ++ rest) = front ++ (body ++ rest') := by
    rw [← hs]
    simp [Passage.text]
  obtain ⟨-, hbodies⟩ := front_unique (heading_ne_brace h) (by simp [Passage.body]) hfront
    (by simp [ht]) hsplit
  have hbraces : '\x7b' :: p.front ++ gapped p.tokens ++ '\x7d' :: rest = body ++ rest' := by
    simpa [Passage.body] using hbodies
  obtain ⟨rfl, rfl⟩ := body_unique hwords h.front.2 hbody hbraces
  refine ⟨r, hr, ?_⟩
  have hinside : Literal.between 1 1 ('\x7b' :: p.front ++ gapped p.tokens ++ ['\x7d'])
      = p.front ++ gapped p.tokens := between_append ['\x7b'] (p.front ++ gapped p.tokens) ['\x7d']
  rw [hlit, bodyLiterals, hinside, literals_gapped hwords h.front.2, Passage.literals]

end Passage

/-- **The records of a text** are found one after the other. -/
theorem records?_spelled {ps : List Passage} {text : String} (h : Spells ps text.toList)
    (hp : ∀ p ∈ ps, ∀ w ∈ p.tokens, ¬ Extended w.1) :
    ∃ rs, core.records? text = some rs ∧ ps.map Passage.literals = rs.map Record.body := by
  refine ⟨_, records?_of_spells ⟨ps, h⟩, ?_⟩
  rcases h.text with hs | ⟨rfl, hs⟩
  · rw [hs, ← List.forall₂_eq_eq_eq, List.forall₂_map_left_iff, List.forall₂_map_right_iff]
    refine findAll_gapped stackRecordAt?_blank Passage.text Passage.back ?_ (Nat.lt_succ_self _)
    intro p hmem
    have hwell := h.wellFormed p hmem
    exact ⟨by simp [Passage.text], hwell.back, stackRecordAt?_passage hwell (hp p hmem)⟩
  · have hnone := findAll_blanks stackRecordAt?_blank hs 1 []
    rw [List.append_nil] at hnone
    rw [hnone]
    rfl

end Grammar

namespace Workspace

open Grammar (core)

/-- A stack of a workspace holds the blocks of a record: each is made as its token is made alone, and
bound to the workspace. -/
def Spelled (l : Localizer) (ws : Workspace) (st : Store) (p : Passage) (loc : Loc) : Prop :=
  ∃ blocks, st.heap.blocks loc = blocks.map (ws.resolve st.heap) ∧
    List.Forall₂ (fun w b => ∀ st₀, SaysSame l (b, st)
      ((Environment.mk l core).block (String.ofList w.1) st₀)) p.tokens blocks

theorem parse_of_not_spells {l : Localizer} {st : Store} {text : String}
    (h : ¬∃ ps, Spells ps text.toList) : parse core l text st = .error .workspaceText := by
  rw [parse, Grammar.records?_eq_none h]

theorem exists_parse_iff {l : Localizer} {st : Store} {text : String} :
    (∃ r, parse core l text st = .ok r) ↔ ∃ ps, Spells ps text.toList := by
  constructor
  · rintro ⟨r, hr⟩
    by_contra hnone
    rw [parse_of_not_spells hnone] at hr
    cases hr
  · intro hps
    exact ⟨_, by rw [parse, Grammar.records?_of_spells hps]⟩

/-- **What is read of a text.** A text is read exactly if it is put together from records or blank,
and refused otherwise. Whichever way it is put together, if no token is an object with contents, the
workspace has a stack for each record, in order, with a block for each token. -/
theorem parse_spelled (l : Localizer) (st : Store) (text : String) :
    ((∃ r, parse core l text st = .ok r) ↔ ∃ ps, Spells ps text.toList) ∧
      ((¬∃ ps, Spells ps text.toList) → parse core l text st = .error .workspaceText) ∧
      ∀ ps, Spells ps text.toList → (∀ p ∈ ps, ∀ w ∈ p.tokens, ¬ Extended w.1) →
        ∃ ws st', parse core l text st = .ok (ws, st') ∧ ws.locs.length = ps.length ∧
          List.Forall₂ (Spelled l ws st') ps ws.locs := by
  refine ⟨exists_parse_iff, parse_of_not_spells, fun ps hps hplain => ?_⟩
  obtain ⟨rs, hrs, hbodies⟩ := Grammar.records?_spelled hps hplain
  have hbuilt := ofRecords_built l rs st
  generalize hread : ofRecords l rs st = read at hbuilt
  obtain ⟨ws, st'⟩ := read
  refine ⟨ws, st', by simp only [parse, hrs, hread], ?_, ?_⟩
  · rw [← hbuilt.made.length_eq, ← List.length_map Record.body, ← hbodies, List.length_map]
  · -- the stacks of the records, by their contents alone
    have hmade : List.Forall₂ (fun lits loc => ∃ blocks,
        List.Forall₂ (Made l st'.heap) lits blocks ∧
          st'.heap.blocks loc = blocks.map (ws.resolve st'.heap)) (rs.map Record.body) ws.locs := by
      rw [List.forall₂_map_left_iff]
      exact hbuilt.made.imp fun r loc hr => hr.blocks
    rw [← hbodies, List.forall₂_map_left_iff] at hmade
    refine hmade.imp ?_
    rintro p loc ⟨blocks, hblocks, hloc⟩
    rw [Passage.literals, List.forall₂_map_left_iff] at hblocks
    exact ⟨blocks, hloc, hblocks.imp fun w b hb st₀ => saysSame_of_made hb st₀⟩

/-- A record with parentheses in its name and braces in a text. -/
def bracedPassage : Passage where
  name := "f(x)".toList
  gap := [' ']
  inputs := some ⟨[], [(['a'], [' '])], []⟩
  front := [' ', ' ']
  tokens := [("\"\x7d \x7b\"".toList, ['\n'])]
  back := ['\n']

theorem spells_bracedPassage :
    Spells [bracedPassage] "@f(x) (a )\x7b  \"\x7d \x7b\"\n\x7d\n".toList := by
  refine ⟨?_, .inl (by decide)⟩
  rintro p hp
  obtain rfl := List.mem_singleton.1 hp
  have hname : IsName bracedPassage.name := by decide
  have hinputs : ∀ i ∈ bracedPassage.inputs, i.WellFormed := by
    rintro i hi
    obtain rfl := Option.some.inj hi
    exact ⟨List.forall_mem_nil _, by decide, List.forall_mem_nil _⟩
  have hfront : Grammar.IsGap bracedPassage.front := by decide
  have htokens : ∀ w ∈ bracedPassage.tokens,
      (core.entryOf? w.1).isSome = true ∧ Grammar.IsGap w.2 := by decide +kernel
  exact ⟨hname, List.all_eq_true.1 rfl, hinputs, hfront, htokens, List.all_eq_true.1 rfl⟩

/-- It is read; a record with a letter behind it is refused. -/
theorem parse_spelled_braced :
    (∃ ws st', parse core Localizer.plain "@f(x) (a )\x7b  \"\x7d \x7b\"\n\x7d\n" (Store.ofSeed 0)
        = .ok (ws, st') ∧ ws.locs.length = 1 ∧
      List.Forall₂ (Spelled Localizer.plain ws st') [bracedPassage] ws.locs) ∧
      parse core Localizer.plain "@f\x7b \x7d x" (Store.ofSeed 0) = .error .workspaceText := by
  have hread := parse_spelled Localizer.plain (Store.ofSeed 0)
  refine ⟨(hread _).2.2 _ spells_bracedPassage ?_, (hread _).2.1 ?_⟩
  · rintro p hp w hw ⟨id, contents, heq, -⟩
    obtain rfl := List.mem_singleton.1 hp
    obtain rfl := List.mem_singleton.1 hw
    exact absurd (List.cons.inj heq).1 (by decide)
  · rw [← Grammar.workspaceText_iff]
    decide +kernel

end Workspace

end BlockMachine
