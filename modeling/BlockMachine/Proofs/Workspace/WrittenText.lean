import BlockMachine.Workspace
import BlockMachine.Block.Equality
import BlockMachine.Proofs.Grammar.RecordText
import BlockMachine.Proofs.Text.Escape
import Mathlib.Data.List.TakeWhile

/-!
# The text of a workspace is read back

A workspace is written as a page of records. If every block that stands in a stack survives being
written and read on its own, then so does the page: it is accepted, and its records have the names,
the inputs and the literals of the stacks, in order.

* `Survives` — a block that is written and read on its own is the same afterwards;
* `Survives.readable` — the text of such a block is a token;
* `Workspace.records` — what the records of a workspace say;
* `Workspace.parse_written` — reading the text of a workspace builds these records.
-/

namespace BlockMachine

/-! ## Blocks that survive -/

/-- The stack that a data or code block is bound to. -/
def Block.boundTo? : Block → Option Loc
  | .data loc true => some loc
  | .code _ target => target
  | _ => none

/-- The name that a data or code block refers to. -/
def Heap.reference? (h : Heap) : Block → Option String
  | .data loc _ => some (h.nameOf loc)
  | .code name _ => some name
  | _ => none

/-- The name that a literal refers to. -/
def Literal.reference? : Literal → Option String
  | .data name => some (if name.isEmpty then "a1" else name)
  | .code name => some name
  | _ => none

/-- What `made`, made of the text of the block `b`, has in common with it: its kind, the name that it
refers to, and all the rest if the block is not bound to a stack (what is made never is). -/
structure Reread (h : Heap) (b : Block) (made : Block × Store) : Prop where
  kind : made.1.kind = b.kind
  name : made.2.heap.reference? made.1 = h.reference? b
  equal : b.boundTo? = none → made.2.heap.equals made.1 b = true

/-- A block that is written and read on its own is the same afterwards, whatever is rolled. -/
def Survives (l : Localizer) (h : Heap) (b : Block) : Prop :=
  ∀ dice, Reread h b ((Grammar.core.literal (h.written b)).make l ⟨h, dice⟩)

namespace Grammar

theorem literal_of_entryOf? {text : String} {k : Kind}
    (h : core.entryOf? text.toList = some (coreEntry k)) :
    core.literal text = Literal.ofToken (core.literalAt text.length) k text.toList := by
  simp only [literal, literalAt, h]
  rfl

theorem literal_of_unreadable {text : String} (h : core.entryOf? text.toList = none) :
    core.literal text = .unreadable text := by
  simp [literal, literalAt, h]

end Grammar

theorem mem_replaceChar {old new c : Char} {s : String}
    (h : c ∈ (Text.replaceChar old new s).toList) : c = new ∨ c ∈ s.toList ∧ c ≠ old := by
  rw [Text.replaceChar, String.toList_ofList] at h
  obtain ⟨d, hd, rfl⟩ := List.mem_map.1 h
  split
  case isTrue _ => exact .inl rfl
  case isFalse hne => exact .inr ⟨hd, hne⟩

/-- Errors are always written as error tokens. -/
theorem matches_errorText (message : String) :
    Kind.error.pattern.Matches (errorText message).toList := by
  rw [errorText]
  split
  case isTrue _ => exact ⟨"Err".toList, [], rfl, Pattern.matches_word.2 rfl, .inr rfl⟩
  case isFalse _ =>
    generalize htext : Text.replaceChar '\n' ' ' (Text.replaceChar '\x22' '\x27' message) = text
    have hchars : ∀ c ∈ text.toList, c ≠ '\n' ∧ c ≠ '\x22' := by
      intro c hc
      rw [← htext] at hc
      rcases mem_replaceChar hc with rfl | ⟨hc, hfeed⟩
      · decide
      · rcases mem_replaceChar hc with rfl | ⟨-, hquote⟩
        · decide
        · exact ⟨hfeed, hquote⟩
    refine ⟨"Err".toList, _, ?_, Pattern.matches_word.2 rfl, .inl ⟨"(\"".toList, _, rfl,
      Pattern.matches_word.2 rfl, text.toList, "\")".toList, rfl, Pattern.matches_star_oneIn.2 ?_,
      Pattern.matches_word.2 rfl⟩⟩
    · simp
    · simpa [ClassItem.accepts] using hchars

/-- An object that survives is not written with its contents: these would not be read. -/
theorem not_extended_of_reread {h : Heap} {id : String} {st : Store}
    (hmade : Reread h (.memory id) (.memory (Literal.readMemory (h.written (.memory id)).toList), st)) :
    ¬ Extended (h.written (.memory id)).toList := by
  intro hext
  have htext : (h.written (.memory id)).toList = "Object[".toList ++ id.toList ++ [']'] := by
    simp [Heap.written, Heap.writtenAt]
  have hinside : Literal.between 7 1 ("Object[".toList ++ id.toList ++ [']']) = id.toList :=
    Grammar.between_append "Object[".toList id.toList [']']
  have hequal : Literal.readMemory (h.written (.memory id)).toList = id := by
    have := hmade.equal rfl
    simpa [Heap.equals, Heap.matchBlock, Block.stack?, Block.plainEquals] using this
  have hall : id.toList.takeWhile (· != ',') = id.toList := by
    rw [Literal.readMemory, htext, hinside] at hequal
    exact String.ofList_injective (by rw [hequal, String.ofList_toList])
  have hcomma : ',' ∈ id.toList := by
    have hmem := hext.mem
    rw [htext] at hmem
    simpa using hmem
  have := List.takeWhile_eq_self_iff.1 hall _ hcomma
  revert this
  decide

/-- **The text of a block that survives is a token.** -/
theorem Survives.readable {l : Localizer} {h : Heap} {b : Block} (hb : Survives l h b) :
    Readable (h.written b).toList := by
  have hmade := hb (Dice.ofSeed 0)
  cases he : Grammar.core.entryOf? (h.written b).toList with
  | none =>
    -- what is not readable is made an error, and errors are readable
    exfalso
    have hkind := hmade.kind
    rw [Grammar.literal_of_unreadable he] at hkind
    cases b with
    | error message =>
      have hmatch : Kind.error.pattern.matchesAll (h.written (.error message)).toList = true :=
        Pattern.matchesAll_iff.2 (matches_errorText message)
      have hmem : Grammar.coreEntry .error ∈ Grammar.core.entries :=
        List.mem_map_of_mem (by simp [Kind.all])
      exact List.find?_eq_none.1 he _ hmem hmatch
    | _ => cases hkind
  | some e =>
    obtain ⟨k, hk, rfl⟩ := Grammar.exists_kind_of_mem (List.mem_of_find?_eq_some he)
    have hall := List.find?_some he
    have hmatch : k.pattern.Matches _ := Pattern.matchesAll_iff.1 hall
    refine ⟨?_, k, hk, hmatch⟩
    rcases Kind.token_of_matches hk hmatch with htoken | ⟨rfl, hext⟩
    · exact htoken
    · exfalso
      rw [Grammar.literal_of_entryOf? he] at hmade
      have hkind := hmade.kind
      cases b with
      | memory id => exact not_extended_of_reread hmade hext
      | _ => cases hkind

/-! ## Packages -/

namespace Grammar

/-- Only a package is read as a package. -/
theorem package_of_literalAt {d : Nat} {s : List Char} {inner : Literal}
    (h : core.literalAt d s = .package inner) :
    ∃ d', inner = core.literalAt d' (Literal.between 1 1 s) ∧ Kind.package.pattern.Matches s := by
  cases d with
  | zero => cases h
  | succ d =>
    rw [literalAt] at h
    cases he : core.entryOf? s with
    | none =>
      rw [he] at h
      cases h
    | some e =>
      obtain ⟨k, hk, rfl⟩ := exists_kind_of_mem (List.mem_of_find?_eq_some he)
      have hall := List.find?_some he
      have hmatch : k.pattern.Matches s := Pattern.matchesAll_iff.1 hall
      rw [he] at h
      cases k with
      | package => exact ⟨d, (Literal.package.inj h).symm, hmatch⟩
      | extension id => cases Kind.not_nullable _ hk
      | _ => cases h

/-- What is inside the brackets of a package begins with no bracket. -/
theorem not_package_inside {s : List Char} (h : Kind.package.pattern.Matches s) :
    ¬ Kind.package.pattern.Matches (Literal.between 1 1 s) := by
  intro hinside
  have hopen : '[' ∈ (Literal.between 1 1 s).head? := by
    rcases hinside with ⟨_, v, hv, rfl, -⟩ | ⟨_, v, hv, rfl, -⟩
    · rw [hv]
      rfl
    · rw [hv]
      rfl
  rcases h with ⟨_, _, rfl, rfl, inner, _, rfl, hinner, rfl⟩ | ⟨_, _, rfl, rfl, v, _, rfl, hv, rfl⟩
  · have hbetween : Literal.between 1 1 (['['] ++ inner ++ [']']) = inner :=
      between_append ['['] inner [']']
    rw [← List.append_assoc, hbetween] at hopen
    have := Pattern.matches_star_oneIn.1 hinner _ (List.mem_of_head? hopen)
    revert this
    decide
  · have hbetween : Literal.between 1 1 (['['] ++ v ++ [']']) = v :=
      between_append ['['] v [']']
    obtain ⟨inside, rfl, -⟩ := Pattern.matches_quotedText.1 hv
    rw [← List.append_assoc, hbetween] at hopen
    cases hopen

/-- **Packages do not nest.** What is inside a package that was read is not a package. -/
theorem literal_package {text : String} {inner : Literal}
    (h : core.literal text = .package inner) : ∀ x, inner ≠ .package x := by
  rintro x rfl
  obtain ⟨d, hinner, hmatch⟩ := package_of_literalAt h
  obtain ⟨-, -, hinside⟩ := package_of_literalAt hinner.symm
  exact not_package_inside hmatch hinside

end Grammar

/-! ## Pages -/

deriving instance DecidableEq for Record

namespace Workspace

/-- What the record of a stack says. -/
def record (h : Heap) (loc : Loc) : Record where
  name := h.nameOf loc
  inputs := (h.get loc).inputs
  body := (h.blocks loc).map fun b => Grammar.core.literal (h.written b)

/-- What the records of a workspace say. -/
def records (ws : Workspace) (h : Heap) : List Record :=
  ws.locs.map (record h)

/-- The record of a stack as texts. -/
def line (h : Heap) (loc : Loc) : Line where
  name := Text.escapeChars (h.nameOf loc).toList
  inputs := (h.get loc).inputs.map String.toList
  body := (h.blocks loc).map fun b => (h.written b).toList

theorem line_record (h : Heap) (loc : Loc) : (line h loc).record = record h loc := by
  have hname := Text.unescape_escape (h.nameOf loc)
  rw [Text.escape] at hname
  simp [Line.record, line, record, hname, Function.comp_def]

theorem toList_join_spaced (texts : List String) :
    (String.join (texts.map fun t => t ++ " ")).toList
      = Grammar.spaced (texts.map String.toList) := by
  simp [Grammar.spaced, List.flatMap_map]

theorem toList_writtenStack (h : Heap) (loc : Loc) :
    (writtenStack h (h.get loc)).toList = (line h loc).text ++ ['\n'] := by
  have hinputs : (writtenInputs (h.get loc).inputs).toList = (line h loc).inputText := by
    by_cases hnil : (h.get loc).inputs = []
    · simp [writtenInputs, Line.inputText, line, hnil]
    · have hjoin := toList_join_spaced (h.get loc).inputs
      simp only [writtenInputs, Line.inputText, line, List.isEmpty_iff, hnil, List.map_eq_nil_iff,
        if_false, String.toList_append, hjoin]
  have hbody := toList_join_spaced ((h.blocks loc).map h.written)
  rw [List.map_map, List.map_map] at hbody
  simp only [writtenStack, String.toList_append, hinputs]
  have hblocks : (String.join ((h.get loc).blocks.map fun b => h.written b ++ " ")).toList
      = Grammar.spaced (line h loc).body := hbody
  rw [hblocks]
  simp [Line.text, Line.bodyText, line, Text.escape, Heap.nameOf]

/-- The text of a workspace is a page of records. -/
theorem written_eq_page (ws : Workspace) (h : Heap) :
    ws.written h = String.ofList (Grammar.page (ws.locs.map (line h))) := by
  rw [← String.toList_inj]
  simp [written, Grammar.page, List.flatMap_map, toList_writtenStack]

/-- A workspace is written as records that can be told apart. -/
theorem records?_written {ws : Workspace} {h : Heap}
    (hname : ∀ loc ∈ ws.locs, h.nameOf loc ≠ "" ∧ ∀ c ∈ (h.nameOf loc).toList, c ≠ '\x7b' ∧ c ≠ '\x7d')
    (hinputs : ∀ loc ∈ ws.locs, ∀ name ∈ (h.get loc).inputs, IsName name.toList)
    (hblocks : ∀ loc ∈ ws.locs, ∀ b ∈ h.blocks loc, Readable (h.written b).toList) :
    Grammar.core.records? (ws.written h) = some (ws.records h) := by
  have hlegible : ∀ m ∈ ws.locs.map (line h), m.Legible := by
    intro m hm
    obtain ⟨loc, hloc, rfl⟩ := List.mem_map.1 hm
    obtain ⟨hne, hbraces⟩ := hname loc hloc
    refine ⟨⟨?_, fun c hc => ?_⟩, fun u hu => ?_, fun u hu => ?_⟩
    · intro hnil
      exact hne (String.toList_eq_nil_iff.1 (Text.escapeChars_eq_nil_iff.1 hnil))
    · refine ⟨Text.isBlank_of_mem_escapeChars hc, ?_⟩
      rcases Text.mem_of_mem_escapeChars hc with hmark | ⟨hmem, -⟩
      · have hmarks : (Text.escapeMarks.all fun c => c != '\x7b' && c != '\x7d') = true := by decide
        simpa using List.all_eq_true.1 hmarks c hmark
      · exact hbraces c hmem
    · obtain ⟨name, hmem, rfl⟩ := List.mem_map.1 hu
      exact hinputs loc hloc name hmem
    · obtain ⟨b, hmem, rfl⟩ := List.mem_map.1 hu
      exact hblocks loc hloc b hmem
  rw [written_eq_page, Grammar.records?_page hlegible]
  simp [records, Function.comp_def, line_record]

/-- **The text of a workspace is read back.** With names that can be told apart and blocks that
survive, reading it builds the records of the workspace. -/
theorem parse_written {ws : Workspace} {h : Heap} {l : Localizer}
    (hname : ∀ loc ∈ ws.locs, h.nameOf loc ≠ "" ∧ ∀ c ∈ (h.nameOf loc).toList, c ≠ '\x7b' ∧ c ≠ '\x7d')
    (hinputs : ∀ loc ∈ ws.locs, ∀ name ∈ (h.get loc).inputs, IsName name.toList)
    (hblocks : ∀ loc ∈ ws.locs, ∀ b ∈ h.blocks loc, Survives l h b) (st : Store) :
    parse Grammar.core l (ws.written h) st = .ok (ofRecords l (ws.records h) st) := by
  rw [parse, records?_written hname hinputs fun loc hloc b hb => (hblocks loc hloc b hb).readable]

end Workspace

end BlockMachine
