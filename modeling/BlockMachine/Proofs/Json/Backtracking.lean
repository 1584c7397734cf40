import BlockMachine.Proofs.Json.ReadingEnds

/-!
# Reading with a path that is kept

The stacks that are being read are kept on a path: a stack is put on it when it is entered and taken
off again when it has been read, whatever came of that. Several signatures can be tried on one block
one after the other, since each of them finds the path as the first one did.

* `Refusal` — why a block is not read, with the stack or the signature that is to blame;
* `Signature.visit` — reading with a path that is pushed to and popped from;
* `visit_path` — the path is as it was, `visit_read` — the values and the errors are those of
  `readAt`, with which reading ends if no package is inside itself (`reads_iff`);
* `Signature.Leads` — the stacks that a block leads to, and those that are entered on the way;
* `visit_cyclic`, `visit_congr` — which stacks are refused because they are being read;
* `read_backtracks` — reading backtracks cleanly.
-/

namespace BlockMachine

/-- Why a block is not read. -/
inductive Refusal where
  | mismatch (b : Block) (s : Signature)
  /-- The stack is on the path already. -/
  | cyclic (loc : Loc)
  | missing (loc : Loc) (name : String)
  | notSingle (name : String)

/-- The error of a refusal. -/
def Refusal.error (h : Heap) : Refusal → Error
  | .mismatch b s => Signature.mismatch h b s
  | .cyclic loc =>
    .conversion ("data block @" ++ h.nameOf loc ++ " refers to itself and has no JSON form")
  | .missing loc name =>
    .conversion ("data block @" ++ h.nameOf loc ++ " is missing property " ++ name)
  | .notSingle name => .conversion ("property " ++ name ++ " must contain exactly one value")

namespace Signature

/-! ## Reading -/

/-- Reading starts on a path and ends on one, whether or not there is a result. -/
abbrev Reading (α : Type) : Type :=
  List Loc → Except Refusal α × List Loc

section

variable {α β : Type}

/-- **Entering** a stack: it is pushed on the path, and popped when it has been read, also if it
could not be read. -/
def inside (loc : Loc) (inner : Reading α) : Reading α := fun path =>
  if path.contains loc then (.error (.cyclic loc), path)
  else
    let (result, path) := inner (loc :: path)
    (result, path.tail)

/-- Reads blocks one after the other, up to the first that is refused. -/
def collect (f : Block → Reading α) : List Block → Reading (List α)
  | [], path => (.ok [], path)
  | b :: bs, path =>
    match f b path with
    | (.error e, path) => (.error e, path)
    | (.ok v, path) =>
      match collect f bs path with
      | (.error e, path) => (.error e, path)
      | (.ok vs, path) => (.ok (v :: vs), path)

end

mutual

/-- The value of a block with the shape of a signature. -/
def visit (ws : Workspace) (h : Heap) : Signature → Block → Reading Json
  | .number, b, path =>
    match b with
    | .number r _ =>
      if r.value.isFinite then (.ok (.number (.float r.value)), path)
      else (.error (.mismatch b .number), path)
    | _ => (.error (.mismatch b .number), path)
  | .boolean, b, path =>
    match b with
    | .boolean v => (.ok (.bool v), path)
    | _ => (.error (.mismatch b .boolean), path)
  | .string, b, path =>
    match b with
    | .string s => (.ok (.string s), path)
    | _ => (.error (.mismatch b .string), path)
  | .oneOf options, b, path =>
    match visitOptions ws h options b path with
    | (some v, path) => (.ok v, path)
    | (none, path) => (.error (.mismatch b (.oneOf options)), path)
  | .arrayOf element, b, path =>
    match b with
    | .data .. =>
      match stackOf? ws h b with
      | some loc =>
        let (items, path) := inside loc (collect (fun c => visit ws h element c) (h.blocks loc)) path
        (items.map Json.array, path)
      | none => (.error (.mismatch b (.arrayOf element)), path)
    | _ => (.error (.mismatch b (.arrayOf element)), path)
  | .object fields, b, path =>
    match b with
    | .null _ => (.ok .null, path)
    | .data .. =>
      match stackOf? ws h b with
      | some loc =>
        let (members, path) := inside loc (visitFields ws h loc fields []) path
        (members.map Json.object, path)
      | none => (.error (.mismatch b (.object fields)), path)
    | _ => (.error (.mismatch b (.object fields)), path)

/-- The value by the first signature that fits. -/
def visitOptions (ws : Workspace) (h : Heap) :
    List Signature → Block → List Loc → Option Json × List Loc
  | [], _, path => (none, path)
  | s :: rest, b, path =>
    match visit ws h s b path with
    | (.ok v, path) => (some v, path)
    | (.error _, path) => visitOptions ws h rest b path

/-- The members of the stack at `loc`, each of which holds exactly one block. -/
def visitFields (ws : Workspace) (h : Heap) (loc : Loc) :
    List (String × Signature) → List (String × Json) → Reading (List (String × Json))
  | [], found, path => (.ok found, path)
  | (name, s) :: rest, found, path =>
    match member? ws h (h.blocks loc) name with
    | none => (.error (.missing loc name), path)
    | some m =>
      match h.blocks m with
      | [value] =>
        match visit ws h s value path with
        | (.ok v, path) => visitFields ws h loc rest (Keyed.insert name v found) path
        | (.error e, path) => (.error e, path)
      | _ => (.error (.notSingle name), path)

end

/-! ## The path is as it was -/

/-- Whatever comes of reading, the path is as it was before. -/
def Restores {α : Type} (f : Reading α) : Prop :=
  ∀ path, (f path).2 = path

section

variable {α β : Type}

theorem inside_restores {loc : Loc} {inner : Reading α} (hinner : Restores inner) :
    Restores (inside loc inner) := by
  intro path
  rw [inside]
  split
  · rfl
  · change (inner (loc :: path)).2.tail = path
    rw [hinner, List.tail_cons]

theorem collect_restores {f : Block → Reading α} (hf : ∀ b, Restores (f b)) (bs : List Block) :
    Restores (collect f bs) := by
  intro path
  induction bs with
  | nil => rfl
  | cons b bs ih =>
    have hb := hf b path
    rw [collect]
    generalize f b path = result at hb
    obtain ⟨_ | v, after⟩ := result
    · exact hb
    · obtain rfl : after = path := hb
      dsimp only
      generalize collect f bs after = rest at ih
      obtain ⟨_ | vs, last⟩ := rest
      · exact ih
      · exact ih

/-- Reading blocks in turn is reading each of them on the path as it is. -/
theorem collect_eq {f : Block → Reading α} (hf : ∀ b, Restores (f b)) (bs : List Block)
    (path : List Loc) : (collect f bs path).1 = bs.mapM fun b => (f b path).1 := by
  induction bs with
  | nil => rfl
  | cons b bs ih =>
    have hb := hf b path
    rw [List.mapM_cons, ← ih, collect]
    generalize f b path = result at hb
    obtain ⟨_ | v, after⟩ := result
    · rfl
    · obtain rfl : after = path := hb
      dsimp only
      generalize collect f bs after = rest
      obtain ⟨_ | vs, last⟩ := rest <;> rfl

end

mutual

/-- **The path is kept**, on success and on every failure. -/
theorem visit_path (ws : Workspace) (h : Heap) : ∀ (s : Signature) (b : Block),
    Restores (visit ws h s b)
  | .number, b, path => by
    unfold visit
    split
    · split <;> rfl
    · rfl
  | .boolean, b, path => by
    unfold visit
    split <;> rfl
  | .string, b, path => by
    unfold visit
    split <;> rfl
  | .oneOf options, b, path => by
    have hoptions := visitOptions_path ws h options b path
    unfold visit
    generalize visitOptions ws h options b path = result at hoptions
    obtain ⟨_ | v, after⟩ := result
    · exact hoptions
    · exact hoptions
  | .arrayOf element, b, path => by
    unfold visit
    split
    · split
      · exact inside_restores (collect_restores (visit_path ws h element) _) path
      · rfl
    · rfl
  | .object fields, b, path => by
    unfold visit
    split
    · rfl
    · split
      · exact inside_restores (visitFields_path ws h _ fields []) path
      · rfl
    · rfl

theorem visitOptions_path (ws : Workspace) (h : Heap) : ∀ (options : List Signature) (b : Block)
    (path : List Loc), (visitOptions ws h options b path).2 = path
  | [], _, _ => rfl
  | s :: rest, b, path => by
    have hs := visit_path ws h s b path
    rw [visitOptions]
    generalize visit ws h s b path = result at hs
    obtain ⟨_ | v, after⟩ := result
    · obtain rfl : after = path := hs
      exact visitOptions_path ws h rest b after
    · exact hs

theorem visitFields_path (ws : Workspace) (h : Heap) (loc : Loc) :
    ∀ (fields : List (String × Signature)) (found : List (String × Json)),
      Restores (visitFields ws h loc fields found)
  | [], _, _ => rfl
  | (name, s) :: rest, found, path => by
    rw [visitFields]
    split
    · rfl
    · split
      · have hs := visit_path ws h s ‹_› path
        generalize visit ws h s _ path = result at hs
        obtain ⟨_ | v, after⟩ := result
        · exact hs
        · obtain rfl : after = path := hs
          exact visitFields_path ws h loc rest _ after
      · rfl

end

/-! ## Reading on a path that is kept -/

section

variable {ws : Workspace} {h : Heap}

/-- The first option that is read on its own. -/
theorem visitOptions_eq (options : List Signature) (b : Block) (path : List Loc) :
    (visitOptions ws h options b path).1 =
      options.findSome? fun s => (visit ws h s b path).1.toOption := by
  induction options with
  | nil => rfl
  | cons s rest ih =>
    have hs := visit_path ws h s b path
    rw [visitOptions, List.findSome?_cons]
    generalize visit ws h s b path = result at hs
    obtain ⟨_ | v, after⟩ := result
    · obtain rfl : after = path := hs
      exact ih
    · rfl

/-- A member, and then the others. -/
theorem visitFields_cons (loc : Loc) (name : String) (s : Signature)
    (rest : List (String × Signature)) (found : List (String × Json)) (path : List Loc) :
    (visitFields ws h loc ((name, s) :: rest) found path).1 =
      match member? ws h (h.blocks loc) name with
      | none => .error (.missing loc name)
      | some m =>
        match h.blocks m with
        | [value] => (visit ws h s value path).1 >>= fun v =>
            (visitFields ws h loc rest (Keyed.insert name v found) path).1
        | _ => .error (.notSingle name) := by
  rw [visitFields]
  cases member? ws h (h.blocks loc) name with
  | none => rfl
  | some m =>
    dsimp only
    rcases h.blocks m with _ | ⟨value, _ | ⟨second, others⟩⟩
    · rfl
    · have hpath := visit_path ws h s value path
      dsimp only
      generalize visit ws h s value path = result at hpath
      obtain ⟨_ | v, after⟩ := result
      · rfl
      · obtain rfl : after = path := hpath
        rfl
    · rfl

end

/-! ## The values are the same -/

section

variable {α β : Type} {ws : Workspace} {h : Heap} {path : List Loc}

theorem mapError_mapM {f : Block → Except Refusal α} {g : Block → Except Error α}
    (hf : ∀ b, (f b).mapError (Refusal.error h) = g b) (bs : List Block) :
    (bs.mapM f).mapError (Refusal.error h) = bs.mapM g := by
  induction bs with
  | nil => rfl
  | cons b bs ih =>
    rw [List.mapM_cons, List.mapM_cons, ← hf b, ← ih]
    cases f b with
    | error e => rfl
    | ok v => cases List.mapM f bs <;> rfl

theorem inside_read {b : Block} {s : Signature} {loc : Loc} (hstack : stackOf? ws h b = some loc)
    {inner : Reading α} {g : Loc → Except Error α}
    (hinner : (inner (loc :: path)).1.mapError (Refusal.error h) = g loc) (make : α → Json) :
    ((inside loc inner path).1.map make).mapError (Refusal.error h) =
      (enter ws h path b s >>= fun loc => g loc >>= fun v => .ok (make v)) := by
  rw [enter, hstack, inside]
  dsimp only
  split
  · rfl
  · change _ = (g loc >>= fun v => Except.ok (make v))
    rw [← hinner]
    generalize inner (loc :: path) = result
    obtain ⟨_ | v, after⟩ := result <;> rfl

end

mutual

/-- **The values and errors** are those of reading with a path that is passed on. -/
theorem visit_read (ws : Workspace) (h : Heap) : ∀ (s : Signature) (b : Block) (path : List Loc),
    (visit ws h s b path).1.mapError (Refusal.error h) = readAt ws h s path b
  | .number, b, path => by
    unfold visit readAt
    cases b with
    | number r _ =>
      dsimp only
      split <;> rfl
    | _ => rfl
  | .boolean, b, path => by
    unfold visit readAt
    cases b <;> rfl
  | .string, b, path => by
    unfold visit readAt
    cases b <;> rfl
  | .oneOf options, b, path => by
    have hoptions := visitOptions_read ws h options b path
    unfold visit readAt
    rw [← hoptions]
    generalize visitOptions ws h options b path = result
    obtain ⟨_ | v, after⟩ := result <;> rfl
  | .arrayOf element, b, path => by
    unfold visit readAt
    cases b with
    | data target bound =>
      dsimp only
      cases hstack : stackOf? ws h (.data target bound) with
      | none =>
        rw [enter_none hstack]
        rfl
      | some loc =>
        have hitems := mapError_mapM (fun c => visit_read ws h element c (loc :: path)) (h.blocks loc)
        rw [← collect_eq (visit_path ws h element)] at hitems
        exact inside_read (g := fun loc => (h.blocks loc).mapM fun c =>
          readAt ws h element (loc :: path) c) hstack hitems Json.array
    | _ => rfl
  | .object fields, b, path => by
    unfold visit readAt
    cases b with
    | data target bound =>
      dsimp only
      cases hstack : stackOf? ws h (.data target bound) with
      | none =>
        rw [enter_none hstack]
        rfl
      | some loc =>
        have hmembers := visitFields_read ws h loc fields [] (loc :: path)
        exact inside_read (g := fun loc => readFields ws h loc fields (loc :: path) []) hstack
          hmembers Json.object
    | _ => rfl

theorem visitOptions_read (ws : Workspace) (h : Heap) : ∀ (options : List Signature) (b : Block)
    (path : List Loc), (visitOptions ws h options b path).1 = readOptions ws h options path b
  | [], _, _ => rfl
  | s :: rest, b, path => by
    have hpath := visit_path ws h s b path
    have hs := visit_read ws h s b path
    rw [visitOptions, readOptions, ← hs]
    generalize visit ws h s b path = result at hpath
    obtain ⟨_ | v, after⟩ := result
    · obtain rfl : after = path := hpath
      exact visitOptions_read ws h rest b after
    · rfl

theorem visitFields_read (ws : Workspace) (h : Heap) (loc : Loc) :
    ∀ (fields : List (String × Signature)) (found : List (String × Json)) (path : List Loc),
      (visitFields ws h loc fields found path).1.mapError (Refusal.error h) =
        readFields ws h loc fields path found
  | [], _, _ => rfl
  | (name, s) :: rest, found, path => by
    rw [visitFields_cons]
    unfold readFields
    cases member? ws h (h.blocks loc) name with
    | none => rfl
    | some m =>
      dsimp only
      rcases h.blocks m with _ | ⟨value, _ | ⟨second, others⟩⟩
      · rfl
      · have hs := visit_read ws h s value path
        dsimp only
        rw [← hs]
        cases (visit ws h s value path).1 with
        | error e => rfl
        | ok v => exact visitFields_read ws h loc rest _ path
      · rfl

end

/-! ## Stacks that enclose themselves -/

/-- **What a block leads to.** Reading `b` may come to the stack `loc`, with the stacks of the trail
entered on the way, the last one first: from a stack to its items, and from a stack to the single
value of one of its members. -/
inductive Leads (ws : Workspace) (h : Heap) : Block → List Loc → Loc → Prop
  | stack {b : Block} {loc : Loc} (hb : stackOf? ws h b = some loc) : Leads ws h b [] loc
  | item {b c : Block} {mid loc : Loc} {trail : List Loc} (hb : stackOf? ws h b = some mid)
      (hc : c ∈ h.blocks mid) (rest : Leads ws h c trail loc) : Leads ws h b (trail ++ [mid]) loc
  | member {b d value : Block} {mid m loc : Loc} {trail : List Loc}
      (hb : stackOf? ws h b = some mid) (hd : d ∈ h.blocks mid) (hm : stackOf? ws h d = some m)
      (hvalue : h.blocks m = [value]) (rest : Leads ws h value trail loc) :
      Leads ws h b (trail ++ [mid]) loc

section

variable {α : Type} {ws : Workspace} {h : Heap} {path path' : List Loc} {loc : Loc}

/-- A member is the stack of a block. -/
theorem exists_of_member? {blocks : List Block} {name : String}
    (hmember : member? ws h blocks name = some loc) : ∃ d ∈ blocks, stackOf? ws h d = some loc := by
  obtain ⟨d, hd, hfound⟩ := List.exists_of_findSome?_eq_some hmember
  refine ⟨d, hd, ?_⟩
  split at hfound
  · exact (Option.filter_eq_some_iff.1 hfound).1
  · cases hfound

theorem inside_cyclic {inner : Reading α} {a : Loc}
    (hcyclic : (inside loc inner path).1 = .error (.cyclic a)) :
    a = loc ∧ loc ∈ path ∨ (inner (loc :: path)).1 = .error (.cyclic a) := by
  rw [inside] at hcyclic
  split at hcyclic
  case isTrue hmem =>
    cases hcyclic
    exact .inl ⟨rfl, by simpa using hmem⟩
  case isFalse => exact .inr hcyclic

theorem error_of_map {make : α → Json} {x : Except Refusal α} {e : Refusal}
    (herror : x.map make = .error e) : x = .error e := by
  cases x with
  | error e' => exact congrArg Except.error (Except.error.inj herror)
  | ok v => cases herror

theorem exists_of_mapM_error {f : Block → Except Refusal α} {e : Refusal} {bs : List Block}
    (herror : bs.mapM f = .error e) : ∃ c ∈ bs, f c = .error e := by
  induction bs with
  | nil => cases herror
  | cons b bs ih =>
    rw [List.mapM_cons] at herror
    cases hb : f b with
    | error e' =>
      rw [hb] at herror
      obtain rfl : e' = e := Except.error.inj herror
      exact ⟨b, List.mem_cons_self, hb⟩
    | ok v =>
      rw [hb] at herror
      cases hbs : List.mapM f bs with
      | error e' =>
        rw [hbs] at herror
        obtain rfl : e' = e := Except.error.inj herror
        obtain ⟨c, hc, hce⟩ := ih hbs
        exact ⟨c, List.mem_cons_of_mem _ hc, hce⟩
      | ok vs =>
        rw [hbs] at herror
        cases herror

theorem mapM_congr {f g : Block → Except Refusal α} {bs : List Block}
    (hfg : ∀ c ∈ bs, f c = g c) : bs.mapM f = bs.mapM g := by
  induction bs with
  | nil => rfl
  | cons b bs ih =>
    obtain ⟨hb, hbs⟩ := List.forall_mem_cons.1 hfg
    rw [List.mapM_cons, List.mapM_cons, hb, ih hbs]

theorem inside_congr {inner : Reading α} (hmem : loc ∈ path ↔ loc ∈ path')
    (hinner : (inner (loc :: path)).1 = (inner (loc :: path')).1) :
    (inside loc inner path).1 = (inside loc inner path').1 := by
  have hcontains : path.contains loc = path'.contains loc := by
    rw [Bool.eq_iff_iff, List.contains_iff_mem, List.contains_iff_mem, hmem]
  rw [inside, inside, hcontains]
  split
  · rfl
  · exact hinner

end

mutual

/-- **Only a stack that encloses itself** on the path is refused for being read already. -/
theorem visit_cyclic (ws : Workspace) (h : Heap) : ∀ (s : Signature) (b : Block) (path : List Loc)
    {loc : Loc}, (visit ws h s b path).1 = .error (.cyclic loc) →
      ∃ trail, Leads ws h b trail loc ∧ loc ∈ trail ++ path
  | .number, b, path, loc, hcyclic => by
    unfold visit at hcyclic
    cases b with
    | number r _ =>
      dsimp only at hcyclic
      split at hcyclic <;> cases hcyclic
    | _ => cases hcyclic
  | .boolean, b, path, loc, hcyclic => by
    unfold visit at hcyclic
    cases b <;> cases hcyclic
  | .string, b, path, loc, hcyclic => by
    unfold visit at hcyclic
    cases b <;> cases hcyclic
  | .oneOf options, b, path, loc, hcyclic => by
    unfold visit at hcyclic
    generalize visitOptions ws h options b path = result at hcyclic
    obtain ⟨_ | v, after⟩ := result <;> cases hcyclic
  | .arrayOf element, b, path, loc, hcyclic => by
    unfold visit at hcyclic
    cases b with
    | data target bound =>
      dsimp only at hcyclic
      cases hstack : stackOf? ws h (.data target bound) with
      | none =>
        rw [hstack] at hcyclic
        cases hcyclic
      | some mid =>
        rw [hstack] at hcyclic
        rcases inside_cyclic (error_of_map hcyclic) with ⟨rfl, hmem⟩ | hinner
        · exact ⟨[], .stack hstack, hmem⟩
        · rw [collect_eq (visit_path ws h element)] at hinner
          obtain ⟨c, hc, hce⟩ := exists_of_mapM_error hinner
          obtain ⟨trail, hleads, hmem⟩ := visit_cyclic ws h element c (mid :: path) hce
          exact ⟨trail ++ [mid], .item hstack hc hleads, by simpa using hmem⟩
    | _ => cases hcyclic
  | .object fields, b, path, loc, hcyclic => by
    unfold visit at hcyclic
    cases b with
    | data target bound =>
      dsimp only at hcyclic
      cases hstack : stackOf? ws h (.data target bound) with
      | none =>
        rw [hstack] at hcyclic
        cases hcyclic
      | some mid =>
        rw [hstack] at hcyclic
        rcases inside_cyclic (error_of_map hcyclic) with ⟨rfl, hmem⟩ | hinner
        · exact ⟨[], .stack hstack, hmem⟩
        · obtain ⟨d, hd, m, hm, value, hvalue, trail, hleads, hmem⟩ :=
            visitFields_cyclic ws h mid fields [] (mid :: path) hinner
          exact ⟨trail ++ [mid], .member hstack hd hm hvalue hleads, by simpa using hmem⟩
    | _ => cases hcyclic

theorem visitFields_cyclic (ws : Workspace) (h : Heap) (mid : Loc) :
    ∀ (fields : List (String × Signature)) (found : List (String × Json)) (path : List Loc)
      {loc : Loc}, (visitFields ws h mid fields found path).1 = .error (.cyclic loc) →
        ∃ d ∈ h.blocks mid, ∃ m, stackOf? ws h d = some m ∧ ∃ value, h.blocks m = [value] ∧
          ∃ trail, Leads ws h value trail loc ∧ loc ∈ trail ++ path
  | [], _, _, _, hcyclic => by cases hcyclic
  | (name, s) :: rest, found, path, loc, hcyclic => by
    rw [visitFields_cons] at hcyclic
    cases hmember : member? ws h (h.blocks mid) name with
    | none =>
      rw [hmember] at hcyclic
      cases hcyclic
    | some m =>
      rw [hmember] at hcyclic
      dsimp only at hcyclic
      split at hcyclic
      case h_1 value hblocks =>
        cases hvalue : (visit ws h s value path).1 with
        | error e =>
          rw [hvalue] at hcyclic
          obtain rfl : e = .cyclic loc := Except.error.inj hcyclic
          obtain ⟨d, hd, hm⟩ := exists_of_member? hmember
          exact ⟨d, hd, m, hm, value, hblocks, visit_cyclic ws h s value path hvalue⟩
        | ok v =>
          rw [hvalue] at hcyclic
          exact visitFields_cyclic ws h mid rest _ path hcyclic
      case h_2 => cases hcyclic

end

mutual

/-- **Sharing.** A block is read as on its own if what it leads to is not being read already. -/
theorem visit_congr (ws : Workspace) (h : Heap) : ∀ (s : Signature) (b : Block)
    {path path' : List Loc},
    (∀ trail loc, Leads ws h b trail loc → (loc ∈ path ↔ loc ∈ path')) →
      (visit ws h s b path).1 = (visit ws h s b path').1
  | .number, b, path, path', _ => by
    unfold visit
    cases b with
    | number r _ =>
      dsimp only
      split <;> rfl
    | _ => rfl
  | .boolean, b, path, path', _ => by
    unfold visit
    cases b <;> rfl
  | .string, b, path, path', _ => by
    unfold visit
    cases b <;> rfl
  | .oneOf options, b, path, path', hmem => by
    have hoptions := visitOptions_congr ws h options b hmem
    unfold visit
    generalize visitOptions ws h options b path = result at hoptions
    generalize visitOptions ws h options b path' = result' at hoptions
    obtain ⟨outcome, after⟩ := result
    obtain ⟨outcome', after'⟩ := result'
    obtain rfl : outcome = outcome' := hoptions
    cases outcome <;> rfl
  | .arrayOf element, b, path, path', hmem => by
    unfold visit
    cases b with
    | data target bound =>
      dsimp only
      cases hstack : stackOf? ws h (.data target bound) with
      | none => rfl
      | some mid =>
        refine congrArg (Except.map Json.array) (inside_congr (hmem [] mid (.stack hstack)) ?_)
        rw [collect_eq (visit_path ws h element), collect_eq (visit_path ws h element)]
        refine mapM_congr fun c hc => visit_congr ws h element c fun trail loc hleads => ?_
        rw [List.mem_cons, List.mem_cons, hmem _ loc (.item hstack hc hleads)]
    | _ => rfl
  | .object fields, b, path, path', hmem => by
    unfold visit
    cases b with
    | data target bound =>
      dsimp only
      cases hstack : stackOf? ws h (.data target bound) with
      | none => rfl
      | some mid =>
        refine congrArg (Except.map Json.object) (inside_congr (hmem [] mid (.stack hstack)) ?_)
        refine visitFields_congr ws h mid fields [] fun d hd m hm value hvalue trail loc hleads => ?_
        rw [List.mem_cons, List.mem_cons, hmem _ loc (.member hstack hd hm hvalue hleads)]
    | _ => rfl

theorem visitOptions_congr (ws : Workspace) (h : Heap) : ∀ (options : List Signature) (b : Block)
    {path path' : List Loc},
    (∀ trail loc, Leads ws h b trail loc → (loc ∈ path ↔ loc ∈ path')) →
      (visitOptions ws h options b path).1 = (visitOptions ws h options b path').1
  | [], _, _, _, _ => rfl
  | s :: rest, b, path, path', hmem => by
    rw [visitOptions_eq, visitOptions_eq, List.findSome?_cons, List.findSome?_cons,
      visit_congr ws h s b hmem, ← visitOptions_eq, ← visitOptions_eq,
      visitOptions_congr ws h rest b hmem]

theorem visitFields_congr (ws : Workspace) (h : Heap) (mid : Loc) :
    ∀ (fields : List (String × Signature)) (found : List (String × Json)) {path path' : List Loc},
      (∀ d ∈ h.blocks mid, ∀ m, stackOf? ws h d = some m → ∀ value, h.blocks m = [value] →
        ∀ trail loc, Leads ws h value trail loc → (loc ∈ path ↔ loc ∈ path')) →
        (visitFields ws h mid fields found path).1 = (visitFields ws h mid fields found path').1
  | [], _, _, _, _ => rfl
  | (name, s) :: rest, found, path, path', hmem => by
    rw [visitFields_cons, visitFields_cons]
    cases hmember : member? ws h (h.blocks mid) name with
    | none => rfl
    | some m =>
      dsimp only
      rcases hblocks : h.blocks m with _ | ⟨value, _ | ⟨second, others⟩⟩
      · rfl
      · obtain ⟨d, hd, hm⟩ := exists_of_member? hmember
        dsimp only
        rw [visit_congr ws h s value (hmem d hd m hm value hblocks)]
        refine congrArg (Except.bind _) (funext fun v => ?_)
        exact visitFields_congr ws h mid rest _ hmem
      · rfl

end

/-- Alternatives: the first that is read on its own, on the same path. -/
theorem visit_oneOf (ws : Workspace) (h : Heap) (options : List Signature) (b : Block)
    (path : List Loc) : (visit ws h (.oneOf options) b path).1 =
      (options.findSome? fun s => (visit ws h s b path).1.toOption).elim
        (.error (.mismatch b (.oneOf options))) .ok := by
  rw [← visitOptions_eq]
  unfold visit
  generalize visitOptions ws h options b path = result
  obtain ⟨_ | v, after⟩ := result <;> rfl

/-- **Reading backtracks cleanly.** On every heap in which no package is inside itself, it comes to an
end in one way only, with the path as it was, and with the value or the error of `readAt`. Of several
signatures the first one counts that fits on its own. A stack is refused as being read already only
if it encloses itself on the path, so a block that is shared is read like one that is not. -/
theorem read_backtracks (ws : Workspace) {h : Heap}
    (hacyclic : ∀ loc, ¬ Relation.TransGen h.Opens loc loc) (b : Block) (path : List Loc) :
    (∀ s result path', Reads ws h path s b result path' ↔
        result = (visit ws h s b path).1.mapError (Refusal.error h) ∧ path' = path) ∧
      (∀ s, (visit ws h s b path).2 = path) ∧
      (∀ s, (visit ws h s b path).1.mapError (Refusal.error h) = readAt ws h s path b) ∧
      (∀ options, (visit ws h (.oneOf options) b path).1 =
        (options.findSome? fun s => (visit ws h s b path).1.toOption).elim
          (.error (.mismatch b (.oneOf options))) .ok) ∧
      (∀ s loc, (visit ws h s b path).1 = .error (.cyclic loc) →
        ∃ trail, Leads ws h b trail loc ∧ loc ∈ trail ++ path) ∧
      ∀ s path', (∀ trail loc, Leads ws h b trail loc → (loc ∈ path ↔ loc ∈ path')) →
        (visit ws h s b path).1 = (visit ws h s b path').1 := by
  have hread : ∀ s, (visit ws h s b path).1.mapError (Refusal.error h) = readAt ws h s path b :=
    fun s => visit_read ws h s b path
  refine ⟨fun s result path' => ?_, fun s => visit_path ws h s b path, hread,
    fun options => visit_oneOf ws h options b path, fun s _ => visit_cyclic ws h s b path,
    fun s _ => visit_congr ws h s b⟩
  rw [hread s]
  exact reads_iff hacyclic

/-- A stack with another one in it twice, a stack with itself in it, and a package in a package. -/
def sharedHeap : Heap :=
  ⟨#[.make "pair" [.data 1 true, .data 1 true], .make "single" [.boolean true],
    .make "loop" [.data 2 true], .make "package" [.package 1]]⟩

theorem acyclic_sharedHeap (loc : Loc) : ¬ Relation.TransGen sharedHeap.Opens loc loc := by
  refine Heap.acyclic_of_older (fun outer inner hopens => ?_) loc
  obtain ⟨rest, holds⟩ := hopens
  have hlt : outer < 4 := Heap.lt_size_of_blocks holds
  match outer, hlt, holds with
  | 0, _, holds | 1, _, holds | 2, _, holds => cases holds
  | 3, _, holds =>
    cases holds
    decide

/-- The shared stack is read both times, and as on its own; only the stack in itself is refused. The
error about the package tells its text. -/
theorem read_backtracks_shared :
    (∀ loc, ¬ Relation.TransGen sharedHeap.Opens loc loc) ∧
      Reads .empty sharedHeap [] (.arrayOf (.arrayOf .boolean)) (.data 0 true)
        (.ok (.array [.array [.bool true], .array [.bool true]])) [] ∧
      (visit .empty sharedHeap (.arrayOf .boolean) (.data 1 true) [0]).1 =
        (visit .empty sharedHeap (.arrayOf .boolean) (.data 1 true) []).1 ∧
      (visit .empty sharedHeap (.arrayOf (.arrayOf .boolean)) (.data 2 true) []).1 =
        .error (.cyclic 2) ∧
      (∃ trail, Leads .empty sharedHeap (.data 2 true) trail 2 ∧ 2 ∈ trail ++ []) ∧
      Reads .empty sharedHeap [] .number (.package 3) (.error (unfit .number "[[T]]")) [] := by
  have hloop : (visit .empty sharedHeap (.arrayOf (.arrayOf .boolean)) (.data 2 true) []).1 =
      .error (.cyclic 2) := rfl
  have hsingle : ∀ trail loc, Leads .empty sharedHeap (.data 1 true) trail loc →
      (loc ∈ [0] ↔ loc ∈ []) := by
    have hblocks : sharedHeap.blocks 1 = [.boolean true] := rfl
    intro trail loc hleads
    cases hleads with
    | stack hb =>
      cases hb
      decide
    | item hb hc rest =>
      cases hb
      obtain rfl := List.mem_singleton.1 (hblocks ▸ hc)
      cases rest with
      | stack hnone => cases hnone
      | item hnone => cases hnone
      | member hnone => cases hnone
    | member hb hd hm =>
      cases hb
      obtain rfl := List.mem_singleton.1 (hblocks ▸ hd)
      cases hm
  obtain ⟨hpair, -⟩ := read_backtracks .empty acyclic_sharedHeap (.data 0 true) []
  obtain ⟨-, -, -, -, hcyclic, -⟩ := read_backtracks .empty acyclic_sharedHeap (.data 2 true) []
  obtain ⟨-, -, -, -, -, hcongr⟩ := read_backtracks .empty acyclic_sharedHeap (.data 1 true) [0]
  obtain ⟨hpackage, -⟩ := read_backtracks .empty acyclic_sharedHeap (.package 3) []
  exact ⟨acyclic_sharedHeap, (hpair _ _ _).2 ⟨rfl, rfl⟩, hcongr _ _ hsingle, hloop,
    hcyclic _ _ hloop, (hpackage _ _ _).2 ⟨rfl, rfl⟩⟩

/-- A package that is inside itself. -/
def boxHeap : Heap :=
  ⟨#[.make "box" [.package 0]]⟩

/-- A stack with two others in it, both of which hold one that is inside itself. -/
def tangledHeap : Heap :=
  ⟨#[.make "r" [.data 1 true, .data 2 true], .make "s" [.data 3 true], .make "t" [.data 3 true],
    .make "x" [.data 3 true]]⟩

/-- The refusal of a package that is inside itself does not end, since it tells the text of the
package. And being shared does not keep a stack that encloses itself from being refused. -/
theorem not_read_backtracks_box :
    (¬ ∃ result path', Reads .empty boxHeap [] .number (.package 0) result path') ∧
      ((∀ a ∈ [1, 2], .data 3 true ∈ tangledHeap.blocks a) ∧
        Reads .empty tangledHeap [] (.arrayOf (.arrayOf (.arrayOf (.arrayOf .number)))) (.data 0 true)
          (.error (refersToItself tangledHeap 3)) []) := by
  refine ⟨?_, by decide, ?_⟩
  · rintro ⟨result, path', hreads⟩
    cases hreads with
    | unfit _ writes =>
      have hopens : boxHeap.Opens 0 0 := ⟨[], rfl⟩
      exact (Heap.writes_iff.1 writes).1 0 rfl 0 .refl (.single hopens)
  · have hacyclic : ∀ loc, ¬ Relation.TransGen tangledHeap.Opens loc loc := by
      refine Heap.acyclic_of_older fun outer inner hopens => ?_
      obtain ⟨rest, holds⟩ := hopens
      have hlt : outer < 4 := Heap.lt_size_of_blocks holds
      match outer, hlt, holds with
      | 0, _, holds | 1, _, holds | 2, _, holds | 3, _, holds => cases holds
    exact (reads_iff hacyclic).2 ⟨rfl, rfl⟩

end Signature

end BlockMachine
