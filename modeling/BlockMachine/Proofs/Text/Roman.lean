import BlockMachine.Text.Roman

/-!
# Reading roman numerals

A numeral is read letter by letter: a letter in front of a greater one is taken away, every other
letter is added. So the numeral of a number is read as that number, and different numbers have
different numerals.

* `subtractive` — reading by the subtractive rule;
* `Reads` — letters that are worth the same whatever comes behind them, as long as that is no
  greater than the last of them;
* `subtractive_romanFrom`, `subtractive_roman` — numerals are read back;
* `letterValue_pos_of_mem_roman` — they consist of letters;
* `roman_injective` — and are distinct.
-/

namespace BlockMachine.Text

/-- What a letter is worth. -/
def letterValue : Char → Int
  | 'm' => 1000
  | 'd' => 500
  | 'c' => 100
  | 'l' => 50
  | 'x' => 10
  | 'v' => 5
  | 'i' => 1
  | _ => 0

/-- What the first letter is worth. -/
def leading (s : List Char) : Int :=
  (s.head?.map letterValue).getD 0

/-- **The subtractive rule.** A letter in front of a greater one counts negatively. -/
def subtractive : List Char → Int
  | [] => 0
  | c :: rest =>
    (if letterValue c < leading rest then -letterValue c else letterValue c) + subtractive rest

/-- What the last letter is worth. -/
def trailing (s : List Char) : Int :=
  (s.getLast?.map letterValue).getD 0

/-- Letters that count as `value` in front of anything that is no greater than the last of them. -/
structure Reads (value : Nat) (letters : List Char) : Prop where
  ordered : leading letters ≤ trailing letters
  append : ∀ rest, leading rest ≤ trailing letters →
    subtractive (letters ++ rest) = value + subtractive rest

theorem reads_romanSteps : ∀ step ∈ romanSteps, Reads step.1 step.2.toList := by
  have hone : ∀ (value : Nat) (c : Char), letterValue c = value → Reads value [c] := by
    intro value c hc
    refine ⟨Int.le_refl _, fun rest hrest => ?_⟩
    replace hrest : leading rest ≤ letterValue c := hrest
    rw [List.singleton_append, subtractive, if_neg (Int.not_lt.2 hrest), hc]
  have htwo : ∀ (value : Nat) (c d : Char), letterValue c < letterValue d →
      letterValue d - letterValue c = value → Reads value [c, d] := by
    intro value c d hlt hvalue
    refine ⟨Int.le_of_lt hlt, fun rest hrest => ?_⟩
    replace hrest : leading rest ≤ letterValue d := hrest
    have hfirst : leading (d :: rest) = letterValue d := rfl
    change subtractive (c :: d :: rest) = _
    rw [subtractive, hfirst, if_pos hlt, subtractive, if_neg (Int.not_lt.2 hrest), ← hvalue]
    omega
  intro step hstep
  simp only [romanSteps, List.mem_cons, List.not_mem_nil, or_false] at hstep
  rcases hstep with rfl | rfl | rfl | rfl | rfl | rfl | rfl | rfl | rfl | rfl | rfl | rfl | rfl
  all_goals first
    | exact hone _ _ rfl
    | exact htwo _ _ _ (by decide) rfl

theorem leading_append_le {s t : List Char} {top : Int} (hs : leading s ≤ top)
    (ht : leading t ≤ top) : leading (s ++ t) ≤ top := by
  cases s with
  | nil => exact ht
  | cons c s => exact hs

/-- Letters that are repeated begin as they do once. -/
theorem leading_repeated_le {s t : List Char} {top : Int} (hs : leading s ≤ top)
    (ht : leading t ≤ top) (k : Nat) : leading ((List.replicate k s).flatten ++ t) ≤ top := by
  induction k with
  | zero => exact ht
  | succ k ih =>
    rw [List.replicate_succ, List.flatten_cons, List.append_assoc]
    exact leading_append_le hs ih

theorem trailing_nonneg (s : List Char) : 0 ≤ trailing s := by
  have hletter : ∀ c, 0 ≤ letterValue c := by
    intro c
    unfold letterValue
    split <;> decide
  rw [trailing]
  cases s.getLast? with
  | none => exact Int.le_refl 0
  | some c => exact hletter c

/-- Letters that are repeated are counted as often. -/
theorem Reads.repeated {value : Nat} {letters rest : List Char} (h : Reads value letters)
    (hrest : leading rest ≤ trailing letters) (k : Nat) :
    subtractive ((List.replicate k letters).flatten ++ rest) = value * k + subtractive rest := by
  induction k with
  | zero => simp
  | succ k ih =>
    rw [List.replicate_succ, List.flatten_cons, List.append_assoc,
      h.append _ (leading_repeated_le h.ordered hrest k), ih, Int.natCast_succ, Int.mul_add]
    omega

theorem toList_romanFrom (value : Nat) (letters : String) (steps : List (Nat × String)) (n : Nat) :
    (romanFrom ((value, letters) :: steps) n).toList =
      (List.replicate (n / value) letters.toList).flatten ++ (romanFrom steps (n % value)).toList := by
  simp [romanFrom, List.flatMap_def]

/-- A numeral begins with the first letter of one of its steps. -/
theorem leading_romanFrom {steps : List (Nat × String)} {top : Int} (htop : 0 ≤ top)
    (h : ∀ step ∈ steps, leading step.2.toList ≤ top) (n : Nat) :
    leading (romanFrom steps n).toList ≤ top := by
  induction steps generalizing n with
  | nil => exact htop
  | cons step steps ih =>
    obtain ⟨hstep, hsteps⟩ := List.forall_mem_cons.1 h
    obtain ⟨value, letters⟩ := step
    rw [toList_romanFrom]
    exact leading_repeated_le hstep (ih hsteps _) _

/-- **Numerals are read back**, up to what is left when all values have been taken. -/
theorem subtractive_romanFrom {steps : List (Nat × String)}
    (hreads : ∀ step ∈ steps, Reads step.1 step.2.toList)
    (horder : steps.Pairwise fun a b => leading b.2.toList ≤ trailing a.2.toList) (n : Nat) :
    subtractive (romanFrom steps n).toList + (steps.foldl (fun m step => m % step.1) n : Nat) =
      n := by
  induction steps generalizing n with
  | nil => simp [romanFrom, subtractive]
  | cons step steps ih =>
    obtain ⟨hstep, hsteps⟩ := List.forall_mem_cons.1 hreads
    obtain ⟨hfirst, hrest⟩ := List.pairwise_cons.1 horder
    obtain ⟨value, letters⟩ := step
    have hrec := ih hsteps hrest (n % value)
    have hdivision : (value : Int) * (n / value : Nat) + (n % value : Nat) = n := by
      exact_mod_cast Nat.div_add_mod n value
    rw [toList_romanFrom,
      hstep.repeated (leading_romanFrom (trailing_nonneg letters.toList) hfirst _), List.foldl_cons]
    dsimp only
    omega

theorem subtractive_roman (n : Nat) : subtractive (roman n).toList = n := by
  have hread := subtractive_romanFrom reads_romanSteps (by decide) n
  have hnone : romanSteps.foldl (fun m step => m % step.1) n = 0 := by
    simp only [romanSteps, List.foldl_cons, List.foldl_nil]
    exact Nat.mod_one _
  rw [roman]
  omega

/-- What occurs in a numeral occurs in one of its steps. -/
theorem exists_step_of_mem_romanFrom {steps : List (Nat × String)} {n : Nat} {c : Char}
    (hc : c ∈ (romanFrom steps n).toList) : ∃ step ∈ steps, c ∈ step.2.toList := by
  induction steps generalizing n with
  | nil => simp [romanFrom] at hc
  | cons step steps ih =>
    obtain ⟨value, letters⟩ := step
    rw [toList_romanFrom, List.mem_append] at hc
    rcases hc with hc | hc
    · obtain ⟨s, hs, hc⟩ := List.mem_flatten.1 hc
      exact ⟨_, List.mem_cons_self, List.eq_of_mem_replicate hs ▸ hc⟩
    · obtain ⟨step, hstep, hc⟩ := ih hc
      exact ⟨step, List.mem_cons_of_mem _ hstep, hc⟩

/-- Only letters are worth something, so numerals have no other characters. -/
theorem letterValue_pos_of_mem_roman {n : Nat} {c : Char} (hc : c ∈ (roman n).toList) :
    0 < letterValue c := by
  have hsteps : (romanSteps.all fun step => step.2.toList.all (0 < letterValue ·)) = true := rfl
  obtain ⟨step, hstep, hc⟩ := exists_step_of_mem_romanFrom hc
  exact of_decide_eq_true (List.all_eq_true.1 (List.all_eq_true.1 hsteps step hstep) c hc)

/-- **Numerals are distinct.** -/
theorem roman_injective {m n : Nat} (h : roman m = roman n) : m = n := by
  have hm := subtractive_roman m
  rw [h, subtractive_roman n] at hm
  omega

end BlockMachine.Text
