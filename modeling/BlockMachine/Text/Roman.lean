/-!
# Lowercase roman numerals

The names of stacks that were made without one. Zero has the empty numeral, and thousands are
written as so many `m`.
-/

namespace BlockMachine.Text

/-- The values that a numeral is put together from, greatest first. -/
def romanSteps : List (Nat × String) :=
  [(1000, "m"), (900, "cm"), (500, "d"), (400, "cd"), (100, "c"), (90, "xc"), (50, "l"), (40, "xl"),
    (10, "x"), (9, "ix"), (5, "v"), (4, "iv"), (1, "i")]

/-- Takes each value of the list as often as it fits. -/
def romanFrom : List (Nat × String) → Nat → String
  | [], _ => ""
  | (value, letters) :: steps, n =>
    String.join (List.replicate (n / value) letters) ++ romanFrom steps (n % value)

/-- The numeral of `n`. -/
def roman (n : Nat) : String :=
  romanFrom romanSteps n

theorem roman_zero : roman 0 = "" := rfl

end BlockMachine.Text
