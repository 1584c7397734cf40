import BlockMachine.Operator

/-!
# Operand complaints

What an operator says when its operands do not fit. The wording counts equal neighbours: *two
NumberBlocks* rather than *a NumberBlock and a NumberBlock*.

* `operandComplaint` — for an operator with one list of operands;
* `overloadedComplaint` — for an operator with several.
-/

namespace BlockMachine

open Text (slot)

/-- The shown name of an operator. -/
def shownOperator (l : Localizer) (name : String) : String :=
  l.word (name ++ ".name") name

/-- The complaint of the operator called `name` about operands that are not of the kinds `tags`. -/
def operandComplaint (l : Localizer) (name : String) (tags : List Tag) : String :=
  let op := ("operatorName", shownOperator l name)
  let needs := slot "operatorName" ++ " requires "
  let asInput := " as input."
  let first := slot "operandType1"
  let second := slot "operandType2"
  let third := slot "operandType3"
  let fourth := slot "operandType4"
  let one := fun (key phrase : String) (a : Tag) =>
    l.lookup key (needs ++ phrase ++ asInput) [op, ("operandType", a.shown l)]
  let two := fun (key phrase : String) (a b : Tag) =>
    l.lookup key (needs ++ phrase ++ asInput)
      [op, ("operandType1", a.shown l), ("operandType2", b.shown l)]
  let three := fun (key phrase : String) (a b c : Tag) =>
    l.lookup key (needs ++ phrase ++ asInput)
      [op, ("operandType1", a.shown l), ("operandType2", b.shown l), ("operandType3", c.shown l)]
  match tags with
  | [t] => one "Errors.UnaryOperator" ("a " ++ slot "operandType") t
  | [t, u] =>
    if t = u then one "Errors.BinaryOperator_A" ("two " ++ slot "operandType" ++ "s") t
    else two "Errors.BinaryOperator_B" ("a " ++ first ++ " and a " ++ second) t u
  | [t, u, v] =>
    if t = u ∧ u = v then
      one "Errors.TrinaryOperator_A" ("three " ++ slot "operandType" ++ "s") t
    else if t = u then
      two "Errors.TrinaryOperator_B" ("two " ++ first ++ "s and a " ++ second) t v
    else if u = v then
      two "Errors.TrinaryOperator_C" ("a " ++ first ++ " and two " ++ second ++ "s") t u
    else
      three "Errors.TrinaryOperator_D" ("a " ++ first ++ ", a " ++ second ++ ", and a " ++ third)
        t u v
  | [t, u, v, w] =>
    if t = u ∧ u = v ∧ v = w then
      one "Errors.QuaternaryOperator_TTTT" ("four " ++ slot "operandType" ++ "s") t
    else if t = u ∧ u = v then
      two "Errors.QuaternaryOperator_TTTW" ("three " ++ first ++ "s and a " ++ second) t w
    else if t = u ∧ v = w then
      two "Errors.QuaternaryOperator_TTVV" ("two " ++ first ++ "s and two " ++ second ++ "s") t v
    else if t = u then
      three "Errors.QuaternaryOperator_TTVW"
        ("two " ++ first ++ "s, a " ++ second ++ ", and a " ++ third) t v w
    else if u = v ∧ v = w then
      two "Errors.QuaternaryOperator_TUUU" ("a " ++ first ++ " and three " ++ second ++ "s") t u
    else if u = v then
      three "Errors.QuaternaryOperator_TUUW"
        ("a " ++ first ++ ", two " ++ second ++ "s, and a " ++ third) t u w
    else
      l.lookup "Errors.QuaternaryOperator_TUVW"
        (needs ++ "a " ++ first ++ ", a " ++ second ++ ", a " ++ third ++ ", and a " ++ fourth
          ++ asInput)
        [op, ("operandType1", t.shown l), ("operandType2", u.shown l),
          ("operandType3", v.shown l), ("operandType4", w.shown l)]
  | _ =>
    l.lookup "Errors.OverloadedOperator" (needs ++ slot "operandPhrases" ++ asInput)
      [op, ("operandPhrases", ", ".intercalate (tags.map (Tag.shown l)))]

/-- One list of operands in words. -/
def operandPhrase (l : Localizer) (tags : List Tag) : String :=
  let first := slot "operandType1"
  let second := slot "operandType2"
  let one := fun (key phrase : String) (a : Tag) => l.lookup key phrase [("operandType", a.shown l)]
  let two := fun (key phrase : String) (a b : Tag) =>
    l.lookup key phrase [("operandType1", a.shown l), ("operandType2", b.shown l)]
  match tags with
  | [t, u] =>
    if t = u then one "Errors.BinaryOperandPhrase_A" ("two " ++ slot "operandType" ++ "s") t
    else two "Errors.BinaryOperandPhrase_B" ("a " ++ first ++ " and a " ++ second) t u
  | [t, u, v] =>
    if t = u ∧ u = v then
      one "Errors.TrinaryOperandPhrase_A" ("three " ++ slot "operandType" ++ "s") t
    else if t = u then
      two "Errors.TrinaryOperandPhrase_B" ("two " ++ first ++ "s and a " ++ second) t v
    else if u = v then
      two "Errors.TrinaryOperandPhrase_C" ("a " ++ first ++ " and two " ++ second ++ "s") t u
    else
      l.lookup "Errors.TrinaryOperandPhrase_D"
        ("a " ++ first ++ ", a " ++ second ++ ", and a " ++ slot "operandType3")
        [("operandType1", t.shown l), ("operandType2", u.shown l), ("operandType3", v.shown l)]
  | _ => " ".intercalate (tags.map (Tag.shown l))

/-- The phrases of several lists of operands: the first one bare, the others behind a separator, the
last of them with an *or*. -/
def joinedPhrases (l : Localizer) (separator : String) (combinations : List (List Tag)) : String :=
  let last := combinations.length - 1
  String.join (combinations.zipIdx.map fun (tags, i) =>
    let phrase := ("operandPhrase", operandPhrase l tags)
    let between := ("operandPhraseSeparator", separator)
    if i = 0 then l.lookup "Errors.OperandPhraseStart" (slot "operandPhrase") [phrase]
    else if i = last then
      l.lookup "Errors.OperandPhraseEnd"
        (slot "operandPhraseSeparator" ++ " or " ++ slot "operandPhrase") [between, phrase]
    else
      l.lookup "Errors.OperandPhraseMid"
        (slot "operandPhraseSeparator" ++ " " ++ slot "operandPhrase") [between, phrase])

/-- The complaint of an operator with several lists of operands, none of which fits. -/
def overloadedComplaint (l : Localizer) (name : String) (combinations : List (List Tag)) : String :=
  let separator :=
    if (combinations.head?.map List.length) = some 3 then
      l.word "Errors.TrinaryOperandPhrase_Separator" ","
    else l.word "Errors.BinaryOperandPhrase_Separator" ","
  l.lookup "Errors.OverloadedOperator"
    (slot "operatorName" ++ " requires " ++ slot "operandPhrases" ++ " as input.")
    [("operatorName", shownOperator l name),
      ("operandPhrases", joinedPhrases l separator combinations)]

end BlockMachine
