import BlockMachine.Block
import BlockMachine.Pattern

/-!
# How kinds are written

The pattern of each built-in kind, and the order in which the kinds are tried. `@null` is tried
before data references, so it is never one of these, and code comes last: it takes any name.
-/

namespace BlockMachine

namespace Pattern

/-- Digits. -/
def digit : Pattern :=
  .oneIn false [.range '0' '9']

/-- A minus sign that may be left out. -/
def optionalMinus : Pattern :=
  .optional (.char '-')

/-- Digits with commas among them. -/
def groupedDigits : Pattern :=
  .plus (.oneIn false [.range '0' '9', .char ','])

/-- An exponent that may be left out. -/
def optionalExponent : Pattern :=
  .optional (.group (sequence
    [.oneIn false [.char 'e', .char 'E'], .optional (.oneIn false [.char '+', .char '-']),
      .plus digit]))

/-- A number with commas, a point and an exponent, the latter two optional. -/
def decimalNumber : Pattern :=
  sequence
    [optionalMinus, groupedDigits, .optional (.char '.'), .star digit, optionalExponent]

/-- A character of a name in a token. -/
def nameChar : Pattern :=
  .oneIn true
    [.blank, .char '\x7b', .char '\x7d', .char '(', .char ')', .char '[', .char ']', .char '\x22']

/-- The inside of a text in quotes: no quote and no backslash, unless behind a backslash. -/
def quotedInside : Pattern :=
  .star (.group (.alt (.oneIn true [.char '\\', .char '\x22']) (.seq (.char '\\') .any)))

/-- A text in quotes. -/
def quotedText : Pattern :=
  sequence [.char '\x22', quotedInside, .char '\x22']

/-- Anything without brackets. -/
def noBrackets : Pattern :=
  .star (.oneIn true [.char '[', .char ']'])

end Pattern

namespace Kind

open Pattern in
/-- The pattern of a kind. -/
def pattern : Kind → Pattern
  | .error =>
    .seq (word "Err") (.optional (.group (sequence
      [word "(\"", .star (.oneIn true [.char '\n', .char '\x22']), word "\")"])))
  | .number =>
    .group (oneOf
      [.seq decimalNumber
          (.optional (.group (sequence [.char '/', optionalMinus, .plus digit]))),
        .seq optionalMinus (word "Infinity"), word "NaN", word "π", word "e"])
  | .boolean => .oneIn false [.char 'T', .char 'F']
  | .string => quotedText
  | .memoryReference => sequence [word "MemRef[", noBrackets, .char ']']
  | .memory =>
    sequence
      [word "Object[",
        .star (.oneIn false [.range '0' '9', .range 'A' 'Z', .range 'a' 'z', .char '_']),
        .optional (.group (sequence [word ", \x7b", .star .any, .char '\x7d'])), .char ']']
  | .randomInt =>
    .seq (word "int") (.optional (.group (sequence
      [.char '(', optionalMinus, .plus digit, .char '-', optionalMinus, .plus digit, .char ')'])))
  | .randomReal =>
    .seq (word "real") (.optional (.group (sequence
      [.char '(', decimalNumber, .char '-', decimalNumber, .char ')'])))
  | .randomBool => word "bool"
  | .operator op => oneOf (op.info.spellings.map word)
  | .assign => .seq (word "->$") (.plus nameChar)
  | .fetch => .seq (.char '$') (.plus nameChar)
  | .null => word "@null"
  | .data => .seq (.char '@') (.plus nameChar)
  | .package =>
    .alt
      (sequence
        [.char '[', .lazyStar (.oneIn true [.char '\x22', .char '[', .char ']']), .char ']'])
      (sequence [.char '[', quotedText, .char ']'])
  | .getSymbol => sequence [word "Get[", noBrackets, .char ']']
  | .setSymbol => sequence [word "Set[", noBrackets, .char ']']
  | .color =>
    sequence
      [word "Color[", .plus digit, .char ',', .plus digit, .char ',', .plus digit, .char ']']
  | .code => .plus nameChar
  | .extension _ => .empty

/-- An operator and the kinds that stand behind it in the order. -/
def fromOperator (op : Operator) : List Kind :=
  match op with
  | .disjunction => [.operator op, .assign, .fetch]
  | .iterate => [.operator op, .null, .data, .package]
  | _ => [.operator op]

/-- The built-in kinds in the order in which they are tried. -/
def all : List Kind :=
  [.error, .number, .boolean, .string, .memoryReference, .memory, .randomInt, .randomReal,
    .randomBool]
    ++ Operator.all.flatMap fromOperator
    ++ [.getSymbol, .setSymbol, .color, .code]

end Kind

end BlockMachine
