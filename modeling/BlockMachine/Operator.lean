import BlockMachine.Tag

/-!
# Operators

The table of built-in operators: for each its kind name, the words that write it, the one of them
that it is written back as, its shown text, and the operands it takes.

* `Operator.Signature` — the operands;
* `Operator.info` — the table, `Operator.all` — its rows in grammar order.
-/

namespace BlockMachine

/-- A built-in operator. -/
inductive Operator where
  | random
  | plus
  | minus
  | multiply
  | divide
  | power
  | modulo
  | minimum
  | maximum
  | ceil
  | floor
  | round
  | absolute
  | factorial
  | squareRoot
  | logarithm
  | naturalLogarithm
  | sine
  | cosine
  | tangent
  | arcSine
  | arcCosine
  | arcTangent
  | arcTangent2
  | lessThan
  | greaterThan
  | lessOrEqual
  | greaterOrEqual
  | equal
  | negate
  | conjunction
  | disjunction
  | execute
  | branch
  | map
  | fold
  | foldHelper
  | maybe
  | filter
  | filterHelper
  | compose
  | iterate
  | count
  | read
  | elem
  | insert
  | append
  | replace
  | delete
  | write
  | integral
  | derivative
  | sum
  | product
  | positiveLimit
  | negativeLimit
  | limit
  | getMemory
  | setMemory
deriving Repr, DecidableEq

namespace Operator

/-- The operands that an operator takes. -/
inductive Signature where
  /-- One operand per tag, from the bottom up. -/
  | fixed (tags : List Tag)
  /-- Lists of tags of equal length; the first that fits decides. -/
  | overloaded (combinations : List (List Tag))
  /-- The operator takes its operands itself. -/
  | custom
deriving Repr, DecidableEq

/-- A row of the operator table. -/
structure Info where
  /-- The kind name, which also leads the operator's message keys. -/
  name : String
  /-- The words that write the operator, in the order in which they are tried. -/
  spellings : List String
  /-- The word that the operator is written back as. -/
  token : String
  /-- The shown text. -/
  display : String
  signature : Signature

/-- The operators in grammar order. -/
def all : List Operator :=
  [.random, .plus, .minus, .multiply, .divide, .power, .modulo, .minimum, .maximum, .ceil,
    .floor, .round, .absolute, .factorial, .squareRoot, .logarithm, .naturalLogarithm,
    .sine, .cosine, .tangent, .arcSine, .arcCosine, .arcTangent, .arcTangent2, .lessThan,
    .greaterThan, .lessOrEqual, .greaterOrEqual, .equal, .negate, .conjunction,
    .disjunction, .execute, .branch, .map, .fold, .foldHelper, .maybe, .filter,
    .filterHelper, .compose, .iterate, .count, .read, .elem, .insert, .append, .replace,
    .delete, .write, .integral, .derivative, .sum, .product, .positiveLimit,
    .negativeLimit, .limit, .getMemory, .setMemory]

/-- The operator table. -/
def info : Operator → Info
  | .random => ⟨"RandBlock", ["rand"], "rand", "rand", .fixed []⟩
  | .plus => ⟨"PlusOperator", ["+"], "+", "+", .fixed [.number, .number]⟩
  | .minus => ⟨"MinusOperator", ["-"], "-", "-", .fixed [.number, .number]⟩
  | .multiply => ⟨"MultiplyOperator", ["*"], "*", "*", .fixed [.number, .number]⟩
  | .divide => ⟨"DivideOperator", ["/"], "/", "÷", .fixed [.number, .number]⟩
  | .power => ⟨"PowerOperator", ["pow"], "pow", "pow", .fixed [.number, .number]⟩
  | .modulo => ⟨"ModuloOperator", ["%", "mod", "modulo"], "mod", "mod", .fixed [.number, .number]⟩
  | .minimum => ⟨"MinOperator", ["min"], "min", "min", .fixed [.number, .number]⟩
  | .maximum => ⟨"MaxOperator", ["max"], "max", "max", .fixed [.number, .number]⟩
  | .ceil => ⟨"CeilOperator", ["ceil"], "ceil", "ceil", .fixed [.number]⟩
  | .floor => ⟨"FloorOperator", ["floor"], "floor", "floor", .fixed [.number]⟩
  | .round => ⟨"RoundOperator", ["round"], "round", "round", .fixed [.number]⟩
  | .absolute => ⟨"AbsOperator", ["abs"], "abs", "abs", .fixed [.number]⟩
  | .factorial => ⟨"FactorialOperator", ["!"], "!", "!", .fixed [.number]⟩
  | .squareRoot => ⟨"SquareRootOperator", ["√", "sqrt"], "√", "√", .fixed [.number]⟩
  | .logarithm => ⟨"LogarithmOperator", ["log"], "log", "log", .fixed [.number]⟩
  | .naturalLogarithm => ⟨"NaturalLogarithmOperator", ["ln"], "ln", "ln", .fixed [.number]⟩
  | .sine => ⟨"SineOperator", ["sin"], "sin", "sin", .fixed [.number]⟩
  | .cosine => ⟨"CosineOperator", ["cos"], "cos", "cos", .fixed [.number]⟩
  | .tangent => ⟨"TangentOperator", ["tan"], "tan", "tan", .fixed [.number]⟩
  | .arcSine => ⟨"ArcSineOperator", ["arcsin"], "arcsin", "sin⁻¹", .fixed [.number]⟩
  | .arcCosine => ⟨"ArcCosineOperator", ["arccos"], "arccos", "cos⁻¹", .fixed [.number]⟩
  | .arcTangent => ⟨"ArcTangentOperator", ["arctan"], "arctan", "tan⁻¹", .fixed [.number]⟩
  | .arcTangent2 =>
    ⟨"ArcTangent2Operator", ["arctan2"], "arctan2", "tan⁻¹\u00a02", .fixed [.number, .number]⟩
  | .lessThan => ⟨"LTOperator", ["<"], "<", "<", .fixed [.number, .number]⟩
  | .greaterThan => ⟨"GTOperator", [">"], ">", ">", .fixed [.number, .number]⟩
  | .lessOrEqual => ⟨"LEQOperator", ["<="], "<=", "≤", .fixed [.number, .number]⟩
  | .greaterOrEqual => ⟨"GEQOperator", [">="], ">=", "≥", .fixed [.number, .number]⟩
  | .equal => ⟨"EQOperator", ["="], "=", "=", .fixed [.block, .block]⟩
  | .negate => ⟨"NotOperator", ["~"], "~", "~", .fixed [.boolean]⟩
  | .conjunction => ⟨"AndOperator", ["&"], "&", "&", .fixed [.boolean, .boolean]⟩
  | .disjunction => ⟨"OrOperator", ["|"], "|", "|", .fixed [.boolean, .boolean]⟩
  | .execute => ⟨"ExecBlock", ["exec"], "exec", "exec", .fixed [.data]⟩
  | .branch => ⟨"BranchBlock", ["if"], "if", "if", .fixed [.boolean, .data, .data]⟩
  | .map => ⟨"MapBlock", ["map"], "map", "map", .fixed [.data, .data]⟩
  | .fold => ⟨"FoldBlock", ["fold"], "fold", "fold", .fixed [.data, .data]⟩
  | .foldHelper =>
    ⟨"FoldHelperBlock", ["fold`"], "fold`", "fold`", .fixed [.data, .data, .number]⟩
  | .maybe => ⟨"MaybeBlock", ["maybe"], "maybe", "maybe", .fixed [.block, .data, .data]⟩
  | .filter => ⟨"FilterBlock", ["filter"], "filter", "filter", .fixed [.data, .data]⟩
  | .filterHelper =>
    ⟨"FilterHelperBlock", ["filter`"], "filter`", "filter`",
      .fixed [.boolean, .data, .data, .number]⟩
  | .compose =>
    ⟨"ComposeBlock", ["compose", "comp", "repeat"], "comp", "repeat", .fixed [.data, .number]⟩
  | .iterate =>
    ⟨"IterateBlock", ["iterate", "iter"], "iter", "iter", .fixed [.data, .number, .number]⟩
  | .count => ⟨"CountOperator", ["count"], "count", "count", .fixed [.data]⟩
  | .read => ⟨"ReadBlock", ["read"], "read", "read", .fixed [.data]⟩
  | .elem =>
    ⟨"ElemOperator", ["elem"], "elem", "elem", .overloaded [[.data, .number], [.data, .string]]⟩
  | .insert =>
    ⟨"InsertOperator", ["insert"], "insert", "insert",
      .overloaded [[.data, .block, .number], [.data, .block, .string]]⟩
  | .append => ⟨"AppendOperator", ["append"], "append", "append", .fixed [.data, .block]⟩
  | .replace =>
    ⟨"ReplaceOperator", ["replace"], "replace", "replace",
      .overloaded [[.data, .block, .number], [.data, .block, .string]]⟩
  | .delete =>
    ⟨"DeleteOperator", ["delete"], "delete", "delete",
      .overloaded [[.data, .number], [.data, .string]]⟩
  | .write => ⟨"WriteBlock", ["write"], "write", "write", .custom⟩
  | .integral =>
    ⟨"IntegralOperator", ["∫", "integral"], "integral", "∫", .fixed [.data, .number, .number]⟩
  | .derivative =>
    ⟨"DerivativeOperator", ["𝑑", "derivative"], "derivative", "𝑑", .fixed [.data, .number]⟩
  | .sum => ⟨"SumOperator", ["∑", "sum"], "sum", "∑", .fixed [.data, .number, .number]⟩
  | .product =>
    ⟨"ProductOperator", ["∏", "product"], "product", "∏", .fixed [.data, .number, .number]⟩
  | .positiveLimit => ⟨"PositiveLimitOperator", ["lim+"], "lim+", "lim+", .fixed [.data, .number]⟩
  | .negativeLimit => ⟨"NegativeLimitOperator", ["lim-"], "lim-", "lim-", .fixed [.data, .number]⟩
  | .limit => ⟨"LimitOperator", ["lim"], "lim", "lim", .fixed [.data, .number]⟩
  | .getMemory =>
    ⟨"GetOperator", ["Get"], "Get", "Get Memory", .fixed [.memory, .memoryReference]⟩
  | .setMemory =>
    ⟨"SetOperator", ["Set"], "Set", "Set Memory", .fixed [.memory, .block, .memoryReference]⟩

/-- The kind name. -/
def name (op : Operator) : String :=
  op.info.name

/-- The shown text of an operator. -/
def shown (l : Localizer) (op : Operator) : String :=
  l.word (op.name ++ ".string") op.info.display

theorem mem_all (op : Operator) : op ∈ all := by
  cases op <;> decide

/-- An operator is written back as one of its own spellings. -/
theorem token_mem_spellings (op : Operator) : op.info.token ∈ op.info.spellings := by
  cases op <;> decide

end Operator

end BlockMachine
