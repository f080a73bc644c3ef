import Calculator.Operator
import Calculator.Value

/-
  Why evaluating a well-formed expression can fail, and the message for each
  cause.
-/

namespace Calculator

/-- The two spreads: `*` inlines elements, `**` inlines entries. -/
inductive Spread where
  | elements
  | entries
  deriving DecidableEq, Repr

def Spread.symbol : Spread → String
  | .elements => "*"
  | .entries => "**"

inductive EvalError where
  | divisionByZero
  | negativeShift
  | unaryOperand (op : UnaryOp) (got : Kind)
  | binaryOperands (op : BinaryOp) (left right : Kind)
  | notSpreadable (spread : Spread) (got : Kind)
  | unhashable (kind : Kind)
  | unaryOverflow (op : UnaryOp)
  | binaryOverflow (op : BinaryOp)
  | fractionalPower
  deriving DecidableEq, Repr

def EvalError.message : EvalError → String
  | .divisionByZero => "division by zero"
  | .negativeShift => "negative shift count"
  | .unaryOperand op got =>
    let expected := if op = .invert then "an integer" else "a number"
    s!"unsupported operand types: expected {expected} for unary `{op.symbol}`, got {got.name}"
  | .binaryOperands op left right =>
    let expected := if op.integersOnly then "integers" else "numbers"
    s!"unsupported operand types: expected {expected} for `{op.symbol}`, " ++
      s!"got {left.name} and {right.name}"
  | .notSpreadable spread got =>
    let expected := if spread = .elements then "an iterable" else "a mapping"
    s!"value after {spread.symbol} must be {expected}, not {got.name}"
  | .unhashable kind => s!"unhashable type: '{kind.name}'"
  | .unaryOverflow op => s!"integer overflow in {op.symbol}"
  | .binaryOverflow op => s!"integer overflow in {op.symbol}"
  | .fractionalPower =>
    "unsupported operation: negative number raised to a fractional power"

end Calculator
