/-
  The operators of the expression language and how each is written.
-/

namespace Calculator

inductive UnaryOp where
  | pos
  | neg
  | not
  | invert
  deriving DecidableEq, Repr

inductive BinaryOp where
  | pow
  | mul
  | floorDiv
  | trueDiv
  | mod
  | add
  | sub
  | shiftLeft
  | shiftRight
  | bitAnd
  | bitXor
  | bitOr
  deriving DecidableEq, Repr

def UnaryOp.symbol : UnaryOp → String
  | .pos => "+"
  | .neg => "-"
  | .not => "not"
  | .invert => "~"

def BinaryOp.symbol : BinaryOp → String
  | .pow => "**"
  | .mul => "*"
  | .floorDiv => "//"
  | .trueDiv => "/"
  | .mod => "%"
  | .add => "+"
  | .sub => "-"
  | .shiftLeft => "<<"
  | .shiftRight => ">>"
  | .bitAnd => "&"
  | .bitXor => "^"
  | .bitOr => "|"

/-- The operators that act on integers only; the others take any numbers. -/
def BinaryOp.integersOnly : BinaryOp → Bool
  | .shiftLeft | .shiftRight | .bitAnd | .bitXor | .bitOr => true
  | _ => false

end Calculator
