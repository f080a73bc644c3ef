import Calculator.Operator
import Calculator.Value

/-
  Expressions. These are all there are: no form stands for a name, a call, an
  access to a part, a comparison or an assignment.
-/

namespace Calculator

/-- A place in a list, tuple or set display. -/
inductive Element (α : Type) where
  | item (e : α)
  /-- The elements of a source, in its place. -/
  | spread (source : α)

/-- A place in a dict display. -/
inductive Entry (α : Type) where
  | pair (key value : α)
  /-- The entries of a source, in its place. -/
  | spread (source : α)

inductive Expr where
  | literal (v : Value)
  | unary (op : UnaryOp) (operand : Expr)
  | binary (op : BinaryOp) (left right : Expr)
  | list (elements : List (Element Expr))
  | tuple (elements : List (Element Expr))
  | set (elements : List (Element Expr))
  | dict (entries : List (Entry Expr))

end Calculator
