import Calculator.Arithmetic
import Calculator.Expr
import Calculator.Value.Key

/-
  The value of an expression: a function of the expression alone. Operands,
  elements and entries are evaluated from left to right, and the first error
  met is the error of the whole.
-/

namespace Calculator

/-- The values that a spread of elements inlines. -/
def spreadItems (source : Value) : Except EvalError (List Value) :=
  match source.items? with
  | some items => .ok items
  | none => .error (.notSpreadable .elements source.kind)

/-- The entries that a spread of entries inlines. -/
def spreadEntries : Value → Except EvalError (List (Value × Value))
  | .dict entries => .ok entries
  | source => .error (.notSpreadable .entries source.kind)

mutual

def evaluate : Expr → Except EvalError Value
  | .literal v => .ok v
  | .unary op operand => do
    let v ← evaluate operand
    op.apply v
  | .binary op left right => do
    let l ← evaluate left
    let r ← evaluate right
    op.apply l r
  | .list elements => .list <$> evaluateElements elements
  | .tuple elements => .tuple <$> evaluateElements elements
  | .set elements => do
    let items ← evaluateElements elements
    Value.setOf items
  | .dict entries => .dict <$> evaluateEntries entries []

/-- The values of a display's elements, spreads inlined. -/
def evaluateElements : List (Element Expr) → Except EvalError (List Value)
  | [] => .ok []
  | .item e :: rest => do
    let v ← evaluate e
    let vs ← evaluateElements rest
    return v :: vs
  | .spread e :: rest => do
    let source ← evaluate e
    let items ← spreadItems source
    let vs ← evaluateElements rest
    return items ++ vs

/-- The entries of a dict display put into those of the places before. -/
def evaluateEntries : List (Entry Expr) → List (Value × Value) →
    Except EvalError (List (Value × Value))
  | [], done => .ok done
  | .pair key value :: rest, done => do
    let k ← evaluate key
    let v ← evaluate value
    let done ← Value.insertEntry done (k, v)
    evaluateEntries rest done
  | .spread e :: rest, done => do
    let source ← evaluate e
    let entries ← spreadEntries source
    let done ← entries.foldlM Value.insertEntry done
    evaluateEntries rest done

end

end Calculator
