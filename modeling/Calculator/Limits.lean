import Calculator.Evaluation
import Calculator.Grammar

/-
  Evaluating a text that is not trusted, within limits on its length and on
  the depth of its nesting. Evaluation needs no limit of its own: every
  operation is checked, and the expression is bounded by its text.
-/

namespace Calculator

structure Limits where
  /-- The longest text accepted, in bytes. -/
  maxInputLen : Nat := 4096
  /-- The deepest nesting accepted. -/
  maxDepth : Nat := 100
  deriving DecidableEq, Repr

/-- The expression of a text. -/
def Expr.ofText (limits : Limits) (text : String) : Except Rejection Expr :=
  if limits.maxInputLen < text.utf8ByteSize then
    .error (.lex ⟨.point limits.maxInputLen, .tooLong limits.maxInputLen⟩)
  else
    match tokenize text with
    | .error e => .error (.lex e)
    | .ok tokens =>
      match parse tokens limits.maxDepth with
      | .error e => .error (.parse e)
      | .ok e => .ok e

/-- The value of a text. -/
def calculate (limits : Limits) (text : String) : Except Rejection Value :=
  match Expr.ofText limits text with
  | .error e => .error e
  | .ok expr =>
    match evaluate expr with
    | .error e => .error (.eval e)
    | .ok v => .ok v

theorem ofText_eq_ok_iff {limits : Limits} {text : String} {e : Expr} :
    Expr.ofText limits text = .ok e ↔ text.utf8ByteSize ≤ limits.maxInputLen ∧
      ∃ ts, tokenize text = .ok ts ∧ parse ts limits.maxDepth = .ok e := by
  unfold Expr.ofText
  split
  · next hlong => exact ⟨nofun, fun h => absurd h.1 (Nat.not_le_of_lt hlong)⟩
  · next hshort =>
    have hfits := Nat.le_of_not_lt hshort
    cases tokenize text with
    | error e => exact ⟨nofun, nofun⟩
    | ok ts =>
      cases hparse : parse ts limits.maxDepth with
      | error e => simp [hparse]
      | ok e => simp [hparse, hfits]

theorem calculate_eq_ok_iff {limits : Limits} {text : String} {v : Value} :
    calculate limits text = .ok v ↔
      ∃ e, Expr.ofText limits text = .ok e ∧ evaluate e = .ok v := by
  unfold calculate
  cases Expr.ofText limits text with
  | error e => exact ⟨nofun, nofun⟩
  | ok e =>
    cases hv : evaluate e with
    | error cause => simp [hv]
    | ok w => simp [hv]

end Calculator
