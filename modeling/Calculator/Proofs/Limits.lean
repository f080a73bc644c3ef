import Calculator.Limits
import Calculator.Proofs.Grammar.Lockstep

/-
  Limits only ever reject. A text that fits larger limits gives under them what
  it gave under smaller ones, unless those rejected it for its length or its
  depth: the same value, or the same rejection with its place and its cause.

  What is proved:
    1. `ofText_mono` — the expression of a text and its errors stay the same.
    2. `calculate_mono` — so do its value and the errors of its evaluation.
-/

namespace Calculator

/-- The text was too long or nested too deeply. -/
def Rejection.OfLimits : Rejection → Prop
  | .lex e => ∃ limit, e.cause = .tooLong limit
  | .parse e => ∃ limit, e.cause = .tooDeep limit
  | .eval _ => False

variable {limits limits' : Limits} {text : String}

theorem ofText_mono (hlen : limits.maxInputLen ≤ limits'.maxInputLen)
    (hdepth : limits.maxDepth ≤ limits'.maxDepth)
    (h : ∀ r, Expr.ofText limits text = .error r → ¬ r.OfLimits) :
    Expr.ofText limits' text = Expr.ofText limits text := by
  by_cases hlong : limits.maxInputLen < text.utf8ByteSize
  · exact absurd ⟨_, rfl⟩ (h _ (if_pos hlong))
  have hlong' : ¬ limits'.maxInputLen < text.utf8ByteSize := by omega
  unfold Expr.ofText at h ⊢
  rw [if_neg hlong] at h ⊢
  rw [if_neg hlong']
  cases htokens : tokenize text with
  | error e => rfl
  | ok ts =>
    simp only [htokens] at h
    have hparse : ¬ Grammar.TooDeep (parse ts limits.maxDepth) := by
      rintro ⟨e, limit, he, hcause⟩
      exact h (.parse e) (by simp only [he]) ⟨limit, hcause⟩
    simp only [Grammar.parse_mono hdepth hparse]

theorem calculate_mono (hlen : limits.maxInputLen ≤ limits'.maxInputLen)
    (hdepth : limits.maxDepth ≤ limits'.maxDepth)
    (h : ∀ r, calculate limits text = .error r → ¬ r.OfLimits) :
    calculate limits' text = calculate limits text := by
  have hsame : Expr.ofText limits' text = Expr.ofText limits text :=
    ofText_mono hlen hdepth fun r hr => h r (by simp only [calculate, hr])
  simp only [calculate, hsame]

/-- Limits that only just allow a text report its unclosed bracket, and so do
    larger ones. -/
theorem calculate_mono_unclosed :
    ∃ e, calculate ⟨6, 3⟩ "[1, (2" = .error (.parse e) ∧ e.cause = .unclosed .round 4 ∧
      calculate {} "[1, (2" = .error (.parse e) := by
  have hsmall : calculate ⟨6, 3⟩ "[1, (2" =
      .error (.parse ⟨⟨6, 6⟩, .unclosed .round 4, some ⟨4, 5⟩⟩) :=
    Grammar.failure?_eq_some_iff.mp (by decide +kernel)
  have hsame : calculate {} "[1, (2" = calculate ⟨6, 3⟩ "[1, (2" := by
    refine calculate_mono (by decide) (by decide) fun r hr => ?_
    rw [hsmall] at hr
    cases hr
    exact nofun
  exact ⟨_, hsmall, rfl, hsame.trans hsmall⟩

end Calculator
