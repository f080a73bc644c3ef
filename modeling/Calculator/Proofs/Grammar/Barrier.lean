import Calculator.Proofs.Grammar.Lockstep
import Mathlib.Data.List.TakeWhile

/-
  The end of input is a barrier. The readers go along the whole list of tokens, and an
  end of input in the middle of it is a token like others; but no rule takes one, and
  where the tokens end it is what comes next. So tokens before an end of input are read
  as they are with nothing after them, and what follows the end is never seen.

  What is proved:
    1. `read_before_end` — a list of expressions before an end of input.
    2. `parse_eq` — the tokens after the first end of input may be left out.
    3. `parse_barrier` — they may be any others, and the end after the last token may be
       written or not.
-/

namespace Calculator.Grammar

/-- Where only the place of the end differs, a rule ends in the same way, and this holds
    of the errors about depth too. -/
theorem within_sameDepth (input : Input) (depth : Nat) (which : Nested) :
    InStep (fun _ => False) input (fun endSpan => ⟨input.maxDepth, endSpan⟩)
      (within input depth which) (fun endSpan => within ⟨input.maxDepth, endSpan⟩ depth which) := by
  induction depth generalizing which with
  | zero => exact fun _ => lockstep_error (fun _ => .tooDeep input.maxDepth) none
  | succ depth ih => exact rule_inStep ih which

theorem list_sameDepth (input : Input) (depth : Nat) (ts : List Lexeme) :
    ∃ used rest, ∃ ending : Ending Expr, ts = used ++ rest ∧
      Phrase.list.read input depth none ts = ending.give input rest ∧
      ∀ endSpan rest', SameNext rest rest' →
        Phrase.list.read ⟨input.maxDepth, endSpan⟩ depth none (used ++ rest') =
          ending.give ⟨input.maxDepth, endSpan⟩ rest' := by
  rcases expressionList_inStep (within_sameDepth input depth) none ts with ⟨_, _, h⟩ | h
  · exact h.elim
  · exact h

/-! ## Tokens before an end of input -/

/-- Before tokens that start with the end of input, or before none, a list is read to the
    end as if it stood alone and the input ended there. -/
theorem read_before_end {maxDepth : Nat} {endSpan implied : Span} {us : List Lexeme}
    (hus : Input.next ⟨maxDepth, implied⟩ us = ⟨.eof, endSpan⟩) (depth : Nat) (ts : List Lexeme) :
    Phrase.list.read ⟨maxDepth, implied⟩ depth none (ts ++ us) >>= whole ⟨maxDepth, implied⟩ =
      Phrase.list.read ⟨maxDepth, endSpan⟩ depth none ts >>= whole ⟨maxDepth, endSpan⟩ := by
  obtain ⟨used, rest, ending, rfl, hread, hread'⟩ :=
    list_sameDepth ⟨maxDepth, endSpan⟩ depth ts
  have hnext : Input.next ⟨maxDepth, implied⟩ (rest ++ us) =
      Input.next ⟨maxDepth, endSpan⟩ rest := by
    cases rest with
    | nil => exact hus
    | cons l rest => rfl
  have hsame : SameNext rest (rest ++ us) := by
    rw [SameNext, ← next_token ⟨maxDepth, endSpan⟩, ← hnext, next_token]
  rw [List.append_assoc, hread, hread' implied _ hsame, give_whole hnext]

theorem parse_before_end (ts : List Lexeme) (endSpan : Span) (after : List Lexeme)
    (maxDepth : Nat) : parse (ts ++ ⟨.eof, endSpan⟩ :: after) maxDepth =
      Phrase.list.read ⟨maxDepth, endSpan⟩ maxDepth none ts >>= whole ⟨maxDepth, endSpan⟩ :=
  read_before_end rfl maxDepth ts

/-! ## The first end of input -/

theorem end_cases (ts : List Lexeme) : (∀ l ∈ ts, l.token ≠ .eof) ∨
    ∃ front endSpan after, ts = front ++ ⟨.eof, endSpan⟩ :: after ∧
      ∀ l ∈ front, l.token ≠ .eof := by
  cases hfind : ts.find? (·.token = .eof) with
  | none => exact .inl (by simpa using hfind)
  | some last =>
    obtain ⟨hlast, front, after, rfl, hfront⟩ := List.find?_eq_some_iff_append.mp hfind
    obtain ⟨token, endSpan⟩ := last
    obtain rfl : token = .eof := by simpa using hlast
    exact .inr ⟨front, endSpan, after, rfl, by simpa using hfront⟩

theorem takeWhile_end {ts : List Lexeme} (h : ∀ l ∈ ts, l.token ≠ .eof) (span : Span)
    (more : List Lexeme) : (ts ++ ⟨.eof, span⟩ :: more).takeWhile (·.token ≠ .eof) = ts := by
  rw [List.takeWhile_append_of_pos (by simpa using h)]
  simp

theorem takeWhile_no_end {ts : List Lexeme} (h : ∀ l ∈ ts, l.token ≠ .eof) :
    ts.takeWhile (·.token ≠ .eof) = ts :=
  List.takeWhile_eq_self_iff.mpr (by simpa using h)

theorem endOf_end {ts : List Lexeme} (h : ∀ l ∈ ts, l.token ≠ .eof) (span : Span)
    (more : List Lexeme) : endOf (ts ++ ⟨.eof, span⟩ :: more) = span := by
  have hfind : List.find? (fun l : Lexeme => l.token = .eof) (ts ++ ⟨.eof, span⟩ :: more) =
      some ⟨.eof, span⟩ := by
    rw [List.find?_append, List.find?_eq_none.mpr (by simpa using h)]
    rfl
  simp only [endOf, hfind]

theorem endOf_eq_impliedEnd {ts : List Lexeme} (h : ∀ l ∈ ts, l.token ≠ .eof) :
    endOf ts = impliedEnd ts := by
  have hfind : ts.find? (·.token = .eof) = none := by simpa using h
  unfold endOf impliedEnd
  rw [hfind]
  cases ts.getLast? <;> rfl

theorem parse_eq_takeWhile (ts : List Lexeme) (maxDepth : Nat) : parse ts maxDepth =
    Phrase.list.read ⟨maxDepth, endOf ts⟩ maxDepth none (ts.takeWhile (·.token ≠ .eof)) >>=
      whole ⟨maxDepth, endOf ts⟩ := by
  rcases end_cases ts with h | ⟨front, endSpan, after, rfl, h⟩
  · rw [takeWhile_no_end h, endOf_eq_impliedEnd h, parse_eq_whole]
  · rw [takeWhile_end h, endOf_end h, parse_before_end]

/-- An expression list that takes all tokens before the end of input. -/
theorem parse_eq (ts : List Lexeme) (maxDepth : Nat) :
    parse ts maxDepth = (do
      let (e, rest) ← Phrase.list.read ⟨maxDepth, endOf ts⟩ maxDepth none
        (ts.takeWhile (·.token ≠ .eof))
      match rest with
      | [] => .ok e
      | found :: _ => .error ⟨found.span, cannotTrail found.token, none⟩) := by
  rw [parse_eq_takeWhile]
  obtain ⟨used, rest, ending, hts, hread, _⟩ :=
    list_sameDepth ⟨maxDepth, endOf ts⟩ maxDepth (ts.takeWhile (·.token ≠ .eof))
  rw [hread]
  cases ending with
  | error failure => rfl
  | ok e =>
    cases rest with
    | nil => rfl
    | cons found rest =>
      -- what is left is among the tokens before the end
      have hmem : found ∈ ts.takeWhile (·.token ≠ .eof) :=
        hts ▸ List.mem_append_right used List.mem_cons_self
      have hne : found.token ≠ .eof := by simpa using List.mem_takeWhile_imp hmem
      simp only [Ending.give, ok_bind, whole, Input.next, hne, if_false]

/-- Whatever follows an end of input makes no difference, and neither does an end of input
    after the last token, at the place where that token ends. -/
theorem parse_barrier (front : List Lexeme) (maxDepth : Nat) :
    (∀ endSpan after after', parse (front ++ [⟨.eof, endSpan⟩] ++ after) maxDepth =
        parse (front ++ [⟨.eof, endSpan⟩] ++ after') maxDepth) ∧
      parse front maxDepth = parse (front ++ [⟨.eof, impliedEnd front⟩]) maxDepth := by
  constructor
  · intro endSpan after after'
    rw [List.append_assoc, List.append_assoc]
    exact (parse_before_end front endSpan after maxDepth).trans
      (parse_before_end front endSpan after' maxDepth).symm
  · rw [parse_before_end, parse_eq_whole]

end Calculator.Grammar
