import Calculator.Proofs.Token.Numeral
import Calculator.Proofs.Token.Tiling

/-
  Integers in the bases that a mark of two characters tells. No other rule
  describes the mark, so its rule reads all the digits after it.

  What is proved:
    1. `longest_radix` — digits after a mark are one token, read in its base.
    2. `numeral_radix` — the digits of a number after the mark of their base are a
       numeral of it.
-/

namespace Calculator

/-! ## Marks of bases -/

theorem matches_radix_iff {radix : Nat} {lower upper mark : Char} {body : List Char} :
    Pattern.Matches (Rule.radix radix lower upper).1 ('0' :: mark :: body) ↔
      (mark = lower ∨ mark = upper) ∧ body ≠ [] ∧ ∀ c ∈ body, isDigit radix c || c == '_' := by
  rw [← Pattern.matches_atLeastOne_iff]
  simp only [Rule.radix, Pattern.sequence, Pattern.char, Pattern.matches_seq_iff,
    Pattern.matches_one_iff, Pattern.matches_empty_iff, beq_iff_eq, Bool.or_eq_true]
  constructor
  · rintro ⟨_, _, ⟨_, rfl, rfl⟩, ⟨_, _, ⟨c, hc, rfl⟩, ⟨u, _, hu, rfl, rfl⟩, rfl⟩, heq⟩
    cases heq
    rw [List.append_nil]
    exact ⟨hc, hu⟩
  · rintro ⟨hmark, hbody⟩
    exact ⟨['0'], _, ⟨_, rfl, rfl⟩, ⟨[mark], _, ⟨mark, hmark, rfl⟩, ⟨body, [], hbody, rfl, rfl⟩,
      by simp⟩, rfl⟩

/-- The characters that mark a base after a zero. -/
inductive Marks : Char → Nat → Prop where
  | hexadecimal {mark : Char} : mark = 'x' ∨ mark = 'X' → Marks mark 16
  | octal {mark : Char} : mark = 'o' ∨ mark = 'O' → Marks mark 8
  | binary {mark : Char} : mark = 'b' ∨ mark = 'B' → Marks mark 2

/-- The rule of decimal integers does not go over a mark. -/
theorem not_matches_mark {mark : Char} (hmark : Rule.digits.mentions mark = false)
    {body : List Char} : ¬ Pattern.Matches Rule.digits ('0' :: mark :: body) := by
  intro h
  rw [Pattern.mentions_of_mem (c := mark) h (by simp)] at hmark
  cases hmark

/-- The rule of a base is the first that describes its mark and digits. -/
theorem first_radix {mark : Char} {radix : Nat} (h : Marks mark radix) {body : List Char}
    (hne : body ≠ []) (hbody : ∀ c ∈ body, isDigit radix c || c == '_') :
    Pattern.first rules ('0' :: mark :: body) = some (readRadix radix) := by
  have other (base : Nat) (lower upper : Char) (hmark : ¬ (mark = lower ∨ mark = upper)) :
      ¬ Pattern.Matches (Rule.radix base lower upper).1 ('0' :: mark :: body) :=
    fun hmatch => hmark (matches_radix_iff.mp hmatch).1
  rw [Pattern.first_eq_some_iff]
  cases h with
  | hexadecimal hmark =>
    refine ⟨_, _, rules.drop 2, rfl, List.forall_mem_singleton.mpr ?_,
      matches_radix_iff.mpr ⟨hmark, hne, hbody⟩⟩
    exact not_matches_mark (by rcases hmark with rfl | rfl <;> rfl)
  | octal hmark =>
    refine ⟨_, _, rules.drop 3, rfl, List.forall_mem_cons.mpr
      ⟨?_, List.forall_mem_singleton.mpr ?_⟩, matches_radix_iff.mpr ⟨hmark, hne, hbody⟩⟩
    · exact not_matches_mark (by rcases hmark with rfl | rfl <;> rfl)
    · exact other 16 'x' 'X' (by rcases hmark with rfl | rfl <;> decide)
  | binary hmark =>
    refine ⟨_, _, rules.drop 4, rfl, List.forall_mem_cons.mpr ⟨?_, List.forall_mem_cons.mpr
      ⟨?_, List.forall_mem_singleton.mpr ?_⟩⟩, matches_radix_iff.mpr ⟨hmark, hne, hbody⟩⟩
    · exact not_matches_mark (by rcases hmark with rfl | rfl <;> rfl)
    · exact other 16 'x' 'X' (by rcases hmark with rfl | rfl <;> decide)
    · exact other 8 'o' 'O' (by rcases hmark with rfl | rfl <;> decide)

theorem longest_radix {mark : Char} {radix : Nat} (h : Marks mark radix) {body : List Char}
    (hne : body ≠ []) (hbody : ∀ c ∈ body, isDigit radix c || c == '_') :
    Pattern.longest rules ('0' :: mark :: body) =
      some (('0' :: mark :: body).length, readRadix radix) := by
  refine Pattern.longest_eq_some_iff.mpr ⟨by simp, Nat.le_refl _, ?_, fun m hm hle => by omega⟩
  rw [List.take_length]
  exact first_radix h hne hbody

/-! ## Digits after a mark -/

theorem radix_of_marks {mark : Char} {radix : Nat} (h : Marks mark radix) :
    1 < radix ∧ radix ≤ 16 := by
  cases h <;> decide

theorem numeral_radix {mark : Char} {radix : Nat} (h : Marks mark radix) (n : Nat) :
    Numeral ('0' :: mark :: Nat.toDigits radix n) n where
  not_blank c hc := by
    cases hc
    rfl
  reads := by
    have hradix := radix_of_marks h
    have hdigits := isDigit_of_mem_toDigits hradix n
    have hdrop := dropSeparators_digits (Nat.le_trans hradix.2 (by decide)) hdigits true
    refine ⟨readRadix radix, longest_radix h Nat.toDigits_ne_nil ?_, ?_⟩
    · intro c hc
      rw [hdigits c hc, Bool.true_or]
    · simp only [readRadix, List.drop_succ_cons, List.drop_zero, hdrop]
      rw [positional_toDigits hradix]

end Calculator
