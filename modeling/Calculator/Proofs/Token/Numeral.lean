import Calculator.Proofs.Token.Context
import Mathlib.Data.List.Induction
import Mathlib.Data.Nat.Digits.Defs

/-
  Numbers as they are written, read back.

  What is proved:
    1. `positional_eq_placeValue` — the value of digits is the sum of their weights.
    2. `positional_toDigits` — digits in a base denote the number they were made
       from.
    3. `numeral_decimal` — the decimal digits of a number are a numeral of it.
    4. `lexes_numeral`, `tokenizeFrom_numeral` — a numeral is an integer token if
       its number fits, and an error if it does not.
-/

namespace Calculator

/-! ## Digits -/

theorem digitValue_digitChar : ∀ d < 16, digitValue (Nat.digitChar d) = d := by decide

theorem positional_append (radix : Nat) (cs : List Char) (c : Char) :
    positional radix (cs ++ [c]) = positional radix cs * radix + digitValue c := by
  simp [positional, List.foldl_append]

/-- The number that digits denote, each having the weight of its place. -/
def placeValue (radix : Nat) (digits : List Char) : Nat :=
  Nat.ofDigits radix (digits.reverse.map digitValue)

theorem positional_eq_placeValue (radix : Nat) (digits : List Char) :
    positional radix digits = placeValue radix digits := by
  induction digits using List.reverseRecOn with
  | nil => rfl
  | append_singleton cs c ih =>
    rw [positional_append, ih, placeValue, placeValue, List.reverse_concat, List.map_cons,
      Nat.ofDigits_cons, Nat.add_comm, Nat.mul_comm]

section

variable {radix : Nat} (hradix : 1 < radix ∧ radix ≤ 16)
include hradix

theorem isDigit_of_mem_toDigits (n : Nat) : ∀ c ∈ Nat.toDigits radix n, isDigit radix c = true := by
  have digit {d : Nat} (hd : d < radix) : isDigit radix (Nat.digitChar d) = true := by
    rw [isDigit, digitValue_digitChar d (by omega)]
    exact decide_eq_true hd
  induction n using Nat.strongRecOn with
  | ind n ih =>
    by_cases hn : n < radix
    · rw [Nat.toDigits_of_lt_base hn]
      simp [digit hn]
    · rw [Nat.toDigits_of_base_le hradix.1 (by omega)]
      intro c hc
      rcases List.mem_append.mp hc with hc | hc
      · exact ih (n / radix) (Nat.div_lt_self (by omega) hradix.1) c hc
      · rw [List.mem_singleton.mp hc]
        exact digit (Nat.mod_lt n (by omega))

theorem positional_toDigits (n : Nat) : positional radix (Nat.toDigits radix n) = n := by
  induction n using Nat.strongRecOn with
  | ind n ih =>
    by_cases hn : n < radix
    · rw [Nat.toDigits_of_lt_base hn]
      simp [positional, digitValue_digitChar n (by omega)]
    · have hlast : n % radix < radix := Nat.mod_lt n (by omega)
      have hfront := ih (n / radix) (Nat.div_lt_self (by omega) hradix.1)
      calc positional radix (Nat.toDigits radix n)
          = positional radix (Nat.toDigits radix (n / radix)) * radix +
              digitValue (Nat.digitChar (n % radix)) := by
            rw [Nat.toDigits_of_base_le hradix.1 (by omega), positional_append]
        _ = n / radix * radix + n % radix := by
            rw [hfront, digitValue_digitChar _ (by omega)]
        _ = n := Nat.div_add_mod' n radix

/-- Only zero is written with the digit 0 first. -/
theorem head_toDigits {n : Nat} (hn : 0 < n) : (Nat.toDigits radix n).head? ≠ some '0' := by
  induction n using Nat.strongRecOn with
  | ind n ih =>
    by_cases hlt : n < radix
    · rw [Nat.toDigits_of_lt_base hlt]
      intro h
      have hzero : digitValue (Nat.digitChar n) = 0 := by
        rw [Option.some.inj h]
        rfl
      rw [digitValue_digitChar n (by omega)] at hzero
      omega
    · rw [Nat.toDigits_of_base_le hradix.1 (by omega), List.head?_append,
        Option.or_of_isSome (by simp [Nat.toDigits_ne_nil])]
      exact ih (n / radix) (Nat.div_lt_self hn hradix.1) (Nat.div_pos (by omega) (by omega))

end

/-! ## Rules of repeated characters -/

theorem Pattern.matches_many_one_iff {accepts : Char → Bool} {s : List Char} :
    Matches (.many (.one accepts)) s ↔ ∀ c ∈ s, accepts c = true := by
  induction s with
  | nil => exact ⟨fun _ => nofun, fun _ => .manyNil⟩
  | cons c cs ih =>
    rw [matches_many_cons, List.forall_mem_cons]
    constructor
    · rintro ⟨u, v, hu, hv, rfl⟩
      obtain ⟨d, hd, heq⟩ := matches_one_iff.mp hu
      cases heq
      exact ⟨hd, ih.mp hv⟩
    · rintro ⟨hc, hcs⟩
      exact ⟨[], cs, .one hc, ih.mpr hcs, rfl⟩

theorem Pattern.matches_atLeastOne_iff {accepts : Char → Bool} {s : List Char} :
    Matches (atLeastOne (.one accepts)) s ↔ s ≠ [] ∧ ∀ c ∈ s, accepts c = true := by
  rw [atLeastOne, matches_seq_iff]
  constructor
  · rintro ⟨u, v, hu, hv, rfl⟩
    obtain ⟨c, hc, rfl⟩ := matches_one_iff.mp hu
    exact ⟨List.cons_ne_nil c v, List.forall_mem_cons.mpr ⟨hc, matches_many_one_iff.mp hv⟩⟩
  · rintro ⟨hne, hall⟩
    obtain ⟨c, cs, rfl⟩ := List.exists_cons_of_ne_nil hne
    obtain ⟨hc, hcs⟩ := List.forall_mem_cons.mp hall
    exact ⟨[c], cs, .one hc, matches_many_one_iff.mpr hcs, rfl⟩

/-! ## Integers -/

theorem isBlank_of_isDigit {radix : Nat} (hradix : radix ≤ 36) {c : Char}
    (h : isDigit radix c = true) : isBlank c = false := by
  rw [Bool.eq_false_iff]
  intro hblank
  simp only [isBlank, Bool.or_eq_true, beq_iff_eq] at hblank
  have hlarge : digitValue c = 36 := by
    rcases hblank with (((rfl | rfl) | rfl) | rfl) | rfl <;> rfl
  rw [isDigit, hlarge] at h
  have := of_decide_eq_true h
  omega

theorem dropSeparators_digits {radix : Nat} {s : List Char} (hradix : radix ≤ 36)
    (h : ∀ c ∈ s, isDigit radix c = true) (before : Bool) :
    dropSeparators radix before s = some s := by
  induction s generalizing before with
  | nil => rfl
  | cons c cs ih =>
    have hc : c ≠ '_' := by
      intro heq
      subst heq
      have hdigit := of_decide_eq_true (h '_' (List.mem_cons_self ..))
      have hlarge : digitValue '_' = 36 := rfl
      omega
    rw [dropSeparators, if_neg hc, ih fun d hd => h d (List.mem_cons_of_mem c hd)]
    rfl

theorem matches_digits_iff {c : Char} {cs : List Char} :
    Pattern.Matches Rule.digits (c :: cs) ↔
      isDigit 10 c = true ∧ ∀ d ∈ cs, isDigit 10 d || d == '_' := by
  rw [← Pattern.matches_many_one_iff, Rule.digits, Pattern.matches_seq_iff]
  constructor
  · rintro ⟨u, v, hu, hv, hsplit⟩
    obtain ⟨d, hd, rfl⟩ := Pattern.matches_one_iff.mp hu
    cases hsplit
    exact ⟨hd, hv⟩
  · rintro ⟨hc, hcs⟩
    exact ⟨[c], cs, .one hc, hcs, rfl⟩

/-- What the rule of decimal integers describes is read by it, as it comes first. -/
theorem longest_digits {s : List Char} (hne : s ≠ []) (h : Pattern.Matches Rule.digits s) :
    Pattern.longest rules s = some (s.length, readDecimal) := by
  refine Pattern.longest_eq_some_iff.mpr ⟨List.length_pos_iff.mpr hne, Nat.le_refl _, ?_,
    fun m hm hle => by omega⟩
  rw [List.take_length]
  simp [rules, Pattern.first, Pattern.describes_iff.mpr h]

theorem readDecimal_toDigits (n : Nat) : readDecimal (Nat.toDigits 10 n) = intToken n := by
  have hradix : 1 < 10 ∧ 10 ≤ 16 := by decide
  have hdrop := dropSeparators_digits (by decide) (isDigit_of_mem_toDigits hradix n) false
  have hzeros : ((Nat.toDigits 10 n).head? = some '0' &&
      (Nat.toDigits 10 n).any (· ≠ '0')) = false := by
    rcases Nat.eq_zero_or_pos n with rfl | hn
    · decide
    · simp [head_toDigits hradix hn]
  simp only [readDecimal, hdrop, hzeros]
  rw [positional_toDigits hradix]
  rfl

/-- The text is one token of a rule that reads it as the integer. -/
structure Numeral (s : List Char) (n : Nat) : Prop where
  not_blank : ∀ c ∈ s.head?, isBlank c = false
  reads : ∃ read, Pattern.longest rules s = some (s.length, read) ∧ read s = intToken n

theorem numeral_decimal (n : Nat) : Numeral (Nat.toDigits 10 n) n where
  not_blank c hc := isBlank_of_isDigit (by decide)
    (isDigit_of_mem_toDigits (by decide) n c (List.mem_of_mem_head? hc))
  reads := by
    have hdigits : ∀ c ∈ Nat.toDigits 10 n, isDigit 10 c = true :=
      isDigit_of_mem_toDigits (by decide) n
    have hne : Nat.toDigits 10 n ≠ [] := Nat.toDigits_ne_nil
    refine ⟨readDecimal, longest_digits hne ?_, readDecimal_toDigits n⟩
    obtain ⟨c, cs, hsplit⟩ := List.exists_cons_of_ne_nil hne
    rw [hsplit] at hdigits ⊢
    obtain ⟨hc, hcs⟩ := List.forall_mem_cons.mp hdigits
    exact matches_digits_iff.mpr ⟨hc, fun d hd => by rw [hcs d hd, Bool.true_or]⟩

theorem lexes_numeral {s : List Char} {n : Nat} {i : Int64} (h : Numeral s n) (hi : i.toInt = n) :
    Lexes Delimited s [.int i] := by
  obtain ⟨read, hlongest, hread⟩ := h.reads
  rw [intToken_eq_ok_iff.mpr ⟨i, hi, rfl⟩] at hread
  have hquote := not_quote hlongest (by rwa [List.take_length]) (by simp)
  exact lexes_one (fun rest hrest => longest_append hlongest hquote hrest) h.not_blank hread

/-- A numeral of a number that does not fit is an error of its whole text. -/
theorem tokenizeFrom_numeral {s : List Char} {n : Nat} (h : Numeral s n) (hn : checked n = none)
    (offset : Nat) : tokenizeFrom offset s =
      .error ⟨⟨offset, offset + byteLength s⟩, .integerTooLarge⟩ := by
  obtain ⟨read, hlongest, hread⟩ := h.reads
  rw [intToken, hn] at hread
  exact (tokenizeFrom_alone hlongest h.not_blank offset).2 _ hread

theorem lexes_natural {n : Nat} {i : Int64} (h : i.toInt = n) :
    Lexes Delimited (Nat.toDigits 10 n) [.int i] :=
  lexes_numeral (numeral_decimal n) h

end Calculator
