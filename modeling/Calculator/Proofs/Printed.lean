import Calculator.CommandLine
import Calculator.Proofs.Token.Radix
import Calculator.Proofs.Written
import Mathlib.Data.Nat.Digits.Defs

/-
  What is printed for an integer is read back. Each of its lines is a numeral,
  after a sign if it is negative: as a text it is an integer token, or a minus
  and one. The least integer has no opposite that fits, so none of its lines
  is read.

  What is proved:
    1. `lines_printed` — there is a line for each base.
    2. `calculate_signed`, `calculate_least` — a numeral with its sign has the number
       as its value, and the numeral of the least integer is too large.
    3. `calculate_printed` — the same of every line that is printed.
-/

namespace Calculator

open Grammar

/-! ## The lines -/

theorem of_mem_bases {mark : String} {radix : Nat} (h : (mark, radix) ∈ bases) :
    (1 < radix ∧ radix ≤ 16) ∧ mark.toList.length ≤ 2 ∧ '\n' ∉ mark.toList := by
  have hall : ∀ b ∈ bases, (1 < b.2 ∧ b.2 ≤ 16) ∧ b.1.toList.length ≤ 2 ∧ '\n' ∉ b.1.toList := by
    decide
  exact hall (mark, radix) h

theorem toList_inRadix (mark : String) (radix : Nat) (n : Int) :
    (inRadix mark radix n).toList =
      (if n < 0 then ['-'] else []) ++ (mark.toList ++ Nat.toDigits radix n.natAbs) := by
  unfold inRadix
  split
  · simp
  · simp

theorem newline_not_mem_inRadix {mark : String} {radix : Nat} (h : (mark, radix) ∈ bases)
    (n : Int) : '\n' ∉ (inRadix mark radix n).toList := by
  obtain ⟨hradix, _, hmark⟩ := of_mem_bases h
  have hdigits : '\n' ∉ Nat.toDigits radix n.natAbs := by
    intro hmem
    have hblank := isBlank_of_isDigit (by omega) (isDigit_of_mem_toDigits hradix _ _ hmem)
    cases hblank
  rw [toList_inRadix]
  split
  · simp [hmark, hdigits]
  · simp [hmark, hdigits]

theorem lines_printed {v : Value} {n : Int64} (h : v.integral? = some n) :
    (printed v).toList.splitOn '\n' = bases.map fun b => (inRadix b.1 b.2 n.toInt).toList := by
  have hprinted : (printed v).toList =
      ['\n'].intercalate (bases.map fun b => (inRadix b.1 b.2 n.toInt).toList) := by
    rw [printed, h]
    exact String.toList_intercalate
  rw [hprinted]
  refine List.splitOn_intercalate '\n' ?_ (List.cons_ne_nil _ _)
  intro line hline
  obtain ⟨⟨mark, radix⟩, hbase, rfl⟩ := List.mem_map.mp hline
  exact newline_not_mem_inRadix hbase n.toInt

theorem numeral_of_mem_bases {mark : String} {radix : Nat} (h : (mark, radix) ∈ bases) (n : Nat) :
    Numeral (mark.toList ++ Nat.toDigits radix n) n := by
  simp only [bases, List.mem_cons, Prod.mk.injEq, List.not_mem_nil, or_false] at h
  rcases h with ⟨rfl, rfl⟩ | ⟨rfl, rfl⟩ | ⟨rfl, rfl⟩ | ⟨rfl, rfl⟩
  · exact numeral_decimal n
  · exact numeral_radix (.hexadecimal (.inl rfl)) n
  · exact numeral_radix (.octal (.inl rfl)) n
  · exact numeral_radix (.binary (.inl rfl)) n

/-! ## Their length -/

theorem byteLength_inRadix {mark : String} {radix : Nat} (h : (mark, radix) ∈ bases) (n : Int64) :
    byteLength (inRadix mark radix n.toInt).toList ≤ 4096 := by
  obtain ⟨hradix, hmark, _⟩ := of_mem_bases h
  have hsmall : n.toInt.natAbs < 2 ^ 64 := by
    have hlow := Int64.minValue_le_toInt n
    have hhigh := Int64.toInt_le n
    rw [Int64.toInt_minValue] at hlow
    rw [Int64.toInt_maxValue] at hhigh
    omega
  have hdigits : (Nat.toDigits radix n.toInt.natAbs).length ≤ 64 := by
    rw [Nat.length_toDigits_le_iff hradix.1 (by decide)]
    exact Nat.lt_of_lt_of_le hsmall (Nat.pow_le_pow_left hradix.1 64)
  have hsign : (if n.toInt < 0 then ['-'] else []).length ≤ 1 := by
    split
    · exact Nat.le_refl 1
    · exact Nat.zero_le 1
  have hbytes := byteLength_le (inRadix mark radix n.toInt).toList
  rw [toList_inRadix, List.length_append, List.length_append] at hbytes
  rw [toList_inRadix]
  omega

/-! ## Reading a line back -/

/-- A numeral with a sign before it, if it stands for a negative number. -/
theorem calculate_signed {s : List Char} {n : Int64} (hs : Numeral s n.toInt.natAbs)
    (hn : n ≠ Int64.minValue)
    (hlen : byteLength ((if n.toInt < 0 then ['-'] else []) ++ s) ≤ 4096) :
    calculate {} (String.ofList ((if n.toInt < 0 then ['-'] else []) ++ s)) = .ok (.int n) := by
  obtain ⟨i, hi⟩ := exists_natAbs hn
  have hlex := lexes_numeral hs hi
  rw [calculate_eq_ok_iff]
  by_cases hneg : n.toInt < 0
  · rw [if_pos hneg] at hlen ⊢
    have hsigned := lexes_append lexes_minus hlex fun _ _ => trivial
    exact ⟨_, ofText_of_lexes hsigned (derives_negative (.int i)) (by decide) hlen,
      evaluate_opposite (by omega)⟩
  · rw [if_neg hneg] at hlen ⊢
    have hsame : i = n := Int64.toInt_inj.mp (by omega)
    exact ⟨_, ofText_of_lexes hlex (derives_of_atom (.int i)) (by decide) hlen,
      congrArg (fun i => Except.ok (Value.int i)) hsame⟩

/-- The opposite of the least integer does not fit, so no numeral of it is read. -/
theorem calculate_least {s : List Char} {limits : Limits}
    (hs : Numeral s Int64.minValue.toInt.natAbs)
    (hlen : byteLength ('-' :: s) ≤ limits.maxInputLen) :
    calculate limits (String.ofList ('-' :: s)) =
      .error (.lex ⟨⟨1, 1 + byteLength s⟩, .integerTooLarge⟩) := by
  have hlarge : checked Int64.minValue.toInt.natAbs = none := by decide
  have htokens : tokenize (String.ofList ('-' :: s)) =
      .error ⟨⟨1, 1 + byteLength s⟩, .integerTooLarge⟩ := by
    obtain ⟨ls, _, hminus⟩ := lexes_minus 0 s trivial
    rw [tokenize, String.toList_ofList]
    exact hminus.trans (by rw [tokenizeFrom_numeral hs hlarge]; rfl)
  have hshort : ¬ limits.maxInputLen < (String.ofList ('-' :: s)).utf8ByteSize := by
    rw [← byteLength_toList, String.toList_ofList]
    omega
  simp only [calculate, Expr.ofText, if_neg hshort, htokens]

/-- Each line that is printed for an integer has that integer as its value, except
    for the least one, whose lines are all too large to be read. -/
theorem calculate_printed {v : Value} {n : Int64} (h : v.integral? = some n) :
    (printed v).toList.splitOn '\n' =
      bases.map (fun b => (inRadix b.1 b.2 n.toInt).toList) ∧
    ∀ line ∈ (printed v).toList.splitOn '\n',
      (n ≠ Int64.minValue → calculate {} (String.ofList line) = .ok (.int n)) ∧
      (n = Int64.minValue → ∃ e, calculate {} (String.ofList line) = .error (.lex e) ∧
        e.cause.message = "integer literal does not fit in 64 bits") := by
  have hlines := lines_printed h
  refine ⟨hlines, fun line hline => ?_⟩
  rw [hlines] at hline
  obtain ⟨⟨mark, radix⟩, hbase, rfl⟩ := List.mem_map.mp hline
  have hnumeral := numeral_of_mem_bases hbase n.toInt.natAbs
  have hlen := byteLength_inRadix hbase n
  rw [toList_inRadix] at hlen ⊢
  constructor
  · intro hn
    exact calculate_signed hnumeral hn hlen
  · rintro rfl
    have hneg : Int64.minValue.toInt < 0 := by decide
    rw [if_pos hneg] at hlen ⊢
    exact ⟨_, calculate_least hnumeral hlen, rfl⟩

/-- A line for the number -16, written as a float, and one for the least integer. -/
theorem calculate_printed_negative :
    (Value.float (.ofInt (-16))).integral? = some (-16) ∧
      calculate {} "-0x10" = .ok (.int (-16)) ∧
      ∃ e, calculate {} "-0x8000000000000000" = .error (.lex e) ∧
        e.cause.message = "integer literal does not fit in 64 bits" := by
  have hsixteen : (Value.float (.ofInt (-16))).integral? = some (-16) := by decide +kernel
  obtain ⟨hlines, hread⟩ := calculate_printed hsixteen
  obtain ⟨hleast, hrefused⟩ :=
    calculate_printed (show (Value.int Int64.minValue).integral? = some Int64.minValue from rfl)
  rw [hlines] at hread
  rw [hleast] at hrefused
  have hline : "-0x10".toList ∈ bases.map fun b => (inRadix b.1 b.2 (-16)).toList := by decide
  have hleastLine : "-0x8000000000000000".toList ∈
      bases.map fun b => (inRadix b.1 b.2 Int64.minValue.toInt).toList := by decide
  exact ⟨hsixteen, (hread _ hline).1 (by decide), (hrefused _ hleastLine).2 rfl⟩

end Calculator
