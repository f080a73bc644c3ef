import Calculator.Proofs.Token.Longest
import Calculator.Token.Lexer

/-
  The tokens of a text, as a list.

  What is proved:
    1. `tokenizeFrom_end` — the tokens of a text are those of its lexemes, none
       of which is the end of input, and the end of input at its end.
    2. `tokenizeFrom_ordered` — a token starts where the one before it ends, or
       after that.
-/

namespace Calculator

theorem map_eq_ok_iff {ε α β : Type} {x : Except ε α} {f : α → β} {b : β} :
    x.map f = .ok b ↔ ∃ a, x = .ok a ∧ b = f a := by
  cases x with
  | error e => exact ⟨nofun, nofun⟩
  | ok a => exact ⟨fun h => ⟨a, rfl, (Except.ok.inj h).symm⟩, fun ⟨_, ha, hb⟩ => by cases ha; rw [hb]; rfl⟩

/-! ## What each rule reads -/

theorem intToken_eq_ok_iff {n : Nat} {t : Token} :
    intToken n = .ok t ↔ ∃ i : Int64, i.toInt = n ∧ t = .int i := by
  unfold intToken
  split
  · next i hi =>
    have hn := checked_eq_some_iff.mp hi
    constructor
    · intro h
      cases h
      exact ⟨i, hn, rfl⟩
    · intro h
      obtain ⟨j, hj, rfl⟩ := h
      rw [Int64.toInt_inj.mp (hn.trans hj.symm)]
  · next hnone =>
    refine ⟨nofun, fun ⟨i, hi, _⟩ => ?_⟩
    rw [checked_eq_some_iff.mpr hi] at hnone
    cases hnone

theorem readDecimal_int {s : List Char} {t : Token} (h : readDecimal s = .ok t) :
    ∃ i, t = .int i := by
  unfold readDecimal at h
  split at h
  · cases h
  · split at h
    · cases h
    · obtain ⟨i, _, rfl⟩ := intToken_eq_ok_iff.mp h
      exact ⟨i, rfl⟩

theorem readRadix_int {radix : Nat} {s : List Char} {t : Token} (h : readRadix radix s = .ok t) :
    ∃ i, t = .int i := by
  unfold readRadix at h
  split at h
  · cases h
  · obtain ⟨i, _, rfl⟩ := intToken_eq_ok_iff.mp h
    exact ⟨i, rfl⟩

theorem readFloat_float {s : List Char} {t : Token} (h : readFloat s = .ok t) :
    ∃ x, t = .float x := by
  unfold readFloat at h
  split at h
  · cases h
  · cases h
    exact ⟨_, rfl⟩

theorem readString_str {s : List Char} {t : Token} (h : readString s = .ok t) :
    ∃ u, t = .str u := by
  unfold readString at h
  obtain ⟨u, _, rfl⟩ := map_eq_ok_iff.mp h
  exact ⟨_, rfl⟩

/-- The forms that rules have. -/
inductive RuleForm : Rule → Prop where
  | decimal (p : Pattern) : RuleForm (p, readDecimal)
  | radix (p : Pattern) (radix : Nat) : RuleForm (p, readRadix radix)
  | float (p : Pattern) : RuleForm (p, readFloat)
  | string (p : Pattern) : RuleForm (p, readString)
  | bool (s : String) (b : Bool) : RuleForm (Rule.fixed s (.bool b))
  | null (s : String) : RuleForm (Rule.fixed s .null)
  | name : RuleForm Rule.name
  | comparison (s : String) : RuleForm (Rule.comparison s)
  | symbol (s : Symbol) : RuleForm (Rule.symbol s)

theorem form_of_mem {r : Rule} (h : r ∈ rules) : RuleForm r := by
  rcases List.mem_append.mp h with h | h
  · rcases List.mem_append.mp h with h | h
    · simp only [List.mem_cons, List.not_mem_nil, or_false] at h
      rcases h with rfl | rfl | rfl | rfl | rfl | rfl | rfl | rfl | rfl | rfl | rfl | rfl | rfl | rfl
      · exact .decimal _
      · exact .radix _ 16
      · exact .radix _ 8
      · exact .radix _ 2
      · exact .float _
      · exact .float _
      · exact .float _
      · exact .string _
      · exact .string _
      · exact .bool "True" true
      · exact .bool "False" false
      · exact .null "None"
      · exact .symbol .not
      · exact .name
    · obtain ⟨text, _, rfl⟩ := List.mem_map.mp h
      exact .comparison text
  · obtain ⟨symbol, _, rfl⟩ := List.mem_map.mp h
    exact .symbol symbol

/-- Every token is read as a string literal or is none, and no rule reads the
    end of input. -/
theorem reading_cases {p : Pattern} {read : Reading} (h : (p, read) ∈ rules) {s : List Char}
    {t : Token} (hr : read s = .ok t) : readString s = .ok t ∨ (∀ u, t ≠ .str u) ∧ t ≠ .eof := by
  cases form_of_mem h with
  | decimal =>
    obtain ⟨i, rfl⟩ := readDecimal_int hr
    exact .inr ⟨nofun, nofun⟩
  | radix _ radix =>
    obtain ⟨i, rfl⟩ := readRadix_int hr
    exact .inr ⟨nofun, nofun⟩
  | float =>
    obtain ⟨x, rfl⟩ := readFloat_float hr
    exact .inr ⟨nofun, nofun⟩
  | string => exact .inl hr
  | bool | null | name | comparison | symbol =>
    cases hr
    exact .inr ⟨nofun, nofun⟩

theorem reading_ne_eof {p : Pattern} {read : Reading} (h : (p, read) ∈ rules) {s : List Char}
    {t : Token} (hr : read s = .ok t) : t ≠ .eof := by
  rcases reading_cases h hr with hstring | ⟨_, hne⟩
  · obtain ⟨u, rfl⟩ := readString_str hstring
    nofun
  · exact hne

/-! ## The list of tokens -/

/-- The first token of a text that starts with no blank is its longest match. -/
theorem tokenizeFrom_first {offset : Nat} {c : Char} {cs : List Char} {l : Lexeme}
    {ls : List Lexeme} (hblank : isBlank c = false)
    (h : tokenizeFrom offset (c :: cs) = .ok (l :: ls)) :
    ∃ n read, Pattern.longest rules (c :: cs) = some (n, read) ∧
      read ((c :: cs).take n) = .ok l.token ∧
      l.span.stop = offset + byteLength ((c :: cs).take n) := by
  rw [tokenizeFrom] at h
  simp only [hblank] at h
  cases hlongest : Pattern.longest rules (c :: cs) with
  | none => simp [hlongest] at h
  | some found =>
    obtain ⟨n, read⟩ := found
    obtain ⟨m, rfl⟩ := Nat.exists_eq_add_of_lt (Pattern.longest_le hlongest).1
    simp only [hlongest, Nat.zero_add, Nat.add_sub_cancel] at h
    refine ⟨_, read, rfl, ?_⟩
    rw [Nat.zero_add, List.take_succ_cons]
    cases hread : read (c :: cs.take m) with
    | error cause => simp [hread] at h
    | ok token =>
      simp only [hread] at h
      obtain ⟨us, _, hus⟩ := map_eq_ok_iff.mp h
      obtain ⟨rfl, _⟩ := List.cons.inj hus
      exact ⟨rfl, rfl⟩

theorem tokenizeFrom_end {offset : Nat} {text : List Char} {ts : List Lexeme}
    (h : tokenizeFrom offset text = .ok ts) :
    ∃ body, ts = body ++ [⟨.eof, .point (offset + byteLength text)⟩] ∧
      ∀ l ∈ body, l.token ≠ .eof := by
  fun_induction tokenizeFrom offset text generalizing ts with
  | case1 offset =>
    cases h
    exact ⟨[], rfl, nofun⟩
  | case2 offset c cs hblank ih =>
    obtain ⟨body, rfl, hbody⟩ := ih h
    exact ⟨body, by rw [byteLength, Nat.add_assoc], hbody⟩
  | case3 offset c cs hblank hnone => cases h
  | case4 offset c cs hblank n read hl lexeme cause hr => cases h
  | case5 offset c cs hblank n read hl lexeme stop token hr =>
    rename_i ih
    obtain ⟨us, hus, rfl⟩ := map_eq_ok_iff.mp h
    obtain ⟨body, rfl, hbody⟩ := ih hus
    obtain ⟨p, hp, _⟩ := Pattern.longest_eq_some hl
    refine ⟨⟨token, ⟨offset, stop⟩⟩ :: body, ?_, ?_⟩
    · simp only [stop, lexeme, byteLength, List.cons_append, Nat.add_assoc, ← byteLength_append,
        List.take_append_drop]
    · intro l hl
      rcases List.mem_cons.mp hl with rfl | hl
      · exact reading_ne_eof hp hr
      · exact hbody l hl

theorem tokenizeFrom_ordered {offset : Nat} {text : List Char} {ts : List Lexeme}
    (h : tokenizeFrom offset text = .ok ts) :
    ts.Pairwise (fun l m => l.span.stop ≤ m.span.start) ∧
      ∀ l ∈ ts, offset ≤ l.span.start ∧ l.span.start ≤ l.span.stop := by
  fun_induction tokenizeFrom offset text generalizing ts with
  | case1 offset =>
    cases h
    simp [Span.point]
  | case2 offset c cs hblank ih =>
    obtain ⟨hpairs, hfrom⟩ := ih h
    exact ⟨hpairs, fun l hl => ⟨Nat.le_of_add_right_le (hfrom l hl).1, (hfrom l hl).2⟩⟩
  | case3 offset c cs hblank hnone => cases h
  | case4 offset c cs hblank n read hl lexeme cause hr => cases h
  | case5 offset c cs hblank n read hl lexeme stop token hr =>
    rename_i ih
    obtain ⟨us, hus, rfl⟩ := map_eq_ok_iff.mp h
    obtain ⟨hpairs, hfrom⟩ := ih hus
    have hstop : offset ≤ stop := Nat.le_add_right _ _
    refine ⟨List.pairwise_cons.mpr ⟨fun l hl => (hfrom l hl).1, hpairs⟩, ?_⟩
    intro l hl
    rcases List.mem_cons.mp hl with rfl | hl
    · exact ⟨Nat.le_refl _, hstop⟩
    · exact ⟨Nat.le_trans hstop (hfrom l hl).1, (hfrom l hl).2⟩

/-- Later tokens start later. -/
theorem start_le_of_append {offset : Nat} {text : List Char} {before after : List Lexeme}
    {l m : Lexeme} (h : tokenizeFrom offset text = .ok (before ++ l :: after)) (hm : m ∈ after) :
    l.span.start ≤ m.span.start := by
  obtain ⟨hpairs, hfrom⟩ := tokenizeFrom_ordered h
  have hlm := (List.pairwise_cons.mp (List.pairwise_append.mp hpairs).2.1).1 m hm
  exact Nat.le_trans (hfrom l (by simp)).2 hlm

end Calculator
