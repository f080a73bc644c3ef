import Calculator.Proofs.Token.Radix

/-
  Integer literals, well written or not. A text that has the shape of one is read as a
  whole by the rule of its base, which drops the underscores and finds what the digits
  denote. It is an integer if the underscores stand between digits, no zero stands
  first that should not, and the number fits.

  What is proved:
    1. `dropSeparators_of_separated`, `dropSeparators_of_not_separated` — underscores
       are dropped if each of them separates digits, and not otherwise.
    2. `readDecimal_eq`, `readRadix_eq` — what the rules read.
    3. `tokenize_integer` — the token or the error of a text with the shape of an
       integer literal.
-/

namespace Calculator

/-! ## Underscores -/

/-- Each underscore stands between two digits; if a mark stands before the text, one
    may also stand between the mark and a digit. -/
def Separated (radix : Nat) (marked : Bool) (body : List Char) : Prop :=
  ∀ left right, body = left ++ '_' :: right →
    ((left = [] ∧ marked = true) ∨ ∃ c ∈ left.getLast?, isDigit radix c = true) ∧
      ∃ c ∈ right.head?, isDigit radix c = true

theorem separated_cons {radix : Nat} {marked : Bool} {c : Char} {cs : List Char} :
    Separated radix marked (c :: cs) ↔
      (c = '_' → marked = true ∧ ∃ d ∈ cs.head?, isDigit radix d = true) ∧
        Separated radix (isDigit radix c) cs := by
  constructor
  · intro h
    constructor
    · rintro rfl
      obtain ⟨⟨_, hmarked⟩ | ⟨d, hd, _⟩, hnext⟩ := h [] cs rfl
      · exact ⟨hmarked, hnext⟩
      · cases hd
    · rintro left right rfl
      obtain ⟨⟨hnil, _⟩ | ⟨d, hd, hdigit⟩, hnext⟩ := h (c :: left) right rfl
      · cases hnil
      · refine ⟨?_, hnext⟩
        cases left with
        | nil =>
          cases hd
          exact .inl ⟨rfl, hdigit⟩
        | cons x xs => exact .inr ⟨d, by rwa [List.getLast?_cons_cons] at hd, hdigit⟩
  · rintro ⟨hfirst, hrest⟩ left right hsplit
    cases left with
    | nil =>
      obtain ⟨rfl, rfl⟩ := List.cons.inj hsplit
      obtain ⟨hmarked, hnext⟩ := hfirst rfl
      exact ⟨.inl ⟨rfl, hmarked⟩, hnext⟩
    | cons x xs =>
      obtain ⟨rfl, rfl⟩ := List.cons.inj hsplit
      obtain ⟨hbefore, hnext⟩ := hrest xs right rfl
      refine ⟨.inr ?_, hnext⟩
      rcases hbefore with ⟨rfl, hdigit⟩ | ⟨d, hd, hdigit⟩
      · exact ⟨c, rfl, hdigit⟩
      · refine ⟨d, ?_, hdigit⟩
        cases xs with
        | nil => cases hd
        | cons y ys => rwa [List.getLast?_cons_cons]

/-- The digits of a literal, without the underscores between them. -/
def digitsOf (body : List Char) : List Char := body.filter (· ≠ '_')

theorem digitsOf_cons {c : Char} (h : c ≠ '_') (cs : List Char) :
    digitsOf (c :: cs) = c :: digitsOf cs := by
  simp [digitsOf, h]

theorem isDigit_underscore {radix : Nat} (hradix : radix ≤ 36) : isDigit radix '_' = false :=
  decide_eq_false (Nat.not_lt.mpr hradix)

theorem dropSeparators_of_separated {radix : Nat} (hradix : radix ≤ 36) {marked : Bool}
    {body : List Char} (h : Separated radix marked body) :
    dropSeparators radix marked body = some (digitsOf body) := by
  induction body generalizing marked with
  | nil => rfl
  | cons c cs ih =>
    obtain ⟨hfirst, hrest⟩ := separated_cons.mp h
    rw [dropSeparators]
    by_cases hc : c = '_'
    · subst hc
      rw [isDigit_underscore hradix] at hrest
      obtain ⟨hmarked, d, hd, hdigit⟩ := hfirst rfl
      have hnext : cs.head?.any (isDigit radix) = true := by simp [Option.mem_def.mp hd, hdigit]
      rw [if_pos rfl, hmarked, hnext, Bool.and_self, if_pos rfl, ih hrest]
      simp [digitsOf]
    · rw [if_neg hc, ih hrest, digitsOf_cons hc]
      rfl

theorem dropSeparators_of_not_separated {radix : Nat} (hradix : radix ≤ 36) {marked : Bool}
    {body : List Char} (h : ¬ Separated radix marked body) :
    dropSeparators radix marked body = none := by
  induction body generalizing marked with
  | nil => exact absurd (fun left right hsplit => by simp at hsplit) h
  | cons c cs ih =>
    rw [separated_cons, not_and_or] at h
    rw [dropSeparators]
    by_cases hc : c = '_'
    · subst hc
      rw [isDigit_underscore hradix] at h
      rw [if_pos rfl]
      split
      · next hboth =>
        rw [Bool.and_eq_true, Option.any_eq_true] at hboth
        obtain ⟨hmarked, d, hd, hdigit⟩ := hboth
        exact ih (h.resolve_left (not_not.mpr fun _ => ⟨hmarked, d, hd, hdigit⟩))
      · rfl
    · rw [if_neg hc, ih (h.resolve_left (not_not.mpr fun heq => absurd heq hc))]
      rfl

/-! ## What the rules read -/

/-- The shape of an integer literal: whether a mark says its base, the base, and the
    digits and underscores, of which a decimal one starts with a digit. -/
inductive IntegerShape : (text : List Char) → (marked : Bool) → (radix : Nat) →
    (body : List Char) → Prop where
  | decimal {c : Char} {cs : List Char} :
    isDigit 10 c = true → (∀ d ∈ cs, isDigit 10 d || d == '_') →
    IntegerShape (c :: cs) false 10 (c :: cs)
  | marked {mark : Char} {radix : Nat} {body : List Char} :
    Marks mark radix → body ≠ [] → (∀ d ∈ body, isDigit radix d || d == '_') →
    IntegerShape ('0' :: mark :: body) true radix body

/-- Underscores separate digits, and a decimal literal that starts with a zero has no
    other digits. -/
structure WellWritten (marked : Bool) (radix : Nat) (body : List Char) : Prop where
  separated : Separated radix marked body
  zeros : marked = false → body.head? = some '0' → ∀ c ∈ digitsOf body, c = '0'

theorem digit_ne_underscore {c : Char} (h : isDigit 10 c = true) : c ≠ '_' := by
  rintro rfl
  cases h

/-- Only zeros stand after a zero, or the literal does not start with one. -/
theorem noLeadingZero_iff {c : Char} (hc : c ≠ '_') (cs : List Char) :
    ((digitsOf (c :: cs)).head? = some '0' && (digitsOf (c :: cs)).any (· ≠ '0')) = false ↔
      ((c :: cs).head? = some '0' → ∀ d ∈ digitsOf (c :: cs), d = '0') := by
  rw [digitsOf_cons hc, Bool.and_eq_false_imp, decide_eq_true_iff]
  simp

theorem readDecimal_eq {c : Char} (hc : isDigit 10 c = true) (cs : List Char) :
    (WellWritten false 10 (c :: cs) →
      readDecimal (c :: cs) = intToken (placeValue 10 (digitsOf (c :: cs)))) ∧
      (¬ WellWritten false 10 (c :: cs) → readDecimal (c :: cs) = .error .invalidNumber) := by
  have hzeros := noLeadingZero_iff (digit_ne_underscore hc) cs
  unfold readDecimal
  constructor
  · intro h
    rw [dropSeparators_of_separated (by decide) h.separated]
    simp only [hzeros.mpr (h.zeros rfl), positional_eq_placeValue, Bool.false_eq_true, if_false]
  · intro h
    by_cases hseparated : Separated 10 false (c :: cs)
    · rw [dropSeparators_of_separated (by decide) hseparated]
      have hleading := mt hzeros.mp fun hall => h ⟨hseparated, fun _ => hall⟩
      simp only [Bool.not_eq_false] at hleading
      simp only [hleading, if_true]
    · rw [dropSeparators_of_not_separated (by decide) hseparated]

theorem readRadix_eq {radix : Nat} (hradix : radix ≤ 36) (first mark : Char) (body : List Char) :
    (WellWritten true radix body →
      readRadix radix (first :: mark :: body) = intToken (placeValue radix (digitsOf body))) ∧
      (¬ WellWritten true radix body →
        readRadix radix (first :: mark :: body) = .error .invalidNumber) := by
  unfold readRadix
  rw [List.drop_succ_cons, List.drop_succ_cons, List.drop_zero]
  constructor
  · intro h
    rw [dropSeparators_of_separated hradix h.separated]
    simp only [positional_eq_placeValue]
  · intro h
    rw [dropSeparators_of_not_separated hradix fun hseparated => h ⟨hseparated, nofun⟩]

/-- A text with the shape of an integer literal is described as a whole, and what is
    read of it hangs on whether it is well written. -/
theorem reading_of_shape {text body : List Char} {marked : Bool} {radix : Nat}
    (h : IntegerShape text marked radix body) :
    ∃ read, Pattern.longest rules text = some (text.length, read) ∧
      (WellWritten marked radix body → read text = intToken (placeValue radix (digitsOf body))) ∧
      (¬ WellWritten marked radix body → read text = .error .invalidNumber) := by
  cases h with
  | decimal hc hcs =>
    exact ⟨readDecimal, longest_digits (List.cons_ne_nil _ _) (matches_digits_iff.mpr ⟨hc, hcs⟩),
      readDecimal_eq hc _⟩
  | marked hmark hne hbody =>
    exact ⟨readRadix radix, longest_radix hmark hne hbody,
      readRadix_eq (Nat.le_trans (radix_of_marks hmark).2 (by decide)) '0' _ body⟩

theorem not_blank_of_shape {text body : List Char} {marked : Bool} {radix : Nat}
    (h : IntegerShape text marked radix body) : ∀ c ∈ text.head?, isBlank c = false := by
  intro c hfirst
  cases h with
  | decimal hc _ =>
    cases hfirst
    exact isBlank_of_isDigit (by decide) hc
  | marked _ _ _ =>
    cases hfirst
    rfl

/-! ## Whole texts -/

theorem intToken_cases (n : Nat) :
    (n ≤ 2 ^ 63 - 1 ∧ ∃ i : Int64, i.toInt = n ∧ intToken n = .ok (.int i)) ∨
      (2 ^ 63 - 1 < n ∧ intToken n = .error .integerTooLarge) := by
  cases h : checked n with
  | some i =>
    have hi := checked_eq_some_iff.mp h
    have hle := Int64.toInt_le i
    rw [Int64.toInt_maxValue, hi] at hle
    exact .inl ⟨by omega, i, hi, by rw [intToken, h]⟩
  | none =>
    have hlarge := checked_eq_none_iff.mp h
    rw [Int64.toInt_minValue, Int64.toInt_maxValue] at hlarge
    exact .inr ⟨by omega, by rw [intToken, h]⟩

/-- Of a text with the shape of an integer literal there are three sorts. -/
theorem tokenize_shape_cases {text : String} {marked : Bool} {radix : Nat} {body : List Char}
    (h : IntegerShape text.toList marked radix body) :
    (WellWritten marked radix body ∧ placeValue radix (digitsOf body) ≤ 2 ^ 63 - 1 ∧
      ∃ i : Int64, i.toInt = placeValue radix (digitsOf body) ∧
        tokenize text = .ok (onlyToken (.int i) ⟨0, text.utf8ByteSize⟩)) ∨
    (WellWritten marked radix body ∧ 2 ^ 63 - 1 < placeValue radix (digitsOf body) ∧
      tokenize text = .error ⟨⟨0, text.utf8ByteSize⟩, .integerTooLarge⟩) ∨
    (¬ WellWritten marked radix body ∧
      tokenize text = .error ⟨⟨0, text.utf8ByteSize⟩, .invalidNumber⟩) := by
  obtain ⟨read, hlongest, hwell, hill⟩ := reading_of_shape h
  obtain ⟨hok, herror⟩ := tokenizeFrom_alone hlongest (not_blank_of_shape h) 0
  rw [Nat.zero_add, byteLength_toList] at hok herror
  by_cases hwritten : WellWritten marked radix body
  · rw [hwell hwritten] at hok herror
    rcases intToken_cases (placeValue radix (digitsOf body)) with
      ⟨hfits, i, hi, htoken⟩ | ⟨hlarge, htoken⟩
    · exact .inl ⟨hwritten, hfits, i, hi, hok _ htoken⟩
    · exact .inr (.inl ⟨hwritten, hlarge, herror _ htoken⟩)
  · exact .inr (.inr ⟨hwritten, herror _ (hill hwritten)⟩)

/-- A text with the shape of an integer literal is the integer that its digits denote if
    it is well written and the number fits. Otherwise it is an error at all of it, for
    its form if that is wrong, and for its size if only that is. -/
theorem tokenize_integer {text : String} {marked : Bool} {radix : Nat} {body : List Char}
    (h : IntegerShape text.toList marked radix body) :
    (∀ i, tokenize text = .ok (onlyToken (.int i) ⟨0, text.utf8ByteSize⟩) ↔
      WellWritten marked radix body ∧ placeValue radix (digitsOf body) ≤ 2 ^ 63 - 1 ∧
        i.toInt = placeValue radix (digitsOf body)) ∧
    (WellWritten marked radix body → placeValue radix (digitsOf body) ≤ 2 ^ 63 - 1 →
      ∃ i, tokenize text = .ok (onlyToken (.int i) ⟨0, text.utf8ByteSize⟩)) ∧
    (¬ WellWritten marked radix body → ∃ e, tokenize text = .error e ∧
      e.span = ⟨0, text.utf8ByteSize⟩ ∧ e.cause.message = "invalid numeric literal") ∧
    (WellWritten marked radix body → 2 ^ 63 - 1 < placeValue radix (digitsOf body) →
      ∃ e, tokenize text = .error e ∧ e.span = ⟨0, text.utf8ByteSize⟩ ∧
        e.cause.message = "integer literal does not fit in 64 bits") := by
  rcases tokenize_shape_cases h with
    ⟨hwritten, hfits, n, hn, htokens⟩ | ⟨hwritten, hlarge, htokens⟩ | ⟨hwritten, htokens⟩
  · refine ⟨fun i => ?_, fun _ _ => ⟨n, htokens⟩, fun hnot => absurd hwritten hnot,
      fun _ hlarge => absurd hlarge (Nat.not_lt.mpr hfits)⟩
    rw [htokens, ← hn]
    constructor
    · intro heq
      cases heq
      exact ⟨hwritten, hfits, rfl⟩
    · rintro ⟨_, _, hi⟩
      rw [Int64.toInt_inj.mp hi]
  · have hnot : ¬ placeValue radix (digitsOf body) ≤ 2 ^ 63 - 1 := Nat.not_le.mpr hlarge
    refine ⟨fun i => ?_, fun _ hfits => absurd hfits hnot, fun hill => absurd hwritten hill,
      fun _ _ => ⟨_, htokens, rfl, rfl⟩⟩
    rw [htokens]
    exact ⟨nofun, fun hall => absurd hall.2.1 hnot⟩
  · refine ⟨fun i => ?_, fun hwell => absurd hwell hwritten, fun _ => ⟨_, htokens, rfl, rfl⟩,
      fun hwell => absurd hwell hwritten⟩
    rw [htokens]
    exact ⟨nofun, fun hall => absurd hall.1 hwritten⟩

/-- The largest integer in octal digits, the number after it, and a digit after a zero. -/
theorem tokenize_integer_octal :
    tokenize "0O_777_777777777777777777" =
        .ok (onlyToken (.int 9223372036854775807) ⟨0, 25⟩) ∧
      (∃ e, tokenize "0o1_000000000000000000000" = .error e ∧ e.span = ⟨0, 25⟩ ∧
        e.cause.message = "integer literal does not fit in 64 bits") ∧
      ∃ e, tokenize "0_1" = .error e ∧ e.span = ⟨0, 3⟩ ∧
        e.cause.message = "invalid numeric literal" := by
  have octal {body : List Char} (h : (dropSeparators 8 true body).isSome = true) :
      WellWritten true 8 body := by
    refine ⟨?_, nofun⟩
    by_contra hnot
    rw [dropSeparators_of_not_separated (by decide) hnot] at h
    cases h
  have hlargest : IntegerShape "0O_777_777777777777777777".toList true 8
      "_777_777777777777777777".toList :=
    .marked (.octal (.inr rfl)) (by decide) (List.all_eq_true.mp rfl)
  have hnext : IntegerShape "0o1_000000000000000000000".toList true 8
      "1_000000000000000000000".toList :=
    .marked (.octal (.inl rfl)) (by decide) (List.all_eq_true.mp rfl)
  have hzero : IntegerShape "0_1".toList false 10 "0_1".toList :=
    .decimal rfl (List.all_eq_true.mp rfl)
  refine ⟨((tokenize_integer hlargest).1 _).mpr ⟨octal (by decide), ?_, ?_⟩,
    (tokenize_integer hnext).2.2.2 (octal (by decide)) ?_, (tokenize_integer hzero).2.2.1 ?_⟩
  · rw [← positional_eq_placeValue]
    decide
  · rw [← positional_eq_placeValue]
    decide
  · rw [← positional_eq_placeValue]
    decide
  · intro h
    exact absurd (h.zeros rfl rfl '1' (by decide)) (by decide)

end Calculator
