import Calculator.Proofs.Token.Escape

/-
  String literals piece by piece. What stands between the quotes is a list of pieces, each
  a character that stands for itself or an escape. The pattern that finds the closing
  quote and the reader of escapes both end where the pieces end, and what the literal
  denotes is what its pieces denote, one after the other.

  What is proved:
    1. `inside_pieces` — pieces may stand between the quotes.
    2. `unescape_piece`, `unescape_bad` — the first piece of a text is read as what it
       denotes, or its escape is refused.
    3. `tokenize_pieces` — the token or the error of a literal.
-/

namespace Calculator

/-! ## Pieces -/

/-- The escapes of a single character after the backslash, and what they denote. -/
def characterEscapes : List (Char × Char) :=
  [('\\', '\\'), ('\'', '\''), ('"', '"'), ('n', '\n'), ('r', '\r'), ('t', '\t'), ('a', '\x07'),
    ('b', '\x08'), ('f', '\x0c'), ('v', '\x0b')]

/-- The marks of hexadecimal escapes, and how many digits each has. -/
def hexEscapes : List (Char × Nat) := [('x', 2), ('u', 4), ('U', 8)]

inductive Piece where
  /-- A character that stands for itself. -/
  | plain (c : Char)
  | escaped (mark c : Char)
  | octal (digits : List Char)
  | hexadecimal (mark : Char) (width : Nat) (digits : List Char)
  /-- A backslash before a line end, which denotes nothing. -/
  | lineEnd
  /-- A backslash that starts no escape, and the character after it. -/
  | kept (c : Char)

namespace Piece

def text : Piece → List Char
  | plain c => [c]
  | escaped mark _ => ['\\', mark]
  | octal digits => '\\' :: digits
  | hexadecimal mark _ digits => '\\' :: mark :: digits
  | lineEnd => ['\\', '\n']
  | kept c => ['\\', c]

/-- What a piece denotes, unless it is bad. -/
def meaning : Piece → List Char
  | plain c => [c]
  | escaped _ c => [c]
  | octal digits => [Char.ofNat (placeValue 8 digits)]
  | hexadecimal _ _ digits => [Char.ofNat (placeValue 16 digits)]
  | lineEnd => []
  | kept c => ['\\', c]

/-- A hexadecimal escape with too few digits, or one of a surrogate or of a code above
    all characters. -/
def Bad : Piece → Prop
  | hexadecimal _ width digits => digits.length < width ∨
      0xD800 ≤ placeValue 16 digits ∧ placeValue 16 digits ≤ 0xDFFF ∨
      0x10FFFF < placeValue 16 digits
  | _ => False

end Piece

/-- Digits up to a number of them, and no further one after fewer. -/
structure DigitRun (radix width : Nat) (digits next : List Char) : Prop where
  all_digits : ∀ c ∈ digits, isDigit radix c = true
  length_le : digits.length ≤ width
  maximal : digits.length < width → ∀ c ∈ next.head?, isDigit radix c = false

theorem digitRun_iff {radix width : Nat} {digits next : List Char} :
    DigitRun radix width digits next ↔ digits.all (isDigit radix) = true ∧
      digits.length ≤ width ∧
      (digits.length < width → next.head?.all (!isDigit radix ·) = true) := by
  simp only [List.all_eq_true, Option.all_eq_true, Bool.not_eq_true']
  exact ⟨fun h => ⟨h.all_digits, h.length_le, h.maximal⟩, fun h => ⟨h.1, h.2.1, h.2.2⟩⟩

instance (radix width : Nat) (digits next : List Char) :
    Decidable (DigitRun radix width digits next) :=
  decidable_of_iff _ digitRun_iff.symm

/-- The piece may stand between two quotes, with this text after it. -/
def Piece.Fits (quote : Char) (next : List Char) : Piece → Prop
  | plain c => c ≠ quote ∧ c ≠ '\\' ∧ c ≠ '\n'
  | escaped mark c => (mark, c) ∈ characterEscapes
  | octal digits => digits ≠ [] ∧ DigitRun 8 3 digits next
  | hexadecimal mark width digits => (mark, width) ∈ hexEscapes ∧ DigitRun 16 width digits next
  | lineEnd => True
  | kept c => c ≠ '\n' ∧ isDigit 8 c = false ∧ c ∉ characterEscapes.map (·.1) ∧
      c ∉ hexEscapes.map (·.1)

/-- The text of pieces. -/
def textOf (ps : List Piece) : List Char := ps.flatMap Piece.text

/-- Pieces that may stand between two quotes in their order. -/
inductive Fitting (quote : Char) : List Piece → Prop where
  | nil : Fitting quote []
  | cons {p : Piece} {ps : List Piece} :
    p.Fits quote (textOf ps) → Fitting quote ps → Fitting quote (p :: ps)

/-! ## Between the quotes -/

theorem isDigit_mono {radix radix' : Nat} (h : radix ≤ radix') {c : Char}
    (hc : isDigit radix c = true) : isDigit radix' c = true :=
  decide_eq_true (Nat.lt_of_lt_of_le (of_decide_eq_true hc) h)

theorem inside_piece {quote : Char} (hq : IsQuote quote) {p : Piece} {next : List Char}
    (h : p.Fits quote next) : Inside quote p.text := by
  cases p with
  | plain c =>
    obtain ⟨hquote, hslash, hnewline⟩ := h
    exact .plain hquote hslash hnewline .nil
  | escaped mark c => exact .escape mark .nil
  | octal digits =>
    obtain ⟨hne, hrun⟩ := h
    obtain ⟨d, more, rfl⟩ := List.exists_cons_of_ne_nil hne
    refine .escape d (inside_digits hq fun c hc => ?_)
    exact isDigit_mono (by decide) (hrun.all_digits c (List.mem_cons_of_mem d hc))
  | hexadecimal mark width digits => exact .escape mark (inside_digits hq h.2.all_digits)
  | lineEnd => exact .escape '\n' .nil
  | kept c => exact .escape c .nil

theorem inside_pieces {quote : Char} (hq : IsQuote quote) {ps : List Piece}
    (h : Fitting quote ps) : Inside quote (textOf ps) := by
  -- the text between quotes may be cut at the end of any piece
  induction h with
  | nil => exact .nil
  | cons hp _ ih => exact inside_append (inside_piece hq hp) ih

/-! ## Reading a piece -/

theorem takeWhile_of_run {radix width : Nat} {digits next : List Char}
    (h : DigitRun radix width digits next) :
    ((digits ++ next).take width).takeWhile (isDigit radix) = digits := by
  have hsplit : (digits ++ next).take width = digits ++ next.take (width - digits.length) := by
    rw [List.take_append, List.take_of_length_le h.length_le]
  rw [hsplit, List.takeWhile_append_of_pos h.all_digits]
  have hnone : (next.take (width - digits.length)).takeWhile (isDigit radix) = [] := by
    rcases Nat.eq_zero_or_pos (width - digits.length) with hzero | hpos
    · rw [hzero]
      rfl
    · obtain ⟨k, hk⟩ := Nat.exists_eq_add_of_lt hpos
      cases next with
      | nil => rw [List.take_nil, List.takeWhile_nil]
      | cons c cs =>
        have hc := h.maximal (by omega) c rfl
        rw [hk, Nat.zero_add, List.take_succ_cons, List.takeWhile_cons_of_neg (by simp [hc])]
  rw [hnone, List.append_nil]

theorem readEscape_escaped {mark c : Char} (h : (mark, c) ∈ characterEscapes) (rest : List Char) :
    readEscape mark rest = .ok ([c], 0) := by
  simp only [characterEscapes, List.mem_cons, Prod.mk.injEq, List.not_mem_nil, or_false] at h
  rcases h with ⟨rfl, rfl⟩ | ⟨rfl, rfl⟩ | ⟨rfl, rfl⟩ | ⟨rfl, rfl⟩ | ⟨rfl, rfl⟩ | ⟨rfl, rfl⟩ |
    ⟨rfl, rfl⟩ | ⟨rfl, rfl⟩ | ⟨rfl, rfl⟩ | ⟨rfl, rfl⟩ <;> rfl

theorem readEscape_hexadecimal {mark : Char} {width : Nat} (h : (mark, width) ∈ hexEscapes)
    (rest : List Char) : readEscape mark rest = readHex mark width rest := by
  simp only [hexEscapes, List.mem_cons, Prod.mk.injEq, List.not_mem_nil, or_false] at h
  rcases h with ⟨rfl, rfl⟩ | ⟨rfl, rfl⟩ | ⟨rfl, rfl⟩ <;> rfl

/-- A character that is the mark of no escape starts an octal escape or none. -/
theorem readEscape_other {mark : Char} (hnewline : mark ≠ '\n')
    (hcharacter : mark ∉ characterEscapes.map (·.1)) (hhex : mark ∉ hexEscapes.map (·.1))
    (rest : List Char) : readEscape mark rest =
      if isDigit 8 mark then
        let more := (rest.take 2).takeWhile (isDigit 8)
        .ok ([Char.ofNat (positional 8 (mark :: more))], more.length)
      else .ok (['\\', mark], 0) := by
  simp only [characterEscapes, List.map_cons, List.map_nil, List.mem_cons, List.not_mem_nil,
    or_false, not_or] at hcharacter
  simp only [hexEscapes, List.map_cons, List.map_nil, List.mem_cons, List.not_mem_nil, or_false,
    not_or] at hhex
  unfold readEscape
  split <;> simp_all

theorem marks_not_octal {mark : Char}
    (h : mark ∈ characterEscapes.map (·.1) ++ hexEscapes.map (·.1)) : isDigit 8 mark = false := by
  have hall : (characterEscapes.map (·.1) ++ hexEscapes.map (·.1)).all (!isDigit 8 ·) = true := by
    decide
  simpa only [Bool.not_eq_true'] using List.all_eq_true.mp hall mark h

theorem readEscape_octal {d : Char} {more next : List Char} (h : DigitRun 8 3 (d :: more) next) :
    readEscape d (more ++ next) = .ok ([Char.ofNat (placeValue 8 (d :: more))], more.length) := by
  have hd : isDigit 8 d = true := h.all_digits d (List.mem_cons_self ..)
  have hmark (hmem : d ∈ characterEscapes.map (·.1) ++ hexEscapes.map (·.1)) : False := by
    rw [marks_not_octal hmem] at hd
    cases hd
  have hnewline : d ≠ '\n' := by
    rintro rfl
    cases hd
  have hrun : DigitRun 8 2 more next :=
    ⟨fun c hc => h.all_digits c (List.mem_cons_of_mem d hc), Nat.le_of_succ_le_succ h.length_le,
      fun hlt => h.maximal (Nat.succ_lt_succ hlt)⟩
  rw [readEscape_other hnewline (fun hmem => hmark (List.mem_append_left _ hmem))
    (fun hmem => hmark (List.mem_append_right _ hmem)), if_pos hd]
  simp only [takeWhile_of_run hrun, positional_eq_placeValue]

theorem charOfCode?_eq_some {code : Nat}
    (h : ¬ (0xD800 ≤ code ∧ code ≤ 0xDFFF ∨ 0x10FFFF < code)) :
    charOfCode? code = some (Char.ofNat code) := by
  have hvalid : code.isValidChar := by
    unfold Nat.isValidChar
    omega
  rw [charOfCode?, if_pos hvalid]

theorem charOfCode?_eq_none {code : Nat}
    (h : 0xD800 ≤ code ∧ code ≤ 0xDFFF ∨ 0x10FFFF < code) : charOfCode? code = none := by
  have hvalid : ¬ code.isValidChar := by
    unfold Nat.isValidChar
    omega
  rw [charOfCode?, if_neg hvalid]

theorem unescape_piece {quote : Char} {p : Piece} {next : List Char} (h : p.Fits quote next)
    (hgood : ¬ p.Bad) : unescape (p.text ++ next) = (unescape next).map (p.meaning ++ ·) := by
  cases p with
  | plain c => exact unescape_plain h.2.1 next
  | escaped mark c => exact unescape_escape (readEscape_escaped h next)
  | octal digits =>
    obtain ⟨hne, hrun⟩ := h
    obtain ⟨d, more, rfl⟩ := List.exists_cons_of_ne_nil hne
    have hread := unescape_escape (readEscape_octal hrun)
    rwa [List.drop_left] at hread
  | hexadecimal mark width digits =>
    obtain ⟨hmark, hrun⟩ := h
    obtain ⟨hlong, hcode⟩ := not_or.mp hgood
    have hlength : digits.length = width := Nat.le_antisymm hrun.length_le (Nat.not_lt.mp hlong)
    have hhex : readEscape mark (digits ++ next) =
        .ok ([Char.ofNat (placeValue 16 digits)], width) := by
      simp only [readEscape_hexadecimal hmark, readHex, takeWhile_of_run hrun, if_pos hlength,
        positional_eq_placeValue, charOfCode?_eq_some hcode]
    have hread := unescape_escape hhex
    rwa [List.drop_left' hlength] at hread
  | lineEnd =>
    have hread : readEscape '\n' next = .ok ([], 0) := rfl
    exact unescape_escape hread
  | kept c =>
    obtain ⟨hnewline, hoctal, hcharacter, hhex⟩ := h
    have hread : readEscape c next = .ok (['\\', c], 0) := by
      rw [readEscape_other hnewline hcharacter hhex, hoctal]
      rfl
    exact unescape_escape hread

theorem unescape_bad {quote : Char} {p : Piece} {next : List Char} (h : p.Fits quote next)
    (hbad : p.Bad) : unescape (p.text ++ next) = .error (.invalidEscape p.text) := by
  cases p with
  | hexadecimal mark width digits =>
    obtain ⟨hmark, hrun⟩ := h
    have hhex : readEscape mark (digits ++ next) =
        .error (.invalidEscape ('\\' :: mark :: digits)) := by
      simp only [readEscape_hexadecimal hmark, readHex, takeWhile_of_run hrun,
        positional_eq_placeValue]
      rcases hbad with hshort | hcode
      · rw [if_neg (Nat.ne_of_lt hshort)]
      · rw [charOfCode?_eq_none hcode, ite_self]
    rw [Piece.text, List.cons_append, List.cons_append, unescape, hhex]
  | _ => exact absurd hbad not_false

theorem unescape_pieces {quote : Char} {ps : List Piece} (h : Fitting quote ps)
    (hgood : ∀ p ∈ ps, ¬ p.Bad) : unescape (textOf ps) = .ok (ps.flatMap Piece.meaning) := by
  induction h with
  | nil =>
    rw [textOf, List.flatMap_nil, unescape]
    rfl
  | @cons p ps hp _ ih =>
    obtain ⟨hfirst, hrest⟩ := List.forall_mem_cons.mp hgood
    have hread := unescape_piece hp hfirst
    rw [ih hrest] at hread
    exact hread

theorem unescape_first_bad {quote : Char} {before after : List Piece} {bad : Piece}
    (h : Fitting quote (before ++ bad :: after)) (hgood : ∀ p ∈ before, ¬ p.Bad)
    (hbad : bad.Bad) :
    unescape (textOf (before ++ bad :: after)) = .error (.invalidEscape bad.text) := by
  induction before with
  | nil =>
    cases h with
    | cons hp _ => exact unescape_bad hp hbad
  | cons p ps ih =>
    obtain ⟨hfirst, hrest⟩ := List.forall_mem_cons.mp hgood
    rw [List.cons_append] at h ⊢
    cases h with
    | cons hp htail =>
      have hread := unescape_piece hp hfirst
      rw [ih htail hrest] at hread
      exact hread

/-! ## Whole literals -/

/-- The literal with these pieces between two quotes. -/
def literalOf (quote : Char) (ps : List Piece) : String :=
  String.ofList (quote :: textOf ps ++ [quote])

/-- A literal denotes what its pieces denote, and the first bad escape among them is an
    error at all of the literal. -/
theorem tokenize_pieces {quote : Char} (hq : IsQuote quote) {ps : List Piece}
    (h : Fitting quote ps) :
    ((∀ p ∈ ps, ¬ p.Bad) → tokenize (literalOf quote ps) =
      .ok (onlyToken (.str (String.ofList (ps.flatMap Piece.meaning)))
        ⟨0, (literalOf quote ps).utf8ByteSize⟩)) ∧
    ∀ before bad after, ps = before ++ bad :: after → (∀ p ∈ before, ¬ p.Bad) → bad.Bad →
      ∃ e, tokenize (literalOf quote ps) = .error e ∧
        e.span = ⟨0, (literalOf quote ps).utf8ByteSize⟩ ∧
        e.cause.message = s!"invalid escape sequence `{String.ofList bad.text}`" := by
  have hlongest := longest_string hq (inside_pieces hq h) []
  rw [List.append_nil] at hlongest
  have hblank : ∀ c ∈ (quote :: textOf ps ++ [quote]).head?, isBlank c = false := by
    intro c hc
    cases hc
    exact isBlank_of_isQuote hq
  obtain ⟨hok, herror⟩ := tokenizeFrom_alone hlongest hblank 0
  rw [readString_quoted, Nat.zero_add] at hok herror
  rw [tokenize, ← byteLength_toList, literalOf, String.toList_ofList]
  constructor
  · intro hgood
    rw [unescape_pieces h hgood] at hok
    exact hok _ rfl
  · rintro before bad after rfl hgood hbad
    rw [unescape_first_bad h hgood hbad] at herror
    exact ⟨_, herror _ rfl, rfl, rfl⟩

/-- An octal escape before a digit that it does not take, a character of four bytes and
    a backslash that stands for itself. -/
def mixedPieces : List Piece :=
  [.plain 'é', .octal ['1'], .plain '8', .hexadecimal 'U' 8 "0001F600".toList, .kept 'q',
    .plain '\'']

/-- A surrogate, before an escape that has no digits. -/
def refusedPieces : List Piece :=
  [.plain 'a', .hexadecimal 'u' 4 "d800".toList, .hexadecimal 'x' 2 []]

theorem tokenize_pieces_mixed :
    tokenize "\"é\\18\\U0001F600\\q'\"" = .ok (onlyToken (.str "é\x018😀\\q'") ⟨0, 20⟩) ∧
      ∃ e, tokenize "'a\\ud800\\x'" = .error e ∧ e.span = ⟨0, 11⟩ ∧
        e.cause.message = "invalid escape sequence `\\ud800`" := by
  have hmixed : Fitting '"' mixedPieces :=
    .cons ⟨by decide, by decide, by decide⟩ <|
    .cons ⟨by decide, by decide⟩ <|
    .cons ⟨by decide, by decide, by decide⟩ <|
    .cons ⟨by decide, by decide⟩ <|
    .cons ⟨by decide, by decide, by decide, by decide⟩ <|
    .cons ⟨by decide, by decide, by decide⟩ .nil
  have hrefused : Fitting '\'' refusedPieces :=
    .cons ⟨by decide, by decide, by decide⟩ <|
    .cons ⟨by decide, by decide⟩ <|
    .cons ⟨by decide, by decide⟩ .nil
  have hface : placeValue 16 ['0', '0', '0', '1', 'F', '6', '0', '0'] = 0x1F600 := by
    rw [← positional_eq_placeValue]
    decide
  have hsurrogate : placeValue 16 "d800".toList = 0xD800 := by
    rw [← positional_eq_placeValue]
    decide
  constructor
  · refine ((tokenize_pieces (.inr rfl) hmixed).1 ?_).trans rfl
    simp [mixedPieces, Piece.Bad, hface]
  · refine (tokenize_pieces (.inl rfl) hrefused).2 [.plain 'a'] _ _ rfl ?_ (.inr (.inl ?_))
    · simp [Piece.Bad]
    · rw [hsurrogate]
      decide

end Calculator
