import Calculator.Proofs.Grammar.Failure

/-
  The bracket that an error records. The tokens of every phrase are `Balanced`: brackets
  of the three kinds come in pairs, side by side or one in the other. An error
  records the bracket before contents that are a phrase, so it is the last one that
  is still open there.

  What is proved:
    1. `derives_balanced` — the tokens of a phrase are balanced.
    2. `lexemeAt_of_takeWhile` — where the readers stop in the tokens before the end
       of input is a place of the whole list.
    3. `parse_error_opened` — the recorded bracket, the place of the error and what
       is between them.
-/

namespace Calculator.Grammar

/-! ## Balanced tokens -/

def isBracket : Token → Bool
  | .symbol (.opening _) | .symbol (.closing _) => true
  | _ => false

/-- Every bracket has its partner, and what is between the two is balanced. -/
inductive Balanced : List Token → Prop where
  | nil : Balanced []
  | other {t : Token} {ts : List Token} :
    isBracket t = false → Balanced ts → Balanced (t :: ts)
  | pair (b : Bracket) {ts us : List Token} :
    Balanced ts → Balanced us →
    Balanced (.symbol (.opening b) :: ts ++ .symbol (.closing b) :: us)

theorem balanced_append {ts us : List Token} (hts : Balanced ts) (hus : Balanced us) :
    Balanced (ts ++ us) := by
  induction hts with
  | nil => exact hus
  | other ht _ ih => exact .other ht ih
  | pair b hinner _ _ ih =>
    have hall := Balanced.pair b hinner ih
    simpa using hall

theorem balanced_bracketed (b : Bracket) {ts : List Token} (h : Balanced ts) :
    Balanced (.symbol (.opening b) :: ts ++ [.symbol (.closing b)]) :=
  .pair b h .nil

theorem balanced_strings (ss : List String) : Balanced (ss.map .str) := by
  induction ss with
  | nil => exact .nil
  | cons s ss ih => exact .other rfl ih

theorem isBracket_of_joins {level : Nat} {s : Symbol} {op : BinaryOp} (h : Joins level s op) :
    isBracket (.symbol s) = false := by
  cases h <;> rfl

theorem isBracket_of_signs {s : Symbol} {op : UnaryOp} (h : Signs s op) :
    isBracket (.symbol s) = false := by
  cases h <;> rfl

theorem derives_balanced {p : Phrase} {ts : List Token} {x : p.Tree} {n : Nat}
    (h : Derives p ts x n) : Balanced ts := by
  induction h with
  | lone _ ih | operand _ ih | tighter _ ih | unjoined _ ih | unsigned _ ih | base _ ih
  | item _ ih | last _ ih => exact ih
  | not _ ih | spreadElements _ ih | spreadEntries _ ih => exact .other rfl ih
  | signed hs _ ih => exact .other (isBracket_of_signs hs) ih
  | bareTuple _ _ ih ih' | raised _ _ ih ih' | pair _ _ ih ih' | more _ _ ih ih' =>
    exact balanced_append ih (.other rfl ih')
  | join _ hs _ ih ih' => exact balanced_append ih (.other (isBracket_of_joins hs) ih')
  | int _ | float _ | bool _ | null => exact .other rfl .nil
  | strings s ss => exact balanced_strings (s :: ss)
  | emptyTuple => exact balanced_bracketed .round .nil
  | round _ ih | square _ ih | set _ ih | dict _ ih => exact balanced_bracketed _ ih
  | none => exact .nil

/-! ## Places in a list of tokens -/

/-- The token at an index, and after the last one the end of input. -/
def lexemeAt (ts : List Lexeme) (index : Nat) : Lexeme :=
  (ts[index]?).getD ⟨.eof, impliedEnd ts⟩

theorem lexemeAt_append (used : List Lexeme) (l : Lexeme) (more : List Lexeme) :
    lexemeAt (used ++ l :: more) used.length = l := by
  simp [lexemeAt]

/-- The next token, for a reader that has read some of those before the end of input,
    is the one at that place of the whole list. -/
theorem lexemeAt_of_takeWhile {ts used rest : List Lexeme} {maxDepth : Nat}
    (h : ts.takeWhile (·.token ≠ .eof) = used ++ rest) :
    lexemeAt ts used.length = Input.next ⟨maxDepth, endOf ts⟩ rest := by
  rcases end_cases ts with hts | ⟨front, endSpan, after, rfl, hfront⟩
  · have hall : ts = used ++ rest := by rw [← h, takeWhile_no_end hts]
    rw [endOf_eq_impliedEnd hts]
    cases rest with
    | nil => simp [lexemeAt, hall, Input.next]
    | cons l rest => rw [hall, lexemeAt_append, Input.next]
  · rw [takeWhile_end hfront] at h
    rw [endOf_end hfront, h]
    cases rest with
    | nil => rw [List.append_nil, lexemeAt_append, Input.next]
    | cons l rest => rw [List.append_assoc, List.cons_append, lexemeAt_append, Input.next]

/-! ## The recorded bracket -/

/-- An error that records a bracket has it at an earlier place. What is between the two
    is balanced, and the token of the error does not close the bracket. -/
theorem parse_error_opened {ts : List Lexeme} {maxDepth : Nat} {e : SyntaxError} {opened : Span}
    (h : parse ts maxDepth = .error e) (ho : e.opened = some opened) :
    ∃ i j b, i < j ∧ j ≤ ts.length ∧ ts[i]? = some ⟨.symbol (.opening b), opened⟩ ∧
      e.span = (lexemeAt ts j).span ∧ Balanced (tokens ((ts.take j).drop (i + 1))) ∧
      (lexemeAt ts j).token ≠ .symbol (.closing b) := by
  obtain ⟨used, rest, hts, _, hspan, hopened⟩ := parse_error h
  obtain ⟨before, b, p, inside, x, n, hused, _, hx, hclosing⟩ := hopened opened ho
  -- what was read is the start of the whole list, so its length is the place of the error
  have hprefix : used <+: ts :=
    (List.prefix_append used rest).trans (hts ▸ List.takeWhile_prefix _)
  have htake : ts.take used.length = used := (List.prefix_iff_eq_take.mp hprefix).symm
  have hlength : before.length < used.length := by simp [hused]
  have hbracket : ts[before.length]? = some ⟨.symbol (.opening b), opened⟩ := by
    rw [← List.getElem?_take_of_lt hlength, htake, hused]
    simp
  have hinside : (ts.take used.length).drop (before.length + 1) = inside := by
    rw [htake, hused]
    simp
  refine ⟨before.length, used.length, b, hlength, hprefix.length_le, hbracket, ?_, ?_, ?_⟩
  · rw [lexemeAt_of_takeWhile hts, hspan]
  · rw [hinside]
    exact derives_balanced hx
  · rwa [lexemeAt_of_takeWhile hts]

/-- The tokens of `[(1, {2: 3}]`, with no end of input: the brace is closed, and the
    parenthesis before it is not. -/
def mismatchedTokens : List Lexeme :=
  [⟨.symbol (.opening .square), ⟨0, 1⟩⟩, ⟨.symbol (.opening .round), ⟨1, 2⟩⟩, ⟨.int 1, ⟨2, 3⟩⟩,
    ⟨.symbol .comma, ⟨3, 4⟩⟩, ⟨.symbol (.opening .curly), ⟨5, 6⟩⟩, ⟨.int 2, ⟨6, 7⟩⟩,
    ⟨.symbol .colon, ⟨7, 8⟩⟩, ⟨.int 3, ⟨9, 10⟩⟩, ⟨.symbol (.closing .curly), ⟨10, 11⟩⟩,
    ⟨.symbol (.closing .square), ⟨11, 12⟩⟩]

theorem parse_error_opened_mismatched :
    ∃ i j b, i < j ∧ j ≤ mismatchedTokens.length ∧
      mismatchedTokens[i]? = some ⟨.symbol (.opening b), ⟨1, 2⟩⟩ ∧
      ⟨11, 12⟩ = (lexemeAt mismatchedTokens j).span ∧
      Balanced (tokens ((mismatchedTokens.take j).drop (i + 1))) ∧
      (lexemeAt mismatchedTokens j).token ≠ .symbol (.closing b) := by
  have h : parse mismatchedTokens 5 =
      .error ⟨⟨11, 12⟩, .expectedClosing .round 1 (.symbol (.closing .square)), some ⟨1, 2⟩⟩ :=
    failure?_eq_some_iff.mp (by decide +kernel)
  exact parse_error_opened h rfl

end Calculator.Grammar
