import Calculator.Limits
import Calculator.Proofs.Grammar.Failure
import Calculator.Proofs.Token.Lexer

/-
  What the language leaves out. Names, comparisons and the dot are tokens of no
  expression, and neither is an opening bracket directly after an operand,
  which would make a call or a subscript. A list of tokens is `Clean` if it has
  none of them, and every derivation and every beginning of one is clean. An
  error is at the token after a beginning, so it is not after the first token
  that is forbidden.

  What is proved: `forbidden_rejected` — a text with such a token is rejected
  by the parser, at that token or before it.
-/

namespace Calculator

/-- The tokens that may end an operand: literals and closing brackets. -/
def endsOperand : Token → Bool
  | .int _ | .float _ | .str _ | .bool _ | .null | .symbol (.closing _) => true
  | _ => false

/-- The tokens that no expression has, given the token directly before. -/
def forbidden (before : Option Token) : Token → Bool
  | .name _ | .comparison _ | .symbol .dot => true
  | .symbol (.opening _) => before.any endsOperand
  | _ => false

namespace Grammar

/-- None of the tokens is forbidden where it stands. -/
def Clean : (before : Option Token) → List Token → Prop
  | _, [] => True
  | before, t :: ts => forbidden before t = false ∧ Clean (some t) ts

/-- A token that is forbidden nowhere and ends no operand separates two clean
    lists. -/
theorem clean_append {before : Option Token} {ts us : List Token} {t : Token}
    (ht : ∀ b, forbidden b t = false) (hts : Clean before ts) (hus : Clean (some t) us) :
    Clean before (ts ++ t :: us) := by
  induction ts generalizing before with
  | nil => exact ⟨ht before, hus⟩
  | cons u ts ih => exact ⟨hts.1, ih hts.2⟩

/-- No token of a clean list is forbidden after those before it. -/
theorem not_forbidden_of_clean {before : Option Token} {ts us : List Token} {t : Token}
    (h : Clean before (ts ++ t :: us)) : forbidden (ts.getLast?.or before) t = false := by
  induction ts generalizing before with
  | nil => exact h.1
  | cons u ts ih =>
    have hts := ih h.2
    rw [List.getLast?_cons]
    cases hlast : ts.getLast? with
    | none => rwa [hlast] at hts
    | some v => rwa [hlast] at hts

theorem joins_allowed {level : Nat} {s : Symbol} {op : BinaryOp} (h : Joins level s op)
    (before : Option Token) : forbidden before (.symbol s) = false := by
  cases h <;> rfl

theorem literals_clean {before : Option Token} (s : String) (ss : List String) :
    Clean before ((s :: ss).map .str) := by
  induction ss generalizing before s with
  | nil => exact ⟨rfl, trivial⟩
  | cons t ss ih => exact ⟨rfl, ih t⟩

theorem derives_clean {p : Phrase} {ts : List Token} {x : p.Tree} {n : Nat}
    (h : Derives p ts x n) {before : Option Token} (hb : before.any endsOperand = false) :
    Clean before ts := by
  induction h generalizing before with
  | lone _ ih | operand _ ih | tighter _ ih | unjoined _ ih | unsigned _ ih | base _ ih
  | item _ ih | last _ ih => exact ih hb
  | bareTuple _ _ ih ih' | raised _ _ ih ih' | pair _ _ ih ih' | more _ _ ih ih' =>
    exact clean_append (fun _ => rfl) (ih hb) (ih' rfl)
  | join _ hj _ ih ih' => exact clean_append (joins_allowed hj) (ih hb) (ih' (by cases hj <;> rfl))
  | not _ ih | spreadElements _ ih | spreadEntries _ ih => exact ⟨rfl, ih rfl⟩
  | signed hs _ ih => cases hs <;> exact ⟨rfl, ih rfl⟩
  | int _ | float _ | bool _ | null => exact ⟨rfl, trivial⟩
  | strings s ss => exact literals_clean s ss
  | emptyTuple => exact ⟨hb, rfl, trivial⟩
  | round _ ih | square _ ih | set _ ih | dict _ ih =>
    exact ⟨hb, clean_append (fun _ => rfl) (ih rfl) trivial⟩
  | none => trivial

theorem begins_clean {p : Phrase} {ts : List Token} (h : Begins p ts) {before : Option Token}
    (hb : before.any endsOperand = false) : Clean before ts := by
  induction h generalizing before with
  | start _ => trivial
  | first _ ih | operand _ ih | left _ ih | unjoined _ ih | unsigned _ ih | base _ ih | item _ ih
  | key _ ih | last _ ih => exact ih hb
  | rest hx _ ih | exponent hx _ ih | value hx _ ih | more hx _ ih =>
    exact clean_append (fun _ => rfl) (derives_clean hx hb) (ih rfl)
  | right hl hj _ ih =>
    exact clean_append (joins_allowed hj) (derives_clean hl hb) (ih (by cases hj <;> rfl))
  | not _ ih | spreadElements _ ih | spreadEntries _ ih => exact ⟨rfl, ih rfl⟩
  | signed hs _ ih => cases hs <;> exact ⟨rfl, ih rfl⟩
  | opened _ _ ih => exact ⟨hb, ih rfl⟩
  | unclosed _ hx => exact ⟨hb, derives_clean hx rfl⟩
  | keyed hx => exact derives_clean hx hb

end Grammar

open Grammar

/-- The token before a place in the text, if there is one. -/
def tokenBefore (before : List Lexeme) : Option Token := before.getLast?.map (·.token)

theorem not_forbidden {before after : List Lexeme} {l : Lexeme}
    (h : Clean none (tokens (before ++ l :: after))) :
    forbidden (tokenBefore before) l.token = false := by
  rw [tokens_append, tokens_cons] at h
  simpa [tokens, tokenBefore] using not_forbidden_of_clean h

/-- A front part of a list holds an element at a place, or stops at that element
    or before it. -/
theorem holds_or_stops {α : Type} {used rest before after : List α} {l : α}
    (h : before ++ l :: after = used ++ rest) :
    (∃ more, used = before ++ l :: more) ∨ ∃ m more, rest = m :: more ∧ (m = l ∨ m ∈ before) := by
  rcases List.append_eq_append_iff.mp h with ⟨mid, hused, hrest⟩ | ⟨mid, hbefore, hrest⟩
  · cases mid with
    | nil => exact .inr ⟨l, after, hrest.symm, .inl rfl⟩
    | cons m mid =>
      obtain ⟨rfl, _⟩ := List.cons.inj hrest
      exact .inl ⟨mid, hused⟩
  · cases mid with
    | nil => exact .inr ⟨l, after, hrest, .inl rfl⟩
    | cons m mid => exact .inr ⟨m, _, hrest, .inr (by simp [hbefore])⟩

/-- An error of the parser is not after a token that is forbidden. -/
theorem parse_forbidden (maxDepth : Nat) {ts : List Lexeme} {before after : List Lexeme}
    {l : Lexeme} (hts : ts.takeWhile (·.token ≠ .eof) = before ++ l :: after)
    (hl : forbidden (tokenBefore before) l.token = true) :
    ∃ e, parse ts maxDepth = .error e ∧
      (e.span = l.span ∨ ∃ m ∈ before, e.span = m.span) := by
  cases hparse : parse ts maxDepth with
  | ok x =>
    obtain ⟨n, _, hx⟩ := parse_eq_ok_iff.mp hparse
    rw [hts] at hx
    simp [not_forbidden (derives_clean hx rfl)] at hl
  | error e =>
    refine ⟨e, rfl, ?_⟩
    obtain ⟨used, rest, hused, hbegins, hspan, _⟩ := parse_error hparse
    have hclean : Clean none (tokens used) := by
      rcases hbegins with hbegins | ⟨x, n, hx⟩
      · exact begins_clean hbegins rfl
      · exact derives_clean hx rfl
    rw [hts] at hused
    rcases holds_or_stops hused with ⟨more, rfl⟩ | ⟨m, more, rfl, hm⟩
    · simp [not_forbidden hclean] at hl
    · have hspan : e.span = m.span := hspan
      rcases hm with rfl | hm
      · exact .inl hspan
      · exact .inr ⟨m, hm, hspan⟩

/-- A text with a token that no expression has is rejected by the parser, at
    the first such token or before it. -/
theorem forbidden_rejected {limits : Limits} {text : String} {before after : List Lexeme}
    {l : Lexeme} (hlen : text.utf8ByteSize ≤ limits.maxInputLen)
    (hlex : tokenize text = .ok (before ++ l :: after))
    (hl : forbidden (tokenBefore before) l.token = true) :
    ∃ e, calculate limits text = .error (.parse e) ∧ e.span.start ≤ l.span.start := by
  obtain ⟨body, hbody, hne⟩ := tokenizeFrom_end hlex
  -- the forbidden token is not the end of input
  have hbefore : ∃ more, body = before ++ l :: more := by
    rcases List.eq_nil_or_concat after with rfl | ⟨more, last, rfl⟩
    · obtain ⟨rfl, hlast⟩ := List.append_inj' hbody rfl
      cases hlast
      cases hl
    · rw [List.concat_eq_append, ← List.cons_append, ← List.append_assoc] at hbody
      obtain ⟨rfl, _⟩ := List.append_inj' hbody rfl
      exact ⟨more, rfl⟩
  obtain ⟨more, hmore⟩ := hbefore
  have htokens : (before ++ l :: after).takeWhile (·.token ≠ .eof) = before ++ l :: more := by
    rw [hbody, takeWhile_end hne, hmore]
  obtain ⟨e, hparse, hspan⟩ := parse_forbidden limits.maxDepth htokens hl
  refine ⟨e, ?_, ?_⟩
  · simp [calculate, Expr.ofText, Nat.not_lt.mpr hlen, hlex, hparse]
  · rcases hspan with hspan | ⟨m, hm, hspan⟩
    · exact Nat.le_of_eq (congrArg Span.start hspan)
    · rw [hspan]
      obtain ⟨earlier, later, rfl⟩ := List.append_of_mem hm
      rw [List.append_assoc, List.cons_append] at hlex
      exact start_le_of_append hlex (by simp)

/-- `[1, 2(3)]` holds a call. -/
theorem call_rejected :
    ∃ e, calculate {} "[1, 2(3)]" = .error (.parse e) ∧ e.span.start ≤ 5 := by
  have hlexemes : (tokenize "[1, 2(3)]").toOption =
      some ([⟨.symbol (.opening .square), ⟨0, 1⟩⟩, ⟨.int 1, ⟨1, 2⟩⟩, ⟨.symbol .comma, ⟨2, 3⟩⟩,
        ⟨.int 2, ⟨4, 5⟩⟩] ++ ⟨.symbol (.opening .round), ⟨5, 6⟩⟩ :: [⟨.int 3, ⟨6, 7⟩⟩,
        ⟨.symbol (.closing .round), ⟨7, 8⟩⟩, ⟨.symbol (.closing .square), ⟨8, 9⟩⟩,
        ⟨.eof, ⟨9, 9⟩⟩]) := by
    decide +kernel
  cases hlex : tokenize "[1, 2(3)]" with
  | error e =>
    rw [hlex] at hlexemes
    cases hlexemes
  | ok ts =>
    rw [hlex] at hlexemes
    cases hlexemes
    exact forbidden_rejected (by decide) hlex (by decide)

end Calculator
