import Calculator.Limits
import Calculator.Proofs.Diagnostic.Snippet
import Calculator.Proofs.Grammar.Viable
import Calculator.Proofs.Token.Tiling
import Calculator.Rejection.Diagnostic

/-
  Rejections point into the text. The span of an error is that of a piece of the text:
  of a token, of what could not be read as one, or of the end. A recorded bracket is
  before it. So both are found in the text, and the diagnostic marks them there.

  What is proved:
    1. `covers_of_noToken`, `covers_of_symbol` — the spans of errors and tokens.
    2. `covers_of_lexError`, `covers_of_syntaxError` — the lexer's errors and the parser's,
       with the brackets that those record.
    3. `render_rejection` — a diagnostic shows the line of its error and that of the
       bracket.
    4. `calculate_rejection` — all of it, of the rejections of a text.
-/

namespace Calculator

/-! ## Pieces of a text -/

/-- The span is that of a piece of the text. -/
def Span.Covers (span : Span) (text piece : List Char) : Prop :=
  ∃ before after, text = before ++ piece ++ after ∧
    span = ⟨byteLength before, byteLength (before ++ piece)⟩

theorem Span.Covers.within {span : Span} {text piece : List Char} (h : span.Covers text piece) :
    span.start ≤ span.stop ∧ span.stop ≤ byteLength text := by
  obtain ⟨before, after, rfl, rfl⟩ := h
  simp only [byteLength_append]
  omega

theorem Span.Covers.stop_eq {span : Span} {text piece : List Char} (h : span.Covers text piece) :
    span.stop = span.start + byteLength piece := by
  obtain ⟨before, after, rfl, rfl⟩ := h
  exact byteLength_append before piece

/-! ## Errors of the lexer -/

theorem covers_of_noToken {used rest : List Char} {e : LexError}
    (h : NoToken (byteLength used) e rest) : ∃ piece, e.span.Covers (used ++ rest) piece := by
  cases h with
  | @undescribed c cs _ he =>
    rw [he, noToken]
    split
    · exact ⟨c :: cs, used, [], by simp, by rw [byteLength_append]⟩
    · exact ⟨[c], used, cs, by simp, by rw [byteLength_concat]⟩
  | @unreadable text rest read _ _ hspan =>
    exact ⟨text, used, rest, by simp, by rw [hspan, byteLength_append]⟩

theorem covers_of_lexError {text : String} {e : LexError} (h : tokenize text = .error e) :
    ∃ piece, e.span.Covers text.toList piece := by
  have hzero : byteLength [] = 0 := rfl
  rw [tokenize, ← hzero] at h
  obtain ⟨used, rest, ls, hsplit, _, _, hnone⟩ := passes_of_error h
  rw [hsplit]
  exact covers_of_noToken hnone

/-! ## Errors of the parser -/

/-- What is read as a symbol is the symbol's own text. -/
theorem text_of_symbol {p : Pattern} {read : Reading} (h : (p, read) ∈ rules) {text : List Char}
    (hmatch : p.Matches text) {s : Symbol} (hr : read text = .ok (.symbol s)) :
    text = s.text.toList := by
  cases form_of_mem h with
  | decimal =>
    obtain ⟨i, hi⟩ := readDecimal_int hr
    cases hi
  | radix _ radix =>
    obtain ⟨i, hi⟩ := readRadix_int hr
    cases hi
  | float =>
    obtain ⟨x, hx⟩ := readFloat_float hr
    cases hx
  | string =>
    obtain ⟨u, hu⟩ := readString_str hr
    cases hu
  | bool | null | name | comparison => cases hr
  | symbol s =>
    cases hr
    exact Pattern.matches_text_iff.mp hmatch

theorem covers_of_stands {l : Lexeme} {source : List Char} (h : l.Stands source) :
    ∃ piece, l.span.Covers source piece := by
  obtain ⟨before, text, rest, read, hsource, hspan, _, _, _⟩ := h
  exact ⟨text, before, rest, hsource, hspan⟩

theorem covers_of_symbol {s : Symbol} {span : Span} {source : List Char}
    (h : Lexeme.Stands ⟨.symbol s, span⟩ source) : span.Covers source s.text.toList := by
  obtain ⟨before, text, rest, read, hsource, hspan, hmatch, hread, _⟩ := h
  obtain ⟨p, hrule, hp⟩ := rule_of_longestMatch hmatch
  rw [← text_of_symbol hrule hp hread]
  exact ⟨before, rest, hsource, hspan⟩

theorem tiles_of_ok {text : String} {ts : List Lexeme} (h : tokenize text = .ok ts) :
    ∃ ls, ts = ls ++ [⟨.eof, .point (byteLength text.toList)⟩] ∧ (∀ l ∈ ls, l.token ≠ .eof) ∧
      Tiles text.toList ls 0 (byteLength text.toList) := by
  have hzero : byteLength [] = 0 := rfl
  rw [tokenize, ← hzero] at h
  obtain ⟨ls, rfl, hpasses⟩ := passes_of_ok h
  have htiles := tiles_of_passes hpasses
  rw [List.nil_append, List.append_nil] at htiles
  refine ⟨ls, rfl, fun l hl => ?_, htiles⟩
  obtain ⟨_, _, _, _, _, _, _, _, hspells⟩ := htiles.stands l hl
  exact hspells.not_end

/-- The next token starts after all tokens before it, and so does the end. -/
theorem stop_le_next {source : List Char} {used rest : List Lexeme} {depth : Nat}
    (h : Tiles source (used ++ rest) 0 (byteLength source)) {l : Lexeme} (hl : l ∈ used) :
    l.span.stop ≤
      (Grammar.Input.next ⟨depth, .point (byteLength source)⟩ rest).span.start := by
  cases rest with
  | nil => exact (h.within l (List.mem_append_left _ hl)).2.2
  | cons next rest =>
    exact (List.pairwise_append.mp h.ordered).2.2 l hl next (List.mem_cons_self ..)

theorem covers_of_next {source : List Char} {used rest : List Lexeme} {depth : Nat}
    (h : Tiles source (used ++ rest) 0 (byteLength source)) :
    ∃ piece, (Grammar.Input.next ⟨depth, .point (byteLength source)⟩ rest).span.Covers source
      piece := by
  cases rest with
  | nil => exact ⟨[], source, [], by simp, by rw [List.append_nil]; rfl⟩
  | cons next rest => exact covers_of_stands (h.stands next (by simp))

/-- An error is at a token or at the end, and the bracket it records is a token before. -/
theorem covers_of_syntaxError {text : String} {ts : List Lexeme} {depth : Nat} {e : SyntaxError}
    (htokens : tokenize text = .ok ts) (h : parse ts depth = .error e) :
    (∃ piece, e.span.Covers text.toList piece) ∧
      ∀ opened ∈ e.opened, opened.stop ≤ e.span.start ∧
        ∃ b, opened.Covers text.toList (Symbol.opening b).text.toList := by
  obtain ⟨ls, rfl, hne, htiles⟩ := tiles_of_ok htokens
  obtain ⟨used, rest, hls, _, hspan, hopened⟩ := Grammar.parse_error h
  rw [Grammar.takeWhile_end hne] at hls
  rw [Grammar.endOf_end hne] at hspan
  rw [hls] at htiles
  rw [hspan]
  refine ⟨covers_of_next htiles, fun opened ho => ?_⟩
  obtain ⟨before, b, _, inside, _, _, hused, _, _, _⟩ := hopened opened ho
  have hmem : ⟨.symbol (.opening b), opened⟩ ∈ used := by simp [hused]
  have hstands := htiles.stands _ (List.mem_append_left rest hmem)
  exact ⟨stop_le_next htiles hmem, b, covers_of_symbol hstands⟩

/-! ## Diagnostics -/

/-- The bracket that a rejection records. -/
def Rejection.opened? : Rejection → Option Span
  | .parse e => e.opened
  | _ => none

/-- The snippet for an error at a span: its line with the marks under it, and with
    those of the recorded bracket, which has its own line if that is an earlier one. -/
def errorSnippet (text : List Char) (span : Span) (opened : Option Span) : String :=
  let here := locate text span.start
  let gutter := (toString here.number).length
  let marks := here.marked gutter '^' (span.width text) ""
  let rows :=
    match opened with
    | none => here.shown gutter ++ marks
    | some o =>
      let there := locate text o.start
      let opener := there.marked gutter '-' (o.width text) " opened here"
      if there.number = here.number then here.shown gutter ++ marks ++ opener
      else there.shown gutter ++ opener ++ (here.shown gutter ++ marks)
  Diagnostic.bare gutter ++ rows ++ Diagnostic.bare gutter

/-- The last row of a diagnostic. -/
def helpRow : Option String → String
  | some help => s!"  = help: {help}\n"
  | none => ""

theorem locate_number_mono {offset offset' : Nat} (h : offset ≤ offset') (text : List Char) :
    (locate text offset).number ≤ (locate text offset').number :=
  Nat.succ_le_succ ((upTo_mono h text).sublist.count_le '\n')

theorem render_eq {d : Diagnostic} (hsource : d.source ≠ "") (hlabels : d.labels ≠ [])
    (hnotes : d.notes = []) :
    d.render = s!"error: {d.message}\n" ++ d.snippet ++ helpRow d.help := by
  have hshown : (d.source.isEmpty || d.labels.isEmpty) = false := by simp [hsource, hlabels]
  rw [Diagnostic.render, hshown, hnotes]
  cases d.help with
  | none => simp [helpRow]
  | some help => simp [helpRow, String.append_assoc]

theorem marked_error (span : Span) (text : List Char) (gutter : Nat) :
    Label.marked ⟨span, "", true⟩ text gutter =
      (locate text span.start).marked gutter '^' (span.width text) "" := by
  simp [Label.marked]

theorem marked_opener (span : Span) (text : List Char) (gutter : Nat) :
    Label.marked ⟨span, "opened here", false⟩ text gutter =
      (locate text span.start).marked gutter '-' (span.width text) " opened here" := by
  have hnote : " " ++ "opened here" = " opened here" := by decide
  simp [Label.marked, hnote]

theorem snippet_rejection {text : String} {r : Rejection} {span : Span}
    (hspan : r.span? = some span) (hopened : ∀ o ∈ r.opened?, o.start ≤ span.start) :
    (r.diagnostic text).snippet = errorSnippet text.toList span r.opened? := by
  cases r with
  | eval e => cases hspan
  | lex e =>
    cases hspan
    have hlabels : (Rejection.diagnostic text (.lex e)).labels = [⟨e.span, "", true⟩] := rfl
    rw [Diagnostic.snippet_single hlabels, marked_error]
    rfl
  | parse e =>
    cases hspan
    cases ho : e.opened with
    | none =>
      have hlabels : (Rejection.diagnostic text (.parse e)).labels = [⟨e.span, "", true⟩] := by
        simp [Rejection.diagnostic, ho]
      rw [Diagnostic.snippet_single hlabels, marked_error, Rejection.opened?, ho]
      rfl
    | some o =>
      have hlabels : (Rejection.diagnostic text (.parse e)).labels =
          [⟨e.span, "", true⟩, ⟨o, "opened here", false⟩] := by
        simp [Rejection.diagnostic, ho]
      have hle := locate_number_mono (hopened o ho) text.toList
      rw [Diagnostic.snippet_pair hlabels hle, marked_error, marked_opener, Rejection.opened?, ho]
      rfl

theorem render_rejection {text : String} {r : Rejection} {span : Span} (hne : text ≠ "")
    (hspan : r.span? = some span) (hopened : ∀ o ∈ r.opened?, o.start ≤ span.start) :
    (r.diagnostic text).render = s!"error: {(r.diagnostic text).message}\n" ++
      errorSnippet text.toList span r.opened? ++ helpRow (r.diagnostic text).help := by
  rw [← snippet_rejection hspan hopened]
  cases r with
  | eval e => cases hspan
  | lex e => exact render_eq hne (List.cons_ne_nil _ _) rfl
  | parse e => exact render_eq hne (List.cons_ne_nil _ _) rfl

/-! ## Rejected texts -/

/-- The text was too long. -/
def Rejection.OfLength : Rejection → Prop
  | .lex e => ∃ limit, e.cause = .tooLong limit
  | _ => False

theorem calculate_error_cases {limits : Limits} {text : String} {r : Rejection}
    (h : calculate limits text = .error r) :
    limits.maxInputLen < text.utf8ByteSize ∧
        r = .lex ⟨.point limits.maxInputLen, .tooLong limits.maxInputLen⟩ ∨
      (∃ e, tokenize text = .error e ∧ r = .lex e) ∨
      (∃ ts e, tokenize text = .ok ts ∧ parse ts limits.maxDepth = .error e ∧ r = .parse e) ∨
      ∃ e, r = .eval e := by
  unfold calculate Expr.ofText at h
  by_cases hlong : limits.maxInputLen < text.utf8ByteSize
  · rw [if_pos hlong] at h
    cases h
    exact .inl ⟨hlong, rfl⟩
  · rw [if_neg hlong] at h
    cases htokens : tokenize text with
    | error e =>
      simp only [htokens] at h
      cases h
      exact .inr (.inl ⟨e, rfl, rfl⟩)
    | ok ts =>
      simp only [htokens] at h
      cases hparse : parse ts limits.maxDepth with
      | error e =>
        simp only [hparse] at h
        cases h
        exact .inr (.inr (.inl ⟨ts, e, rfl, hparse, rfl⟩))
      | ok expr =>
        simp only [hparse] at h
        cases hvalue : evaluate expr with
        | error e =>
          simp only [hvalue] at h
          cases h
          exact .inr (.inr (.inr ⟨e, rfl⟩))
        | ok v => simp only [hvalue, reduceCtorEq] at h

/-- The span of a rejection is within the text, and it is that of a piece of it unless
    the text is too long. A recorded bracket is one byte that stands before it. The
    diagnostic shows both where counting lines and characters finds them. -/
theorem calculate_rejection {limits : Limits} {text : String} {r : Rejection} {span : Span}
    (hne : text ≠ "") (h : calculate limits text = .error r) (hspan : r.span? = some span) :
    (span.start ≤ span.stop ∧ span.stop ≤ text.utf8ByteSize) ∧
    (¬ r.OfLength → ∃ piece, span.Covers text.toList piece) ∧
    (∀ o ∈ r.opened?, o.stop = o.start + 1 ∧ o.stop ≤ span.start ∧
      ∃ b, o.Covers text.toList (Symbol.opening b).text.toList) ∧
    (r.diagnostic text).render = s!"error: {(r.diagnostic text).message}\n" ++
      errorSnippet text.toList span r.opened? ++ helpRow (r.diagnostic text).help := by
  have hwithin {piece : List Char} (hcovers : span.Covers text.toList piece) :
      span.start ≤ span.stop ∧ span.stop ≤ text.utf8ByteSize := by
    rw [← byteLength_toList]
    exact hcovers.within
  have hbyte (b : Bracket) : byteLength (Symbol.opening b).text.toList = 1 := by
    cases b <;> rfl
  rcases calculate_error_cases h with
    ⟨hlong, rfl⟩ | ⟨e, he, rfl⟩ | ⟨ts, e, htokens, he, rfl⟩ | ⟨e, rfl⟩
  · cases hspan
    exact ⟨⟨Nat.le_refl _, Nat.le_of_lt hlong⟩, fun hnot => absurd ⟨_, rfl⟩ hnot, nofun,
      render_rejection hne rfl nofun⟩
  · cases hspan
    obtain ⟨piece, hcovers⟩ := covers_of_lexError he
    exact ⟨hwithin hcovers, fun _ => ⟨piece, hcovers⟩, nofun, render_rejection hne rfl nofun⟩
  · cases hspan
    obtain ⟨⟨piece, hcovers⟩, hopened⟩ := covers_of_syntaxError htokens he
    have hbefore : ∀ o ∈ e.opened, o.stop = o.start + 1 ∧ o.stop ≤ e.span.start ∧
        ∃ b, o.Covers text.toList (Symbol.opening b).text.toList := fun o ho => by
      obtain ⟨hle, b, hb⟩ := hopened o ho
      exact ⟨by rw [hb.stop_eq, hbyte], hle, b, hb⟩
    refine ⟨hwithin hcovers, fun _ => ⟨piece, hcovers⟩, hbefore, render_rejection hne rfl ?_⟩
    intro o ho
    have := hbefore o ho
    omega
  · cases hspan

/-- A bracket that is not closed on the next line, after a character of two bytes, in a
    text whose line ends have a carriage return. -/
theorem calculate_rejection_unclosed :
    ∃ e, calculate {} "['é', (5\r\n+ 6" = .error (.parse e) ∧ e.opened = some ⟨7, 8⟩ ∧
      (Rejection.diagnostic "['é', (5\r\n+ 6" (.parse e)).render =
        "error: unclosed `(` at position 7: expected `)`\n" ++
          "  |\n1 | ['é', (5\n  |       - opened here\n2 | + 6\n  |    ^\n  |\n" := by
  have herror : calculate {} "['é', (5\r\n+ 6" =
      .error (.parse ⟨⟨14, 14⟩, .unclosed .round 7, some ⟨7, 8⟩⟩) :=
    Grammar.failure?_eq_some_iff.mp (by decide +kernel)
  obtain ⟨_, _, _, hrender⟩ := calculate_rejection (by decide) herror rfl
  refine ⟨_, herror, rfl, hrender.trans ?_⟩
  decide +kernel

end Calculator
