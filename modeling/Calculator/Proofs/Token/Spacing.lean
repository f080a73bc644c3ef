import Calculator.Proofs.Token.Escape
import Calculator.Proofs.Token.Tiling

/-
  Texts with blanks between them are read one by one. No token reaches over a blank but
  a literal in quotes, and that ends in its quote; so the lexer goes over the first
  text as if nothing came after it. What it does after the blanks depends on where the
  second text stands only in the places that it tells.

  What is proved:
    1. `tokenizeFrom_shift` — a text that stands further on has the same tokens and the
       same error, as far on.
    2. `longestMatch_blank`, `passes_blank` — a blank after a text changes none of its
       tokens.
    3. `tokenize_spaced` — the tokens of two texts with blanks between them.
-/

namespace Calculator

/-! ## Shifted places -/

/-- The span in a text that stands after so many bytes of another. -/
def Span.shift (distance : Nat) (span : Span) : Span :=
  ⟨distance + span.start, distance + span.stop⟩

def Lexeme.shift (distance : Nat) (l : Lexeme) : Lexeme := ⟨l.token, l.span.shift distance⟩

def LexError.shift (distance : Nat) (e : LexError) : LexError := ⟨e.span.shift distance, e.cause⟩

/-- What the lexer gives for a text that stands after so many bytes of another. -/
def shifted (distance : Nat) :
    Except LexError (List Lexeme) → Except LexError (List Lexeme)
  | .ok ls => .ok (ls.map (·.shift distance))
  | .error e => .error (e.shift distance)

theorem shifted_map (distance : Nat) (l : Lexeme) (x : Except LexError (List Lexeme)) :
    shifted distance (x.map (l :: ·)) = (shifted distance x).map (l.shift distance :: ·) := by
  cases x <;> rfl

/-- Where a text starts moves its tokens, and no more. -/
theorem tokenizeFrom_shift (distance offset : Nat) (text : List Char) :
    tokenizeFrom (distance + offset) text = shifted distance (tokenizeFrom offset text) := by
  fun_induction tokenizeFrom offset text with
  | case1 offset =>
    rw [tokenizeFrom]
    rfl
  | case2 offset c cs hblank ih => rw [tokenizeFrom, if_pos hblank, Nat.add_assoc, ih]
  | case3 offset c cs hblank hnone =>
    rw [tokenizeFrom, if_neg hblank, hnone]
    simp only [shifted, noToken, LexError.shift, Span.shift, Nat.add_assoc]
    split <;> rfl
  | case4 offset c cs hblank n read hl =>
    rename_i lexeme stop cause hr
    rw [tokenizeFrom, if_neg hblank, hl]
    simp only [lexeme] at hr
    simp only [hr]
    simp only [shifted, LexError.shift, Span.shift, stop, lexeme, Nat.add_assoc]
  | case5 offset c cs hblank n read hl =>
    rename_i lexeme stop token hr ih
    rw [tokenizeFrom, if_neg hblank, hl]
    simp only [lexeme] at hr
    simp only [hr, shifted_map, ← ih]
    simp only [Lexeme.shift, Span.shift, stop, lexeme, Nat.add_assoc]

/-! ## A blank after a text -/

theorem blank_mem_delimiters {c : Char} (h : isBlank c = true) : c ∈ delimiters := by
  simp only [isBlank, Bool.or_eq_true, beq_iff_eq] at h
  rcases h with (((rfl | rfl) | rfl) | rfl) | rfl <;> decide

/-- No longest match becomes longer when a blank comes after the text: apart from
    literals in quotes, which end in their quote, no token goes over one. -/
theorem longestMatch_blank {read : Reading} {text after more : List Char} {c : Char}
    (h : LongestMatch read text after) (hblank : isBlank c = true) :
    LongestMatch read text (after ++ c :: more) := by
  obtain ⟨d, ds, rfl⟩ := List.exists_cons_of_ne_nil h.nonempty
  by_cases hq : IsQuote d
  · obtain ⟨p, hmem, hmatch⟩ := rule_of_longestMatch h
    cases rule_of_quote hq hmem hmatch
    obtain ⟨body, hbody, htext⟩ := matches_string_iff.mp hmatch
    rw [htext, longestMatch_iff]
    exact longest_string hq hbody _
  · refine ⟨h.nonempty, h.first, fun longer rest hsplit hlonger r hr hmatch => ?_⟩
    rcases List.append_eq_append_iff.mp hsplit with ⟨xs, rfl, hxs⟩ | ⟨xs, rfl, _⟩
    · cases xs with
      | nil => exact h.longest (after ++ []) [] (by simp) hlonger r hr hmatch
      | cons x xs =>
        -- the longer match goes over the blank
        cases hxs
        have hbeyond : r.1.Matches (d :: (ds ++ after) ++ c :: xs) := by simpa using hmatch
        exact not_matches_beyond hr (not_or.mp hq) (blank_mem_delimiters hblank) hbeyond
    · exact h.longest longer xs rfl hlonger r hr hmatch

theorem passes_blank {before text more : List Char} {ls : List Lexeme} {c : Char}
    (h : Passes [] before text ls) (hblank : isBlank c = true) :
    Passes (c :: more) before text ls := by
  induction h with
  | stay => exact .stay
  | blank hb _ ih => exact .blank hb ih
  | lexeme hmatch hfirst hread _ ih =>
    rw [List.append_nil] at hmatch
    exact .lexeme (longestMatch_blank hmatch hblank) hfirst hread ih

/-! ## Going on after a text -/

theorem tokenizeFrom_blanks {blanks : List Char} (h : ∀ c ∈ blanks, isBlank c = true)
    (offset : Nat) (rest : List Char) :
    tokenizeFrom offset (blanks ++ rest) = tokenizeFrom (offset + byteLength blanks) rest := by
  induction blanks generalizing offset with
  | nil => rfl
  | cons c cs ih =>
    obtain ⟨hc, hcs⟩ := List.forall_mem_cons.mp h
    rw [List.cons_append, tokenizeFrom, if_pos hc, ih hcs, byteLength, Nat.add_assoc]

/-- A text, blanks and another text have the tokens of the one and of the other, those
    of the other and its errors being moved to where it stands. -/
theorem tokenize_spaced {a blanks : String} {ts : List Lexeme} (ha : tokenize a = .ok ts)
    (hne : blanks ≠ "") (hblanks : ∀ c ∈ blanks.toList, isBlank c = true) (b : String) :
    ∃ ls, ts = ls ++ [⟨.eof, .point a.utf8ByteSize⟩] ∧
      (∀ us, tokenize b = .ok us → tokenize (a ++ blanks ++ b) =
        .ok (ls ++ us.map (·.shift (a.utf8ByteSize + blanks.utf8ByteSize)))) ∧
      ∀ e, tokenize b = .error e → tokenize (a ++ blanks ++ b) =
        .error (e.shift (a.utf8ByteSize + blanks.utf8ByteSize)) := by
  have hzero : byteLength [] = 0 := rfl
  rw [tokenize, ← hzero] at ha
  obtain ⟨ls, rfl, hpasses⟩ := passes_of_ok ha
  have hwhole : tokenize (a ++ blanks ++ b) =
      (shifted (a.utf8ByteSize + blanks.utf8ByteSize) (tokenize b)).map (ls ++ ·) := by
    obtain ⟨c, cs, hfirst⟩ : ∃ c cs, blanks.toList = c :: cs :=
      List.exists_cons_of_ne_nil (by simpa using hne)
    -- only the first blank is looked at while the first text is read
    have hpast : Passes (blanks.toList ++ b.toList) [] a.toList ls := by
      rw [hfirst]
      exact passes_blank hpasses (hblanks c (by simp [hfirst]))
    calc tokenize (a ++ blanks ++ b)
        = tokenizeFrom (byteLength []) (a.toList ++ (blanks.toList ++ b.toList)) := by
          rw [tokenize, String.toList_append, String.toList_append, List.append_assoc, hzero]
      _ = (tokenizeFrom (a.utf8ByteSize + blanks.utf8ByteSize) b.toList).map (ls ++ ·) := by
          rw [tokenizeFrom_passes hpast, tokenizeFrom_blanks hblanks, List.nil_append,
            byteLength_toList, byteLength_toList]
      _ = (shifted (a.utf8ByteSize + blanks.utf8ByteSize) (tokenize b)).map (ls ++ ·) := by
          rw [tokenize, ← tokenizeFrom_shift, Nat.add_zero]
  refine ⟨ls, by rw [List.nil_append, byteLength_toList], fun us hus => ?_, fun e he => ?_⟩
  · rw [hwhole, hus]
    rfl
  · rw [hwhole, he]
    rfl

/-- After a literal that holds a blank, and a line end, stands a text with no error, and
    one with an error. -/
theorem tokenize_spaced_literal :
    tokenize ("'a b'" ++ "\n" ++ "-1") =
        .ok [⟨.str "a b", ⟨0, 5⟩⟩, ⟨.symbol .minus, ⟨6, 7⟩⟩, ⟨.int 1, ⟨7, 8⟩⟩, ⟨.eof, ⟨8, 8⟩⟩] ∧
      tokenize ("'a b'" ++ "\n" ++ "1 'é") = .error ⟨⟨8, 11⟩, .unterminatedString⟩ := by
  have ha : tokenize "'a b'" = .ok [⟨.str "a b", ⟨0, 5⟩⟩, ⟨.eof, ⟨5, 5⟩⟩] := by decide +kernel
  have hone : tokenize "-1" =
      .ok [⟨.symbol .minus, ⟨0, 1⟩⟩, ⟨.int 1, ⟨1, 2⟩⟩, ⟨.eof, ⟨2, 2⟩⟩] := by decide +kernel
  have hopen : tokenize "1 'é" = .error ⟨⟨2, 5⟩, .unterminatedString⟩ := by decide +kernel
  have hne : "\n" ≠ "" := by decide
  have hblank : ∀ c ∈ "\n".toList, isBlank c = true := List.all_eq_true.mp rfl
  obtain ⟨ls, hls, hok, _⟩ := tokenize_spaced ha hne hblank "-1"
  obtain ⟨_, _, _, herror⟩ := tokenize_spaced ha hne hblank "1 'é"
  obtain rfl : [⟨.str "a b", ⟨0, 5⟩⟩] = ls := by simpa using congrArg List.dropLast hls
  exact ⟨hok _ hone, herror _ hopen⟩

end Calculator
