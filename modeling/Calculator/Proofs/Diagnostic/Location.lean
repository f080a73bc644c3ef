import Calculator.Diagnostic
import Mathlib.Data.List.DropRight

/-
  Where an offset is in a text, by counting: its line has one more than the line ends
  before the offset, and its column the characters between the line's start and the
  offset. What is said of a line is said of the first line of a text, or of the text
  after that line.

  What is proved:
    1. `upTo_append`, `upTo_mono` — the characters that start before an offset.
    2. `lines_induction` — a text is a line, or one before a line end and a text.
    3. `lineIndex_eq`, `exists_line` — the table of lines finds the line and the column
       that counting gives.
-/

namespace Calculator

/-! ## The characters before an offset -/

/-- The characters of a text that start before an offset. -/
def upTo (offset : Nat) : List Char → List Char
  | [] => []
  | c :: cs => if offset = 0 then [] else c :: upTo (offset - c.utf8Size) cs

theorem upTo_zero (text : List Char) : upTo 0 text = [] := by
  cases text <;> rfl

theorem upTo_append (offset : Nat) (xs ys : List Char) :
    upTo offset (xs ++ ys) = upTo offset xs ++ upTo (offset - byteLength xs) ys := by
  induction xs generalizing offset with
  | nil => rfl
  | cons x xs ih =>
    rw [List.cons_append, upTo, upTo, byteLength]
    split
    · next hzero => rw [hzero, Nat.zero_sub, upTo_zero, List.append_nil]
    · rw [ih, Nat.sub_sub, List.cons_append]

theorem upTo_eq_self {offset : Nat} {text : List Char} (h : byteLength text ≤ offset) :
    upTo offset text = text := by
  induction text generalizing offset with
  | nil => rfl
  | cons c cs ih =>
    have := Char.utf8Size_pos c
    rw [byteLength] at h
    rw [upTo, if_neg (by omega), ih (by omega)]

/-- Before the end of a part of the text there is nothing of what comes after it. -/
theorem upTo_append_of_le {offset : Nat} {xs : List Char} (h : offset ≤ byteLength xs)
    (ys : List Char) : upTo offset (xs ++ ys) = upTo offset xs := by
  rw [upTo_append, Nat.sub_eq_zero_of_le h, upTo_zero, List.append_nil]

theorem upTo_isPrefix (offset : Nat) (text : List Char) : upTo offset text <+: text := by
  induction text generalizing offset with
  | nil => exact List.prefix_refl []
  | cons c cs ih =>
    rw [upTo]
    split
    · exact List.nil_prefix
    · exact (List.prefix_cons_inj c).mpr (ih _)

theorem upTo_mono {offset offset' : Nat} (h : offset ≤ offset') (text : List Char) :
    upTo offset text <+: upTo offset' text := by
  induction text generalizing offset offset' with
  | nil => exact List.prefix_refl []
  | cons c cs ih =>
    rw [upTo, upTo]
    split
    · exact List.nil_prefix
    · rw [if_neg (by omega)]
      exact (List.prefix_cons_inj c).mpr (ih (by omega))

/-- As many characters of a part start before an offset as of the whole, up to all of
    the part. -/
theorem length_upTo (offset : Nat) (xs ys : List Char) :
    (upTo offset xs).length = min (upTo offset (xs ++ ys)).length xs.length := by
  have hle := (upTo_isPrefix offset xs).length_le
  by_cases h : offset ≤ byteLength xs
  · rw [upTo_append_of_le h]
    omega
  · have hself : upTo offset xs = xs := upTo_eq_self (Nat.le_of_not_le h)
    rw [upTo_append, hself, List.length_append]
    omega

theorem charsBefore_eq (offset start : Nat) (cs : List Char) :
    charsBefore offset start cs = (upTo (offset - start) cs).length := by
  induction cs generalizing start with
  | nil => rfl
  | cons c cs ih =>
    rw [charsBefore, upTo]
    split
    · rw [if_neg (by omega), ih, Nat.sub_sub, List.length_cons]
    · rw [if_pos (by omega), List.length_nil]

/-! ## Lines -/

theorem splitLines_of_not_mem {line : List Char} (h : '\n' ∉ line) : splitLines line = [line] := by
  induction line with
  | nil => rfl
  | cons c cs ih =>
    obtain ⟨hc, hcs⟩ := List.ne_and_not_mem_of_not_mem_cons h
    rw [splitLines, if_neg hc.symm, ih hcs]

theorem splitLines_append {line : List Char} (h : '\n' ∉ line) (rest : List Char) :
    splitLines (line ++ '\n' :: rest) = line :: splitLines rest := by
  induction line with
  | nil => rfl
  | cons c cs ih =>
    obtain ⟨hc, hcs⟩ := List.ne_and_not_mem_of_not_mem_cons h
    rw [List.cons_append, splitLines, if_neg hc.symm, ih hcs]

theorem lines_induction {P : List Char → Prop} (last : ∀ line, '\n' ∉ line → P line)
    (next : ∀ line rest, '\n' ∉ line → P rest → P (line ++ '\n' :: rest)) (text : List Char) :
    P text := by
  have hline : '\n' ∉ text.takeWhile (· != '\n') := fun hmem => by
    simpa using List.mem_takeWhile_imp hmem
  have hsplit := List.takeWhile_append_dropWhile (p := (· != '\n')) (l := text)
  cases hdrop : text.dropWhile (· != '\n') with
  | nil =>
    rw [hdrop, List.append_nil] at hsplit
    exact hsplit ▸ last _ hline
  | cons c rest =>
    have hc : c = '\n' := by
      have := List.head?_dropWhile_not (· != '\n') text
      simpa [hdrop] using this
    have hshorter : rest.length < text.length := by
      rw [← hsplit, hdrop, List.length_append, List.length_cons]
      omega
    rw [hdrop, hc] at hsplit
    exact hsplit ▸ next _ rest hline (lines_induction last next rest)
termination_by text.length

/-! ## Locations -/

/-- A place as it is shown: the number of its line from 1 on, that line, and the
    column. -/
structure Location where
  number : Nat
  line : List Char
  column : Nat
  deriving DecidableEq, Repr

/-- The location of an offset: the line ends before it are counted, and the characters
    of its line that start before it. The line is shown without the carriage returns
    at its end, and no column is past that. -/
def locate (text : List Char) (offset : Nat) : Location :=
  let before := upTo offset text
  let head := before.rtakeWhile (· != '\n')
  let line := (head ++ (text.drop before.length).takeWhile (· != '\n')).rdropWhile (· == '\r')
  ⟨before.count '\n' + 1, line, min head.length line.length⟩

theorem rtakeWhile_append_cons {α : Type} {p : α → Bool} {a : α} (h : p a = false)
    (xs ys : List α) : (xs ++ a :: ys).rtakeWhile p = ys.rtakeWhile p := by
  have hstop : (a :: xs.reverse).takeWhile p = [] := List.takeWhile_cons_of_neg (by simp [h])
  rw [List.rtakeWhile, List.rtakeWhile, List.reverse_append, List.reverse_cons, List.append_assoc,
    List.singleton_append, List.takeWhile_append, hstop]
  split
  · next hall =>
    have hself := List.takeWhile_prefix p |>.eq_of_length hall
    rw [hself, List.append_nil]
  · rfl

/-- An offset on the first line of a text. -/
theorem locate_first {offset : Nat} {line rest : List Char} (h : '\n' ∉ line)
    (hrest : ∀ c ∈ rest.head?, c = '\n') (hoffset : rest = [] ∨ offset ≤ byteLength line) :
    locate (line ++ rest) offset = ⟨1, line.rdropWhile (· == '\r'),
      (upTo offset (line.rdropWhile (· == '\r'))).length⟩ := by
  have hbefore : upTo offset (line ++ rest) = upTo offset line := by
    rcases hoffset with rfl | hle
    · rw [List.append_nil]
    · exact upTo_append_of_le hle rest
  have hne : ∀ c ∈ line, (c != '\n') = true := fun c hc => bne_iff_ne.mpr fun heq => h (heq ▸ hc)
  obtain ⟨tail, htail⟩ := upTo_isPrefix offset line
  have hcount : (upTo offset line).count '\n' = 0 :=
    List.count_eq_zero.mpr fun hmem => h (htail ▸ List.mem_append_left tail hmem)
  have hhead : (upTo offset line).rtakeWhile (· != '\n') = upTo offset line :=
    List.rtakeWhile_eq_self_iff.mpr fun c hc => hne c (htail ▸ List.mem_append_left tail hc)
  have hdrop : (line ++ rest).drop (upTo offset line).length = tail ++ rest := by
    generalize upTo offset line = before at htail
    rw [← htail, List.append_assoc, List.drop_left]
  have hafter : (tail ++ rest).takeWhile (· != '\n') = tail := by
    rw [List.takeWhile_append_of_pos fun c hc => hne c (htail ▸ List.mem_append_right _ hc)]
    cases rest with
    | nil => simp
    | cons c cs => simp [hrest c rfl]
  obtain ⟨returns, hreturns⟩ := List.rdropWhile_prefix (p := (· == '\r')) (l := line)
  have hcolumn := length_upTo offset (line.rdropWhile (· == '\r')) returns
  rw [hreturns] at hcolumn
  simp only [locate, hbefore, hcount, hhead, hdrop, hafter, htail, hcolumn]

/-- An offset after the first line of a text. -/
theorem locate_later {offset : Nat} {line rest : List Char} (h : '\n' ∉ line)
    (hoffset : byteLength line < offset) :
    locate (line ++ '\n' :: rest) offset =
      { locate rest (offset - (byteLength line + 1)) with
        number := (locate rest (offset - (byteLength line + 1))).number + 1 } := by
  have hbefore : upTo offset (line ++ '\n' :: rest) =
      line ++ '\n' :: upTo (offset - (byteLength line + 1)) rest := by
    have hwidth : ('\n' : Char).utf8Size = 1 := rfl
    rw [upTo_append, upTo_eq_self (Nat.le_of_lt hoffset), upTo, if_neg (by omega), hwidth,
      Nat.sub_sub]
  have hcount : (line ++ '\n' :: upTo (offset - (byteLength line + 1)) rest).count '\n' =
      (upTo (offset - (byteLength line + 1)) rest).count '\n' + 1 := by
    rw [List.count_append, List.count_eq_zero.mpr h, List.count_cons_self, Nat.zero_add]
  have hdrop (n : Nat) : (line ++ '\n' :: rest).drop (line.length + (n + 1)) = rest.drop n := by
    rw [List.drop_length_add_append, List.drop_succ_cons]
  simp only [locate, hbefore, hcount, rtakeWhile_append_cons (p := (· != '\n')) (a := '\n') rfl,
    List.length_append, List.length_cons, hdrop]

/-! ## The table of lines -/

theorem takeWhile_placeLines {start offset : Nat} (h : offset < start) (lines : List (List Char)) :
    (placeLines start lines).takeWhile (·.start ≤ offset) = [] := by
  cases lines with
  | nil => rfl
  | cons first rest => exact List.takeWhile_cons_of_neg (by simpa using h)

/-- The table and the counts agree, in a text that starts at an offset. -/
theorem placeLines_locate (text : List Char) {start offset : Nat} (h : start ≤ offset) :
    ((placeLines start (splitLines text)).takeWhile (·.start ≤ offset)).length =
        (locate text (offset - start)).number ∧
      ∃ line, (placeLines start (splitLines text))[(locate text (offset - start)).number - 1]? =
          some line ∧
        line.text = (locate text (offset - start)).line ∧
        line.column offset = (locate text (offset - start)).column := by
  induction text using lines_induction generalizing start with
  | last line hline =>
    have hfirst : locate (line ++ []) (offset - start) = _ := locate_first hline nofun (.inl rfl)
    rw [List.append_nil] at hfirst
    rw [splitLines_of_not_mem hline, hfirst, placeLines, placeLines,
      List.takeWhile_cons_of_pos (by simpa using h)]
    exact ⟨rfl, _, rfl, rfl, charsBefore_eq _ _ _⟩
  | next line rest hline ih =>
    rw [splitLines_append hline, placeLines, List.takeWhile_cons_of_pos (by simpa using h)]
    by_cases hoffset : offset - start ≤ byteLength line
    · have hfirst : locate (line ++ '\n' :: rest) (offset - start) = _ :=
        locate_first hline (by simp) (.inr hoffset)
      have hnone : (placeLines (start + byteLength line + 1) (splitLines rest)).takeWhile
          (·.start ≤ offset) = [] := takeWhile_placeLines (by omega) _
      rw [hfirst, hnone]
      exact ⟨rfl, _, rfl, rfl, charsBefore_eq _ _ _⟩
    · have hstart : start + byteLength line + 1 ≤ offset := by omega
      obtain ⟨hcount, found, hfound, htext, hcolumn⟩ := ih hstart
      have hrest : offset - (start + byteLength line + 1) =
          offset - start - (byteLength line + 1) := by omega
      rw [hrest] at hcount hfound htext hcolumn
      obtain ⟨k, hk⟩ : ∃ k, (locate rest (offset - start - (byteLength line + 1))).number = k + 1 :=
        ⟨_, rfl⟩
      rw [locate_later hline (Nat.lt_of_not_le hoffset)]
      rw [hk] at hcount hfound ⊢
      exact ⟨congrArg (· + 1) hcount, found, hfound, htext, hcolumn⟩

/-- Halving finds what a walk from the front does, where no element that satisfies the
    predicate comes after one that does not. -/
theorem partitionPoint_eq {α : Type} {p : α → Bool} {xs : List α}
    (h : xs.Pairwise fun a b => p b → p a) : partitionPoint p xs = (xs.takeWhile p).length := by
  fun_induction partitionPoint p xs with
  | case1 xs hempty =>
    have hnil : xs = [] := by
      rw [List.drop_eq_nil_iff] at hempty
      exact List.length_eq_zero_iff.mp (by omega)
    rw [hnil]
    rfl
  | case2 xs middle later hdrop hmiddle ih =>
    have hsplit := List.take_append_drop (xs.length / 2) xs
    rw [hdrop] at hsplit
    have hhalf : (xs.take (xs.length / 2)).length = xs.length / 2 := by
      rw [List.length_take]
      omega
    generalize xs.take (xs.length / 2) = before at hsplit hhalf
    rw [← hsplit] at h
    obtain ⟨-, hlater, hbefore⟩ := List.pairwise_append.mp h
    have hall : ∀ a ∈ before, p a := fun a ha =>
      hbefore a ha middle (List.mem_cons_self ..) hmiddle
    rw [ih (List.pairwise_cons.mp hlater).2, ← hhalf, ← hsplit, List.takeWhile_append_of_pos hall,
      List.takeWhile_cons_of_pos hmiddle, List.length_append, List.length_cons]
    omega
  | case3 xs middle later hdrop hmiddle ih =>
    have hsplit := List.take_append_drop (xs.length / 2) xs
    rw [hdrop] at hsplit
    generalize xs.take (xs.length / 2) = before at hsplit ih
    rw [← hsplit] at h
    rw [ih (List.pairwise_append.mp h).1, ← hsplit, List.takeWhile_append,
      List.takeWhile_cons_of_neg hmiddle, List.append_nil]
    split
    · next hall => rw [← hall]
    · rfl

theorem le_start {start : Nat} {lines : List (List Char)} {line : Line}
    (h : line ∈ placeLines start lines) : start ≤ line.start := by
  induction lines generalizing start with
  | nil => cases h
  | cons first rest ih =>
    rcases List.mem_cons.mp h with rfl | h
    · exact Nat.le_refl start
    · have := ih h
      omega

/-- Every line starts after those above it. -/
theorem starts_increasing (start : Nat) (lines : List (List Char)) :
    (placeLines start lines).Pairwise (·.start < ·.start) := by
  induction lines generalizing start with
  | nil => exact List.Pairwise.nil
  | cons first rest ih =>
    refine List.pairwise_cons.mpr ⟨fun line hline => ?_, ih _⟩
    have := le_start hline
    dsimp only
    omega

/-- The lines that start at or before an offset are the first of the table, as the search
    needs. -/
theorem lineIndex_eq_takeWhile (text : String) (offset : Nat) :
    lineIndex (Line.ofText text) offset =
      ((Line.ofText text).takeWhile (·.start ≤ offset)).length - 1 := by
  have hpart : (Line.ofText text).Pairwise fun a b =>
      decide (b.start ≤ offset) = true → decide (a.start ≤ offset) = true :=
    (starts_increasing 0 _).imp fun hlt => by simp only [decide_eq_true_eq]; omega
  rw [lineIndex, partitionPoint_eq hpart]

theorem lineIndex_eq (text : String) (offset : Nat) :
    lineIndex (Line.ofText text) offset = (locate text.toList offset).number - 1 := by
  rw [lineIndex_eq_takeWhile]
  exact congrArg (· - 1) (placeLines_locate text.toList (Nat.zero_le offset)).1

theorem exists_line (text : String) (offset : Nat) :
    ∃ line, (Line.ofText text)[lineIndex (Line.ofText text) offset]? = some line ∧
      line.text = (locate text.toList offset).line ∧
      line.column offset = (locate text.toList offset).column := by
  rw [lineIndex_eq]
  exact (placeLines_locate text.toList (Nat.zero_le offset)).2

end Calculator
