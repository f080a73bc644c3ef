import Calculator.Proofs.Diagnostic.Location

/-
  The table of lines by what it counts. The index of a line is the number of line ends
  among the bytes before an offset, and its column the number of its characters whose
  first byte lies before it.

  What is proved:
    1. `bytes_count` — among the bytes before an offset there are as many line ends as
       among the characters that start before it.
    2. `splitLines_eq`, `getElem?_placeLines`, `exists_piece` — the lines of the table.
    3. `charsBefore_eq_countP`, `charsBefore_boundary` — the column.
    4. `line_counts` — the line and the column of every offset.
-/

namespace Calculator

/-! ## Bytes -/

/-- The bytes of a text. -/
def bytesOf (text : List Char) : List UInt8 := text.flatMap String.utf8EncodeChar

theorem toUTF8_eq (text : String) : text.toUTF8.data.toList = bytesOf text.toList := by
  rw [String.toUTF8, ← String.utf8Encode_toList, List.utf8Encode, List.toList_data_toByteArray]
  rfl

theorem length_bytesOf (text : List Char) : (bytesOf text).length = byteLength text := by
  induction text with
  | nil => rfl
  | cons c cs ih =>
    rw [bytesOf] at ih
    rw [bytesOf, List.flatMap_cons, List.length_append, String.length_utf8EncodeChar, ih, byteLength]

theorem eq_ten_of_ofNat {n : Nat} (h : 10 = UInt8.ofNat n) : n % 256 = 10 := by
  have hbyte := congrArg UInt8.toNat h
  simpa using hbyte.symm

/-- The byte of a line end stands for nothing else, nor is it a part of a character. -/
theorem eq_lineEnd_of_mem {c : Char} (h : 10 ∈ String.utf8EncodeChar c) : c = '\n' := by
  have hvalue : c.val.toNat = 10 := by
    unfold String.utf8EncodeChar at h
    dsimp only at h
    split at h
    · have := eq_ten_of_ofNat (List.mem_singleton.mp h)
      omega
    -- all bytes of a longer encoding are from 128 on
    · split at h
      · rcases List.mem_pair.mp h with h | h <;> have := eq_ten_of_ofNat h <;> omega
      · split at h <;> simp only [List.mem_cons, List.not_mem_nil, or_false] at h
        · rcases h with h | h | h <;> have := eq_ten_of_ofNat h <;> omega
        · rcases h with h | h | h | h <;> have := eq_ten_of_ofNat h <;> omega
  exact Char.ext (UInt32.toNat_inj.mp hvalue)

theorem bytes_count (offset : Nat) (text : List Char) :
    ((bytesOf text).take offset).count 10 = (upTo offset text).count '\n' := by
  induction text generalizing offset with
  | nil => simp [bytesOf, upTo]
  | cons c cs ih =>
    rw [bytesOf] at ih
    rw [bytesOf, List.flatMap_cons, List.take_append, List.count_append,
      String.length_utf8EncodeChar, ih, upTo]
    by_cases hzero : offset = 0
    · rw [if_pos hzero, hzero, Nat.zero_sub, upTo_zero]
      simp
    · rw [if_neg hzero, List.count_cons, Nat.add_comm, Nat.add_left_cancel_iff]
      by_cases hc : c = '\n'
      · have hbytes : String.utf8EncodeChar '\n' = [10] := rfl
        rw [hc, hbytes, List.take_of_length_le (by simp; omega)]
        rfl
      · have hnone : 10 ∉ (String.utf8EncodeChar c).take offset := fun hmem =>
          hc (eq_lineEnd_of_mem (List.mem_of_mem_take hmem))
        rw [List.count_eq_zero.mpr hnone, if_neg (by simpa using hc)]

/-! ## Lines -/

theorem splitLines_eq (text : List Char) : splitLines text = text.splitOn '\n' := by
  induction text with
  | nil => rfl
  | cons c cs ih =>
    rw [List.splitOn] at ih ⊢
    rw [splitLines, ih, List.splitOnP_cons_eq_if_modifyHead]
    by_cases hc : c = '\n'
    · simp [hc]
    · cases hrest : cs.splitOnP (· == '\n') with
      | nil => exact absurd hrest (List.splitOnP_ne_nil _ _)
      | cons line lines => simp [hc]

/-- Lines with their ends. -/
def ended (lines : List (List Char)) : List Char := lines.flatMap (· ++ ['\n'])

theorem byteLength_ended_cons (line : List Char) (lines : List (List Char)) :
    byteLength (ended (line :: lines)) = byteLength line + 1 + byteLength (ended lines) := by
  rw [ended, List.flatMap_cons, byteLength_append, byteLength_append]
  rfl

/-- A line of the table is shown as it stands between line ends but for the carriage returns
    at its end, and starts after the lines above it and their ends. -/
theorem getElem?_placeLines (start index : Nat) (lines : List (List Char)) :
    (placeLines start lines)[index]? = lines[index]?.map fun line =>
      ⟨start + byteLength (ended (lines.take index)), line.rdropWhile (· == '\r')⟩ := by
  induction lines generalizing start index with
  | nil => rfl
  | cons first rest ih =>
    cases index with
    | zero => rfl
    | succ index =>
      rw [placeLines, List.getElem?_cons_succ, ih, List.getElem?_cons_succ, List.take_succ_cons,
        byteLength_ended_cons]
      simp only [Nat.add_assoc]

/-- The line that the table has for an offset. -/
theorem exists_piece (text : String) (offset : Nat) :
    ∃ line piece, (Line.ofText text)[lineIndex (Line.ofText text) offset]? = some line ∧
      (text.toList.splitOn '\n')[lineIndex (Line.ofText text) offset]? = some piece ∧
      line.text = piece.rdropWhile (· == '\r') ∧
      line.text = (locate text.toList offset).line ∧
      line.start = byteLength (ended ((text.toList.splitOn '\n').take
        (lineIndex (Line.ofText text) offset))) := by
  obtain ⟨line, hline, htext, _⟩ := exists_line text offset
  have htable : (Line.ofText text)[lineIndex (Line.ofText text) offset]? = _ :=
    getElem?_placeLines 0 _ (splitLines text.toList)
  rw [splitLines_eq, hline] at htable
  obtain ⟨piece, hpiece, hplaced⟩ := Option.map_eq_some_iff.mp htable.symm
  exact ⟨line, piece, hline, hpiece, by rw [← hplaced], htext, by rw [← hplaced, Nat.zero_add]⟩

/-! ## Columns -/

/-- The offset at which a character of a line starts; after the last, the end of what is
    shown of the line. -/
def Line.offset (line : Line) (k : Nat) : Nat := line.start + byteLength (line.text.take k)

theorem charsBefore_eq_countP (offset start : Nat) (cs : List Char) :
    charsBefore offset start cs =
      (List.range cs.length).countP fun k => start + byteLength (cs.take k) < offset := by
  induction cs generalizing start with
  | nil => rfl
  | cons c cs ih =>
    rw [charsBefore, List.length_cons, List.range_succ_eq_map, List.countP_cons, List.countP_map]
    by_cases hstart : start < offset
    · have hfirst : decide (start + byteLength ((c :: cs).take 0) < offset) = true := by
        simpa [byteLength] using hstart
      have hrest (k : Nat) : start + byteLength ((c :: cs).take (k + 1)) =
          start + c.utf8Size + byteLength (cs.take k) := by
        rw [List.take_succ_cons, byteLength, Nat.add_assoc]
      rw [if_pos hstart, ih, if_pos hfirst]
      simp only [Function.comp_def, Nat.succ_eq_add_one, hrest]
    · have hnone (k : Nat) : decide (start + byteLength ((c :: cs).take k) < offset) = false := by
        rw [decide_eq_false_iff_not]
        omega
      rw [if_neg hstart]
      simp only [Function.comp_def, hnone, Bool.false_eq_true, if_false, List.countP_false,
        Function.const_apply, Nat.add_zero]

/-- At the start of a character, the characters before it are counted. -/
theorem charsBefore_boundary {start k : Nat} {cs : List Char} (h : k ≤ cs.length) :
    charsBefore (start + byteLength (cs.take k)) start cs = k := by
  induction cs generalizing start k with
  | nil =>
    have hk : k = 0 := Nat.eq_zero_of_le_zero h
    rw [hk]
    rfl
  | cons c cs ih =>
    cases k with
    | zero => simp [charsBefore, byteLength]
    | succ k =>
      have hsize := Char.utf8Size_pos c
      have hrest : charsBefore (start + c.utf8Size + byteLength (cs.take k)) (start + c.utf8Size)
          cs = k := ih (Nat.le_of_succ_le_succ h)
      rw [List.take_succ_cons, byteLength, charsBefore, if_pos (by omega), ← Nat.add_assoc, hrest]

theorem Line.column_eq_countP (line : Line) (offset : Nat) : line.column offset =
    (List.range line.text.length).countP fun k => line.offset k < offset :=
  charsBefore_eq_countP offset line.start line.text

theorem Line.column_offset (line : Line) {k : Nat} (h : k ≤ line.text.length) :
    line.column (line.offset k) = k :=
  charsBefore_boundary h

/-! ## Lines and columns -/

/-- An offset is on the line after as many line ends as there are among the bytes before
    it, and its column is the number of characters shown on that line that start before it,
    also for an offset within a character or after the end. So the start of a character
    that is shown is found again from its line and its column. -/
theorem line_counts (text : String) (offset : Nat) :
    let index := lineIndex (Line.ofText text) offset
    index = (text.toUTF8.data.toList.take (min offset text.utf8ByteSize)).count 10 ∧
    ∃ line piece, (Line.ofText text)[index]? = some line ∧
      (text.toList.splitOn '\n')[index]? = some piece ∧
      line.text = piece.rdropWhile (· == '\r') ∧
      line.start = byteLength (ended ((text.toList.splitOn '\n').take index)) ∧
      line.column offset = (List.range line.text.length).countP (line.offset · < offset) ∧
      ∀ k ≤ line.text.length, offset = line.offset k →
        line.column offset = k ∧ line.offset (line.column offset) = offset := by
  intro index
  refine ⟨?_, ?_⟩
  · have hsize : text.utf8ByteSize = (bytesOf text.toList).length := by
      rw [length_bytesOf, byteLength_toList]
    have hindex : index = (upTo offset text.toList).count '\n' := lineIndex_eq text offset
    rw [hindex, toUTF8_eq, hsize, ← List.take_take, List.take_length, bytes_count]
  · obtain ⟨line, piece, hline, hpiece, htext, _, hstart⟩ := exists_piece text offset
    refine ⟨line, piece, hline, hpiece, htext, hstart, line.column_eq_countP offset,
      fun k hk hoffset => ?_⟩
    have hcolumn : line.column offset = k := by rw [hoffset, line.column_offset hk]
    exact ⟨hcolumn, by rw [hcolumn, ← hoffset]⟩

-- A line end is on the line that it ends, as the carriage return before it is.
example : lineIndex (Line.ofText "é\r\n@") 3 = 0 := by decide +kernel
example : lineIndex (Line.ofText "é\r\n@") 4 = 1 := by decide +kernel

end Calculator
