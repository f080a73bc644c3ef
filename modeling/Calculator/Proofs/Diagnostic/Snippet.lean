import Calculator.Proofs.Diagnostic.Location

/-
  The rows of a snippet, by the locations of what it marks. A label is shown under its
  line, from its column on, and the labels come from top to bottom, so that a line is
  shown once for all labels that start on it.

  What is proved:
    1. `row_eq_shown`, `underline_eq_marked` — the rows of a line and of a label.
    2. `placed_eq`, `rows_eq`, `snippet_eq` — the rows of labels in the order of their lines.
    3. `snippet_single`, `snippet_pair` — the snippets of one label and of two.
-/

namespace Calculator

/-! ## Rows -/

/-- The row that shows a line, under its number. -/
def Location.shown (l : Location) (gutter : Nat) : String :=
  spaces (gutter - (toString l.number).length) ++ toString l.number ++ " | " ++
    String.ofList l.line ++ "\n"

/-- The row that marks a column and those after it, and says why. -/
def Location.marked (l : Location) (gutter : Nat) (mark : Char) (width : Nat) (note : String) :
    String :=
  spaces gutter ++ " | " ++ spaces l.column ++ "".pushn mark width ++ note ++ "\n"

/-- How far the marks of a span go: to its end, or to the end of the line if the span
    ends on another one, and at least over one column. -/
def Span.width (span : Span) (text : List Char) : Nat :=
  let start := locate text span.start
  let stop := locate text span.stop
  max 1 ((if stop.number = start.number then stop.column else start.line.length) - start.column)

/-- The row of a label. -/
def Label.marked (label : Label) (text : List Char) (gutter : Nat) : String :=
  (locate text label.span.start).marked gutter (if label.primary then '^' else '-')
    (label.span.width text) (if label.message.isEmpty then "" else " " ++ label.message)

theorem number_eq (text : String) (offset : Nat) :
    (locate text.toList offset).number = lineIndex (Line.ofText text) offset + 1 := by
  rw [lineIndex_eq]
  rfl

variable {text : String}

theorem row_eq_shown (gutter : Nat) {offset : Nat} {line : Line}
    (h : (Line.ofText text)[lineIndex (Line.ofText text) offset]? = some line) :
    line.row gutter (lineIndex (Line.ofText text) offset) =
      (locate text.toList offset).shown gutter := by
  obtain ⟨found, hfound, htext, _⟩ := exists_line text offset
  obtain rfl : line = found := Option.some.inj (h.symm.trans hfound)
  rw [Line.row, Location.shown, number_eq, htext]

theorem underline_eq_marked (gutter : Nat) (label : Label) {line : Line}
    (h : (Line.ofText text)[lineIndex (Line.ofText text) label.span.start]? = some line) :
    label.underline gutter (Line.ofText text)
        (lineIndex (Line.ofText text) label.span.start) line =
      label.marked text.toList gutter := by
  obtain ⟨found, hfound, htext, hstart⟩ := exists_line text label.span.start
  obtain rfl : line = found := Option.some.inj (h.symm.trans hfound)
  have hnumbers : (locate text.toList label.span.stop).number =
        (locate text.toList label.span.start).number ↔
      lineIndex (Line.ofText text) label.span.stop =
        lineIndex (Line.ofText text) label.span.start := by
    rw [number_eq, number_eq, Nat.add_right_cancel_iff]
  have hstop : (if lineIndex (Line.ofText text) label.span.stop =
        lineIndex (Line.ofText text) label.span.start then line.column label.span.stop
        else line.text.length) =
      if (locate text.toList label.span.stop).number = (locate text.toList label.span.start).number
        then (locate text.toList label.span.stop).column
        else (locate text.toList label.span.start).line.length := by
    rw [htext]
    refine if_ctx_congr hnumbers.symm (fun hsame => ?_) fun _ => rfl
    obtain ⟨other, hother, _, hcolumn⟩ := exists_line text label.span.stop
    rw [hnumbers.mp hsame, h] at hother
    rw [Option.some.inj hother, hcolumn]
  have hwidth (a b : Nat) : max b (a + 1) - a = max 1 (b - a) := by omega
  simp only [Label.underline, Label.columns, Label.marked, Location.marked, Span.width, hstart,
    hstop, hwidth]

namespace Diagnostic

/-! ## Labels from top to bottom -/

section

variable {source : String} {labels : List Label}

/-- The number of the line that a label starts on. -/
def numberOf (text : List Char) (label : Label) : Nat := (locate text label.span.start).number

/-- Whether a label starts on the line of another or on one above it. -/
def notBelow (text : List Char) (a b : Label) : Bool := numberOf text a ≤ numberOf text b

/-- Labels by the lines that they start on, and on one line in the order in which they
    were added. -/
def sorted (text : List Char) (labels : List Label) : List Label :=
  labels.mergeSort (notBelow text)

theorem placed_eq : placed (Line.ofText source) labels =
    (sorted source.toList labels).map fun label =>
      (lineIndex (Line.ofText source) label.span.start, label) := by
  refine (List.map_mergeSort fun a _ b _ => ?_).symm
  rw [notBelow, numberOf, numberOf, number_eq, number_eq, decide_eq_decide,
    Nat.add_le_add_iff_right]

/-- The number that the gutter has room for: that of the last line. -/
def lastNumber (text : List Char) (labels : List Label) : Nat :=
  ((sorted text labels).getLast?.map (numberOf text)).getD 1

/-- The rows of labels, given the number of the line shown above them. -/
def rowsFrom (text : List Char) (gutter : Nat) : Option Nat → List Label → String
  | _, [] => ""
  | shown, label :: rest =>
    (if shown = some (numberOf text label) then ""
      else (locate text label.span.start).shown gutter) ++
      label.marked text gutter ++ rowsFrom text gutter (some (numberOf text label)) rest

/-- Every label starts on a line that is there, and the rows are those that counting gives. -/
theorem rows_eq (gutter : Nat) (shown : Option Nat) :
    rows gutter (Line.ofText source) shown
        (labels.map fun label => (lineIndex (Line.ofText source) label.span.start, label)) =
      rowsFrom source.toList gutter (shown.map (· + 1)) labels := by
  induction labels generalizing shown with
  | nil => rfl
  | cons label rest ih =>
    obtain ⟨line, hline, _⟩ := exists_line source label.span.start
    have hsame : shown = some (lineIndex (Line.ofText source) label.span.start) ↔
        shown.map (· + 1) = some (numberOf source.toList label) := by
      rw [numberOf, number_eq]
      cases shown <;> simp
    simp only [List.map_cons, rows, rowsFrom, hline, ih, hsame, row_eq_shown gutter hline,
      underline_eq_marked gutter label hline, Option.map_some, numberOf, number_eq]

end

/-! ## Snippets -/

theorem snippet_eq (d : Diagnostic) {gutter : Nat}
    (h : gutter = (toString (lastNumber d.source.toList d.labels)).length) :
    d.snippet = bare gutter ++
      rowsFrom d.source.toList gutter none (sorted d.source.toList d.labels) ++ bare gutter := by
  have hlast : ((placed (Line.ofText d.source) d.labels).getLast?.map (·.1)).getD 0 + 1 =
      lastNumber d.source.toList d.labels := by
    rw [placed_eq, lastNumber, List.getLast?_map]
    cases (sorted d.source.toList d.labels).getLast? with
    | none => rfl
    | some label => exact (number_eq d.source label.span.start).symm
  rw [snippet]
  simp only [hlast, ← h]
  rw [placed_eq, rows_eq]
  rfl

theorem sorted_single (text : List Char) (label : Label) : sorted text [label] = [label] :=
  List.mergeSort_singleton label

theorem snippet_single {d : Diagnostic} {label : Label} (h : d.labels = [label]) :
    let here := locate d.source.toList label.span.start
    let gutter := (toString here.number).length
    d.snippet = bare gutter ++
      (here.shown gutter ++ label.marked d.source.toList gutter) ++ bare gutter := by
  intro here gutter
  have hgutter : gutter = (toString (lastNumber d.source.toList d.labels)).length := by
    rw [h, lastNumber, sorted_single]
    rfl
  rw [snippet_eq d hgutter, h, sorted_single]
  simp [rowsFrom, here]

theorem sorted_pair (text : List Char) (label related : Label) :
    sorted text [label, related] =
      if numberOf text label ≤ numberOf text related then [label, related]
      else [related, label] := by
  simp [sorted, notBelow, List.mergeSort, List.MergeSort.Internal.splitInTwo, List.merge]

/-- Two labels, the second of them on the line of the first or before it. -/
theorem snippet_pair {d : Diagnostic} {label related : Label} (h : d.labels = [label, related])
    (hle : (locate d.source.toList related.span.start).number ≤
      (locate d.source.toList label.span.start).number) :
    let here := locate d.source.toList label.span.start
    let there := locate d.source.toList related.span.start
    let gutter := (toString here.number).length
    d.snippet = bare gutter ++
      (if there.number = here.number then
        here.shown gutter ++ label.marked d.source.toList gutter ++
          related.marked d.source.toList gutter
      else
        there.shown gutter ++ related.marked d.source.toList gutter ++
          (here.shown gutter ++ label.marked d.source.toList gutter)) ++ bare gutter := by
  intro here there gutter
  by_cases hsame : there.number = here.number
  · have hsorted : sorted d.source.toList [label, related] = [label, related] := by
      rw [sorted_pair]
      exact if_pos (Nat.le_of_eq hsame.symm)
    have hgutter : gutter = (toString (lastNumber d.source.toList d.labels)).length := by
      rw [h, lastNumber, hsorted]
      exact congrArg (fun n => (toString n).length) hsame.symm
    rw [snippet_eq d hgutter, h, hsorted, if_pos hsame]
    simp [rowsFrom, numberOf, here, there, hsame, String.append_assoc]
  · have hsorted : sorted d.source.toList [label, related] = [related, label] := by
      rw [sorted_pair]
      exact if_neg fun hge => hsame (Nat.le_antisymm hle hge)
    have hgutter : gutter = (toString (lastNumber d.source.toList d.labels)).length := by
      rw [h, lastNumber, hsorted]
      rfl
    rw [snippet_eq d hgutter, h, hsorted, if_neg hsame]
    simp [rowsFrom, numberOf, here, there, hsame, String.append_assoc]

end Diagnostic

end Calculator
