import Calculator.Span

/-
  A message shown with the lines of the text it is about, the places it
  speaks of underlined:

    error: unclosed bracket
      |
    1 | 3 * (4 +
      |     - opened here
    2 |   5
      |    ^
      |

  Columns count characters, places count bytes. A place past the end of a line
  is at the end of it, a place inside a character is after it, and an empty
  or reversed span is underlined by one mark.
-/

namespace Calculator

/-! ## Lines of a text -/

/-- The pieces of a text between line ends. -/
def splitLines : List Char → List (List Char)
  | [] => [[]]
  | c :: cs =>
    if c = '\n' then [] :: splitLines cs
    else
      match splitLines cs with
      | [] => [[c]]
      | line :: lines => (c :: line) :: lines

/-- A line as it is shown, without the carriage returns at its end, and the
    offset at which it starts. -/
structure Line where
  start : Nat
  text : List Char
  deriving DecidableEq, Repr

/-- The shown lines, given where the first starts. -/
def placeLines (start : Nat) : List (List Char) → List Line
  | [] => []
  | line :: rest =>
    ⟨start, (line.reverse.dropWhile (· == '\r')).reverse⟩ ::
      placeLines (start + byteLength line + 1) rest

def Line.ofText (text : String) : List Line := placeLines 0 (splitLines text.toList)

/-- Where the elements that satisfy a predicate end, if none comes after one that does
    not. It is searched for by halving. -/
def partitionPoint {α : Type} (p : α → Bool) (xs : List α) : Nat :=
  match h : xs.drop (xs.length / 2) with
  | [] => 0
  | middle :: later =>
    if p middle then xs.length / 2 + 1 + partitionPoint p later
    else partitionPoint p (xs.take (xs.length / 2))
termination_by xs.length
decreasing_by
  all_goals
    have hlength := congrArg List.length h
    simp only [List.length_drop, List.length_cons, List.length_take] at hlength ⊢
    omega

/-- The index of the line that an offset is on: the last that starts at or
    before it. -/
def lineIndex (lines : List Line) (offset : Nat) : Nat :=
  partitionPoint (·.start ≤ offset) lines - 1

/-- The number of characters that start before an offset, the first at
    `start`. -/
def charsBefore (offset start : Nat) : List Char → Nat
  | [] => 0
  | c :: cs => if start < offset then charsBefore offset (start + c.utf8Size) cs + 1 else 0

/-- The column of an offset on a line. -/
def Line.column (line : Line) (offset : Nat) : Nat := charsBefore offset line.start line.text

/-! ## Diagnostics -/

/-- An underlined place. The primary ones are where the error is, the others
    what it refers back to. -/
structure Label where
  span : Span
  message : String
  primary : Bool
  deriving DecidableEq, Repr

structure Diagnostic where
  message : String
  source : String := ""
  labels : List Label := []
  notes : List String := []
  help : Option String := none
  deriving DecidableEq, Repr

/-- The columns where the underline of a label starts and ends on a line. It
    ends with the line if the label ends on another one. -/
def Label.columns (label : Label) (lines : List Line) (index : Nat) (line : Line) : Nat × Nat :=
  let start := line.column label.span.start
  let stop :=
    if lineIndex lines label.span.stop = index then line.column label.span.stop
    else line.text.length
  (start, max stop (start + 1))

def spaces (n : Nat) : String := "".pushn ' ' n

/-- The row that underlines a label. -/
def Label.underline (label : Label) (gutter : Nat) (lines : List Line) (index : Nat)
    (line : Line) : String :=
  let (start, stop) := label.columns lines index line
  let marks := "".pushn (if label.primary then '^' else '-') (stop - start)
  let note := if label.message.isEmpty then "" else " " ++ label.message
  spaces gutter ++ " | " ++ spaces start ++ marks ++ note ++ "\n"

/-- The row that shows a line, under its number. -/
def Line.row (line : Line) (gutter index : Nat) : String :=
  let number := toString (index + 1)
  spaces (gutter - number.length) ++ number ++ " | " ++ String.ofList line.text ++ "\n"

namespace Diagnostic

/-- The labels with the lines that they start on, from top to bottom. Those on one line
    stay in the order in which they were added. -/
def placed (lines : List Line) (labels : List Label) : List (Nat × Label) :=
  (labels.map fun label => (lineIndex lines label.span.start, label)).mergeSort
    fun a b => a.1 ≤ b.1

/-- The rows of labels, given which line is shown above them. A label on another line
    comes after that line. -/
def rows (gutter : Nat) (lines : List Line) : Option Nat → List (Nat × Label) → String
  | _, [] => ""
  | shown, (index, label) :: rest =>
    match lines[index]? with
    | none => "" -- no label starts on a line that is not there
    | some line =>
      (if shown = some index then "" else line.row gutter index) ++
        label.underline gutter lines index line ++ rows gutter lines (some index) rest

/-- The row above the lines that are shown, and the row below them. -/
def bare (gutter : Nat) : String := spaces gutter ++ " |\n"

/-- The lines on which labels start, each with its labels beneath. -/
def snippet (d : Diagnostic) : String :=
  let lines := Line.ofText d.source
  let labels := placed lines d.labels
  let last := (labels.getLast?.map (·.1)).getD 0
  -- numbers are shown from 1 on
  let gutter := (toString (last + 1)).length
  bare gutter ++ rows gutter lines none labels ++ bare gutter

/-- The whole text of a diagnostic. Without a source or without labels there
    is no snippet. -/
def render (d : Diagnostic) : String :=
  s!"error: {d.message}\n" ++
    (if d.source.isEmpty || d.labels.isEmpty then "" else d.snippet) ++
    String.join (d.notes.map fun note => s!"  = note: {note}\n") ++
    match d.help with
    | some help => s!"  = help: {help}\n"
    | none => ""

end Diagnostic

end Calculator
