import Calculator.Proofs.Diagnostic.Counting
import Calculator.Proofs.Diagnostic.Snippet

/-
  The layout of a snippet with labels in any number and order. What is shown is a list of
  groups: a line, and the labels that start on it. The labels come by their lines, so that
  the loop that shows a line when it is not the one above finds each line once; and they
  are sorted without a change among those on one line, so that a group has its labels in
  the order in which they were added.

  What is proved:
    1. `onLine_sorted` — the labels on a line keep their order.
    2. `width_pos`, `column_add_width_le` — the marks of a label, whatever its span.
    3. `rowsFrom_some`, `rowsFrom_eq` — the loop shows groups.
    4. `layout_groups`, `render_layout` — the groups of the labels, in a whole diagnostic.
-/

namespace Calculator.Diagnostic

/-! ## The order of labels -/

section

variable (text : List Char) (labels : List Label)

theorem notBelow_trans (a b c : Label) (hab : notBelow text a b = true)
    (hbc : notBelow text b c = true) : notBelow text a c = true :=
  decide_eq_true (Nat.le_trans (of_decide_eq_true hab) (of_decide_eq_true hbc))

theorem notBelow_total (a b : Label) : (notBelow text a b || notBelow text b a) = true := by
  simp only [notBelow, Bool.or_eq_true, decide_eq_true_eq]
  exact Nat.le_total _ _

theorem sorted_perm : (sorted text labels).Perm labels := List.mergeSort_perm _ _

theorem sorted_increasing :
    (sorted text labels).Pairwise fun a b => numberOf text a ≤ numberOf text b :=
  (List.pairwise_mergeSort (notBelow_trans text) (notBelow_total text) labels).imp
    of_decide_eq_true

/-- The labels that start on a line. -/
def onLine (n : Nat) : List Label := labels.filter (numberOf text · = n)

/-- The labels that start on other lines. -/
def elsewhere (n : Nat) : List Label := labels.filter (numberOf text · ≠ n)

/-- The labels on a line keep their order. -/
theorem onLine_sorted (n : Nat) : onLine text (sorted text labels) n = onLine text labels n := by
  have hlevel : (onLine text labels n).Pairwise (notBelow text · ·) := by
    refine List.pairwise_of_forall_mem_list fun a ha b hb => ?_
    have ha := of_decide_eq_true (List.mem_filter.mp ha).2
    have hb := of_decide_eq_true (List.mem_filter.mp hb).2
    exact decide_eq_true (by omega)
  have hsublist := List.sublist_mergeSort (notBelow_trans text) (notBelow_total text) hlevel
    List.filter_sublist
  have hfilter := hsublist.filter (numberOf text · = n)
  rw [onLine, List.filter_filter] at hfilter
  simp only [Bool.and_self] at hfilter
  exact (hfilter.eq_of_length ((sorted_perm text labels).filter _).length_eq.symm).symm

variable {text} {labels}

theorem mem_onLine {label : Label} {n : Nat} :
    label ∈ onLine text labels n ↔ label ∈ labels ∧ numberOf text label = n := by
  simp [onLine]

theorem mem_elsewhere {label : Label} {n : Nat} :
    label ∈ elsewhere text labels n ↔ label ∈ labels ∧ numberOf text label ≠ n := by
  simp [elsewhere]

theorem onLine_cons_of_eq {label : Label} {n : Nat} (h : numberOf text label = n) :
    onLine text (label :: labels) n = label :: onLine text labels n :=
  List.filter_cons_of_pos (decide_eq_true h)

theorem elsewhere_cons_of_eq {label : Label} {n : Nat} (h : numberOf text label = n) :
    elsewhere text (label :: labels) n = elsewhere text labels n :=
  List.filter_cons_of_neg (by simpa using h)

theorem onLine_eq_nil {n : Nat} (h : ∀ label ∈ labels, numberOf text label ≠ n) :
    onLine text labels n = [] :=
  List.filter_eq_nil_iff.mpr fun label hlabel => by simpa using h label hlabel

theorem elsewhere_eq_self {n : Nat} (h : ∀ label ∈ labels, numberOf text label ≠ n) :
    elsewhere text labels n = labels :=
  List.filter_eq_self.mpr fun label hlabel => decide_eq_true (h label hlabel)

theorem onLine_elsewhere {m n : Nat} (h : m ≠ n) :
    onLine text (elsewhere text labels n) m = onLine text labels m := by
  rw [onLine, elsewhere, List.filter_filter]
  refine List.filter_congr fun label _ => ?_
  by_cases hm : numberOf text label = m <;> simp [hm, h]

theorem onLine_append_elsewhere_perm (n : Nat) :
    (onLine text labels n ++ elsewhere text labels n).Perm labels := by
  have helsewhere : elsewhere text labels n = labels.filter fun label =>
      !decide (numberOf text label = n) := List.filter_congr fun label _ => by simp
  rw [helsewhere]
  exact List.filter_append_perm _ labels

end

/-! ## Marks -/

theorem column_le (text : List Char) (offset : Nat) :
    (locate text offset).column ≤ (locate text offset).line.length :=
  Nat.min_le_right _ _

/-- The line of a number is shown as it stands in the text. -/
theorem line_eq (source : String) (offset : Nat) :
    (source.toList.splitOn '\n')[(locate source.toList offset).number - 1]?.map
      (·.rdropWhile (· == '\r')) = some (locate source.toList offset).line := by
  obtain ⟨line, piece, _, hpiece, htext, hline, _⟩ := exists_piece source offset
  rw [← lineIndex_eq, hpiece, ← hline, htext]
  rfl

theorem line_eq_of_number {source : String} {offset offset' : Nat}
    (h : (locate source.toList offset).number = (locate source.toList offset').number) :
    (locate source.toList offset).line = (locate source.toList offset').line := by
  have hline := line_eq source offset
  rw [h, line_eq] at hline
  exact (Option.some.inj hline).symm

theorem width_pos (span : Span) (text : List Char) : 0 < span.width text :=
  Nat.lt_of_lt_of_le Nat.one_pos (Nat.le_max_left _ _)

/-- The marks of a label end at most one column after its line. -/
theorem column_add_width_le (span : Span) (source : String) :
    (locate source.toList span.start).column + span.width source.toList ≤
      (locate source.toList span.start).line.length + 1 := by
  have hstart := column_le source.toList span.start
  have hstop : (if (locate source.toList span.stop).number = (locate source.toList span.start).number
      then (locate source.toList span.stop).column
      else (locate source.toList span.start).line.length) ≤
      (locate source.toList span.start).line.length := by
    split
    · next hsame =>
      rw [← line_eq_of_number hsame]
      exact column_le source.toList span.stop
    · exact Nat.le_refl _
  simp only [Span.width]
  omega

/-! ## Numbers -/

theorem length_toString_mono {m n : Nat} (h : m ≤ n) : (toString m).length ≤ (toString n).length := by
  have hlength (k : Nat) : (toString k).length = (Nat.toDigits 10 k).length := by
    simp [Nat.repr]
  have hpos : 0 < (Nat.toDigits 10 n).length := List.length_pos_iff.mpr Nat.toDigits_ne_nil
  rw [hlength, hlength, Nat.length_toDigits_le_iff (by decide) hpos]
  have hn := (Nat.length_toDigits_le_iff (by decide) hpos).mp (Nat.le_refl _)
  omega

theorem le_lastNumber {text : List Char} {labels : List Label} {label : Label}
    (h : label ∈ labels) : numberOf text label ≤ lastNumber text labels := by
  have hmem : label ∈ sorted text labels := (sorted_perm text labels).mem_iff.mpr h
  have hincreasing := sorted_increasing text labels
  rw [lastNumber]
  cases hlast : (sorted text labels).getLast? with
  | none => simp [List.getLast?_eq_none_iff.mp hlast] at hmem
  | some last =>
    obtain ⟨before, hbefore⟩ := List.getLast?_eq_some_iff.mp hlast
    rw [hbefore] at hmem hincreasing
    rcases List.mem_append.mp hmem with hmem | hmem
    · exact (List.pairwise_append.mp hincreasing).2.2 label hmem last (List.mem_singleton_self _)
    · rw [List.mem_singleton.mp hmem]
      exact Nat.le_refl _

/-! ## Groups -/

/-- A line that is shown, and the labels beneath it. -/
structure Group where
  line : Location
  labels : List Label

def Group.rows (text : List Char) (gutter : Nat) (g : Group) : String :=
  g.line.shown gutter ++ String.join (g.labels.map (·.marked text gutter))

/-- The labels that start on the line of the first, and the groups of the others. -/
def groups (text : List Char) : List Label → List Group
  | [] => []
  | label :: rest =>
    ⟨locate text label.span.start, label :: onLine text rest (numberOf text label)⟩ ::
      groups text (elsewhere text rest (numberOf text label))
termination_by labels => labels.length
decreasing_by exact Nat.lt_succ_of_le (List.length_filter_le _ _)

section

variable {text : List Char} {labels : List Label} {gutter : Nat}

theorem exists_label {g : Group} (h : g ∈ groups text labels) :
    ∃ label ∈ labels, g.line = locate text label.span.start := by
  fun_induction groups text labels with
  | case1 => cases h
  | case2 label rest ih =>
    rcases List.mem_cons.mp h with rfl | h
    · exact ⟨label, List.mem_cons_self .., rfl⟩
    · obtain ⟨other, hother, hline⟩ := ih h
      exact ⟨other, List.mem_cons_of_mem _ (mem_elsewhere.mp hother).1, hline⟩

theorem exists_group {label : Label} (h : label ∈ labels) :
    ∃ g ∈ groups text labels, g.line.number = numberOf text label := by
  fun_induction groups text labels with
  | case1 => cases h
  | case2 first rest ih =>
    by_cases hsame : numberOf text label = numberOf text first
    · exact ⟨_, List.mem_cons_self .., hsame.symm⟩
    · have hrest : label ∈ rest := List.mem_of_ne_of_mem (fun heq => hsame (heq ▸ rfl)) h
      obtain ⟨g, hg, hnumber⟩ := ih (mem_elsewhere.mpr ⟨hrest, hsame⟩)
      exact ⟨g, List.mem_cons_of_mem _ hg, hnumber⟩

theorem labels_eq_onLine {g : Group} (h : g ∈ groups text labels) :
    g.labels = onLine text labels g.line.number := by
  fun_induction groups text labels with
  | case1 => cases h
  | case2 label rest ih =>
    rcases List.mem_cons.mp h with rfl | h
    · exact (onLine_cons_of_eq rfl).symm
    · obtain ⟨other, hother, hline⟩ := exists_label h
      have hne : g.line.number ≠ numberOf text label := by
        rw [hline]
        exact (mem_elsewhere.mp hother).2
      rw [ih h, onLine_elsewhere hne, onLine, onLine, List.filter_cons_of_neg]
      simpa using hne.symm

theorem groups_perm : ((groups text labels).flatMap (·.labels)).Perm labels := by
  fun_induction groups text labels with
  | case1 => exact List.Perm.refl []
  | case2 label rest ih =>
    rw [List.flatMap_cons, List.cons_append]
    exact ((ih.append_left _).trans (onLine_append_elsewhere_perm _)).cons label

theorem groups_increasing (h : labels.Pairwise fun a b => numberOf text a ≤ numberOf text b) :
    (groups text labels).Pairwise fun a b => a.line.number < b.line.number := by
  fun_induction groups text labels with
  | case1 => exact List.Pairwise.nil
  | case2 label rest ih =>
    obtain ⟨hfirst, hrest⟩ := List.pairwise_cons.mp h
    refine List.pairwise_cons.mpr ⟨fun g hg => ?_, ih (hrest.filter _)⟩
    obtain ⟨other, hother, hline⟩ := exists_label hg
    obtain ⟨hmem, hne⟩ := mem_elsewhere.mp hother
    rw [hline]
    exact Nat.lt_of_le_of_ne (hfirst other hmem) hne.symm

/-! ## The loop -/

/-- Below a line that is shown, its labels come first, and a new line after them. -/
theorem rowsFrom_some {n : Nat} (hn : ∀ label ∈ labels, n ≤ numberOf text label)
    (h : labels.Pairwise fun a b => numberOf text a ≤ numberOf text b) :
    rowsFrom text gutter (some n) labels =
      String.join ((onLine text labels n).map (·.marked text gutter)) ++
        rowsFrom text gutter none (elsewhere text labels n) := by
  induction labels with
  | nil => rfl
  | cons label rest ih =>
    obtain ⟨hfirst, hrest⟩ := List.pairwise_cons.mp h
    by_cases hsame : numberOf text label = n
    · have hmore := ih (fun other hother => hn other (List.mem_cons_of_mem _ hother)) hrest
      rw [onLine_cons_of_eq hsame, elsewhere_cons_of_eq hsame, rowsFrom, hsame, if_pos rfl, hmore]
      simp [String.append_assoc]
    · have hlater : ∀ other ∈ label :: rest, numberOf text other ≠ n := fun other hother => by
        have hlabel := hn label (List.mem_cons_self ..)
        rcases List.mem_cons.mp hother with rfl | hother
        · exact hsame
        · have := hfirst other hother
          omega
      rw [onLine_eq_nil hlater, elsewhere_eq_self hlater, rowsFrom, rowsFrom,
        if_neg fun heq => hsame (Option.some.inj heq).symm, if_neg (Option.some_ne_none _).symm]
      simp

theorem rowsFrom_eq (h : labels.Pairwise fun a b => numberOf text a ≤ numberOf text b) :
    rowsFrom text gutter none labels =
      String.join ((groups text labels).map (·.rows text gutter)) := by
  fun_induction groups text labels with
  | case1 => rfl
  | case2 label rest ih =>
    obtain ⟨hfirst, hrest⟩ := List.pairwise_cons.mp h
    rw [rowsFrom, rowsFrom_some hfirst hrest, ih (hrest.filter _)]
    simp [Group.rows, String.append_assoc]

end

/-! ## Diagnostics -/

/-- The layout of the labels of a source in groups, beside a gutter. -/
structure Layout (source : String) (labels : List Label) (gutter : Nat) (groups : List Group) :
    Prop where
  /-- The lines come from top to bottom, and each once. -/
  increasing : groups.Pairwise fun a b => a.line.number < b.line.number
  /-- A line is shown where a label starts on it. -/
  lines : ∀ n, (∃ g ∈ groups, g.line.number = n) ↔
    ∃ label ∈ labels, numberOf source.toList label = n
  /-- A line is shown as it stands in the source, but for the carriage returns at its end. -/
  text : ∀ g ∈ groups, (source.toList.splitOn '\n')[g.line.number - 1]?.map
    (·.rdropWhile (· == '\r')) = some g.line.line
  /-- A label is under the line that it starts on, in the order in which it was added. -/
  beneath : ∀ g ∈ groups, g.labels = onLine source.toList labels g.line.number
  /-- No label is lost, and none is shown twice. -/
  once : (groups.flatMap (·.labels)).Perm labels
  /-- The number of a line is no wider than the gutter. -/
  fits : ∀ g ∈ groups, (toString g.line.number).length ≤ gutter
  /-- A label has at least one mark, and its marks start on the line that is shown above
      them or where it ends, and end at most one column after it. -/
  marks : ∀ g ∈ groups, ∀ label ∈ g.labels,
    0 < label.span.width source.toList ∧
    (locate source.toList label.span.start).column ≤ g.line.line.length ∧
    (locate source.toList label.span.start).column + label.span.width source.toList ≤
      g.line.line.length + 1

/-- The groups of the labels of a source in the order of their lines. -/
theorem layout_groups (source : String) (labels : List Label) {gutter : Nat}
    (h : gutter = (toString (lastNumber source.toList labels)).length) :
    Layout source labels gutter (groups source.toList (sorted source.toList labels)) where
  increasing := groups_increasing (sorted_increasing _ _)
  lines n := by
    constructor
    · rintro ⟨g, hg, rfl⟩
      obtain ⟨label, hlabel, hline⟩ := exists_label hg
      exact ⟨label, (sorted_perm _ _).mem_iff.mp hlabel, congrArg Location.number hline.symm⟩
    · rintro ⟨label, hlabel, rfl⟩
      exact exists_group ((sorted_perm _ _).mem_iff.mpr hlabel)
  text g hg := by
    obtain ⟨label, _, hline⟩ := exists_label hg
    rw [hline]
    exact line_eq source label.span.start
  beneath g hg := by rw [labels_eq_onLine hg, onLine_sorted]
  once := groups_perm.trans (sorted_perm _ _)
  fits g hg := by
    obtain ⟨label, hlabel, hline⟩ := exists_label hg
    have hlast : numberOf source.toList label ≤ lastNumber source.toList labels :=
      le_lastNumber ((sorted_perm _ _).mem_iff.mp hlabel)
    rw [h, hline]
    exact length_toString_mono hlast
  marks g hg label hlabel := by
    rw [labels_eq_onLine hg] at hlabel
    obtain ⟨other, _, hother⟩ := exists_label hg
    have hline : g.line.line = (locate source.toList label.span.start).line := by
      have hnumber : numberOf source.toList label = g.line.number := (mem_onLine.mp hlabel).2
      rw [hother] at hnumber ⊢
      exact (line_eq_of_number hnumber).symm
    rw [hline]
    exact ⟨width_pos _ _, column_le _ _, column_add_width_le _ _⟩

/-- Between two bare rows a diagnostic shows the lines on which its labels start, each with
    its labels beneath, whatever the offsets of the labels are. -/
theorem render_layout {d : Diagnostic} (hsource : d.source ≠ "") (hlabels : d.labels ≠ []) :
    ∃ gutter groups, Layout d.source d.labels gutter groups ∧
      d.render = s!"error: {d.message}\n" ++
        (bare gutter ++ String.join (groups.map (·.rows d.source.toList gutter)) ++ bare gutter) ++
        String.join (d.notes.map fun note => s!"  = note: {note}\n") ++
        (match d.help with
          | some help => s!"  = help: {help}\n"
          | none => "") := by
  refine ⟨_, _, layout_groups d.source d.labels rfl, ?_⟩
  have hshown : (d.source.isEmpty || d.labels.isEmpty) = false := by simp [hsource, hlabels]
  rw [render, hshown, ← rowsFrom_eq (sorted_increasing _ _), ← snippet_eq d rfl]
  rfl

/-- Labels that are not in the order of their lines: at an offset after the end and back
    from it, within a character, back to the line above, and on to the line below. -/
theorem render_layout_scattered :
    let d : Diagnostic :=
      { message := "scattered"
        source := "é\r\n@@\n"
        labels := [⟨⟨100, 2⟩, "beyond", true⟩, ⟨⟨1, 1⟩, "", false⟩, ⟨⟨5, 3⟩, "back", true⟩,
          ⟨⟨0, 4⟩, "on", false⟩] }
    d.source ≠ "" ∧ d.labels ≠ [] ∧
      (∃ gutter groups, Layout d.source d.labels gutter groups ∧
        ∃ g ∈ groups, g.line.number = 1 ∧
          g.labels = [⟨⟨1, 1⟩, "", false⟩, ⟨⟨0, 4⟩, "on", false⟩]) ∧
      d.render = "error: scattered\n  |\n1 | é\n  |  -\n  | - on\n" ++
        "2 | @@\n  |  ^ back\n3 | \n  | ^ beyond\n  |\n" := by
  intro d
  have hsource : d.source ≠ "" := by decide
  have hlabels : d.labels ≠ [] := by simp [d]
  obtain ⟨gutter, groups, hlayout, _⟩ := render_layout hsource hlabels
  obtain ⟨g, hg, hnumber⟩ := (hlayout.lines 1).mpr ⟨⟨⟨1, 1⟩, "", false⟩, by simp [d], by decide⟩
  have hbeneath := hlayout.beneath g hg
  rw [hnumber] at hbeneath
  have hsorted : sorted d.source.toList d.labels =
      [⟨⟨1, 1⟩, "", false⟩, ⟨⟨0, 4⟩, "on", false⟩, ⟨⟨5, 3⟩, "back", true⟩,
        ⟨⟨100, 2⟩, "beyond", true⟩] := by
    have hnumbers : numberOf d.source.toList ⟨⟨100, 2⟩, "beyond", true⟩ = 3 ∧
        numberOf d.source.toList ⟨⟨1, 1⟩, "", false⟩ = 1 ∧
        numberOf d.source.toList ⟨⟨5, 3⟩, "back", true⟩ = 2 ∧
        numberOf d.source.toList ⟨⟨0, 4⟩, "on", false⟩ = 1 := by decide
    have hgiven : d.labels = [⟨⟨100, 2⟩, "beyond", true⟩, ⟨⟨1, 1⟩, "", false⟩,
      ⟨⟨5, 3⟩, "back", true⟩, ⟨⟨0, 4⟩, "on", false⟩] := rfl
    rw [hgiven]
    simp [sorted, notBelow, hnumbers, List.mergeSort, List.MergeSort.Internal.splitInTwo]
  refine ⟨hsource, hlabels, ⟨gutter, groups, hlayout, g, hg, hnumber, hbeneath.trans ?_⟩, ?_⟩
  · decide
  · rw [render, snippet_eq d rfl, lastNumber, hsorted]
    decide +kernel

end Calculator.Diagnostic
