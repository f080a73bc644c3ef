import Calculator.Token.Pattern

/-
  The longest match. `first ps s` is the mark of the first pattern of a list
  that describes the whole text `s`; the matcher finds the longest prefix that
  has such a mark.

  What is proved:
    1. `describes_iff` — reading a text one character after the other decides
       whether a pattern describes it.
    2. `longest_eq_some_iff`, `longest_eq_none_iff` — the answer of `longest`
       is the longest prefix that any pattern describes, with the mark of the
       first of them (`IsLongest`), and there is none only if no prefix is
       described.
-/

namespace Calculator.Pattern

/-- Whether the pattern describes the text. -/
def describes (p : Pattern) : List Char → Bool
  | [] => p.matchesEmpty
  | c :: cs => (p.after c).describes cs

theorem describes_iff {p : Pattern} {s : List Char} : p.describes s = true ↔ Matches p s := by
  induction s generalizing p with
  | nil => exact matchesEmpty_iff p
  | cons c cs ih => rw [describes, ih, matches_after]

theorem describes_never (s : List Char) : Pattern.never.describes s = false := by
  rw [Bool.eq_false_iff]
  exact fun h => not_matches_never (describes_iff.mp h)

theorem eq_never_of_isNever {p : Pattern} (h : p.isNever = true) : p = .never := by
  cases p with
  | never => rfl
  | _ => cases h

/-- The mark of the first pattern that describes the text. -/
def first {α : Type} (patterns : List (Pattern × α)) (s : List Char) : Option α :=
  (patterns.find? (·.1.describes s)).map (·.2)

section

variable {α : Type} {patterns : List (Pattern × α)}

theorem first_advance (c : Char) (s : List Char) :
    first (advance c patterns) s = first patterns (c :: s) := by
  induction patterns with
  | nil => rfl
  | cons head tail ih =>
    obtain ⟨p, mark⟩ := head
    simp only [first] at ih
    by_cases hnever : (p.after c).isNever
    · have hnone : (p.after c).describes s = false := by
        rw [eq_never_of_isNever hnever, describes_never]
      simp [first, advance, hnever, describes, hnone] at ih ⊢
      exact ih
    · cases hs : (p.after c).describes s with
      | true => simp [first, advance, hnever, describes, hs]
      | false =>
        simp [first, advance, hnever, describes, hs] at ih ⊢
        exact ih

theorem longest_nil (cs : List Char) : longest ([] : List (Pattern × α)) cs = none := by
  cases cs with
  | nil => rfl
  | cons c cs => rfl

/-- A match of more than one character is preferred to one of the first
    character alone. -/
theorem longest_cons (c : Char) (cs : List Char) :
    longest patterns (c :: cs) =
      ((longest (advance c patterns) cs).map fun found => (found.1 + 1, found.2)).or
        ((first patterns [c]).map fun mark => (1, mark)) := by
  rw [← first_advance]
  simp only [longest]
  split
  · next hempty => simp [List.isEmpty_iff.mp hempty, longest_nil, first]
  · split
    · next n mark hl => simp [hl]
    · next hl => simp [hl, first, describes, Function.comp_def]

/-- A prefix is the first character alone, or with a prefix of the rest. -/
theorem forall_take_cons {P : List Char → Prop} {c : Char} {cs : List Char} :
    (∀ n, 0 < n → n ≤ (c :: cs).length → P ((c :: cs).take n)) ↔
      (∀ n, 0 < n → n ≤ cs.length → P (c :: cs.take n)) ∧ P [c] := by
  constructor
  · intro h
    constructor
    · intro n _ hn
      exact h (n + 1) (by omega) (by simpa using hn)
    · exact h 1 (by omega) (by simp)
  · intro h n hpos hle
    obtain ⟨m, rfl⟩ := Nat.exists_eq_add_of_lt hpos
    rw [Nat.zero_add, List.take_succ_cons]
    rcases Nat.eq_zero_or_pos m with rfl | hm
    · exact h.2
    · exact h.1 m hm (by simpa using hle)

theorem longest_eq_none_iff {cs : List Char} :
    longest patterns cs = none ↔ ∀ n, 0 < n → n ≤ cs.length → first patterns (cs.take n) = none := by
  induction cs generalizing patterns with
  | nil =>
    simp only [longest, List.length_nil, true_iff]
    intro n hpos hle
    omega
  | cons c cs ih =>
    rw [longest_cons, forall_take_cons (P := fun s => first patterns s = none)]
    simp only [Option.or_eq_none_iff, Option.map_eq_none_iff, ih, first_advance]

/-- The prefix of `n` characters is the longest one that any pattern describes,
    and the mark that of the first of them. -/
structure IsLongest (patterns : List (Pattern × α)) (cs : List Char) (n : Nat) (mark : α) :
    Prop where
  pos : 0 < n
  le_length : n ≤ cs.length
  first_eq : first patterns (cs.take n) = some mark
  none_longer : ∀ m, n < m → m ≤ cs.length → first patterns (cs.take m) = none

/-- Of two longest prefixes neither is longer. -/
theorem isLongest_unique {cs : List Char} {n m : Nat} {a b : α} (h : IsLongest patterns cs n a)
    (h' : IsLongest patterns cs m b) : n = m ∧ a = b := by
  rcases Nat.lt_trichotomy n m with hlt | rfl | hlt
  · have hnone := h.none_longer m hlt h'.le_length
    simp [h'.first_eq] at hnone
  · have hmark := h'.first_eq
    rw [h.first_eq] at hmark
    exact ⟨rfl, Option.some.inj hmark⟩
  · have hnone := h'.none_longer n hlt h.le_length
    simp [h.first_eq] at hnone

theorem isLongest_cons {c : Char} {cs : List Char} {n : Nat} {mark : α}
    (h : IsLongest (advance c patterns) cs n mark) :
    IsLongest patterns (c :: cs) (n + 1) mark where
  pos := Nat.succ_pos n
  le_length := Nat.succ_le_succ h.le_length
  first_eq := by rw [List.take_succ_cons, ← first_advance, h.first_eq]
  none_longer := by
    intro m hm hle
    obtain ⟨k, rfl⟩ := Nat.exists_eq_add_of_lt hm
    rw [List.take_succ_cons, ← first_advance]
    exact h.none_longer _ (by omega) (by simpa using hle)

theorem longest_eq_some_iff {cs : List Char} {n : Nat} {mark : α} :
    longest patterns cs = some (n, mark) ↔ IsLongest patterns cs n mark := by
  induction cs generalizing patterns n mark with
  | nil =>
    constructor
    · intro h
      cases h
    · intro h
      exact absurd (Nat.lt_of_lt_of_le h.pos h.le_length) (Nat.lt_irrefl 0)
  | cons c cs ih =>
    rw [longest_cons]
    cases hl : longest (advance c patterns) cs with
    | some found =>
      obtain ⟨k, r⟩ := found
      have hthis : IsLongest patterns (c :: cs) (k + 1) r := isLongest_cons (ih.mp hl)
      constructor
      · intro h
        cases h
        exact hthis
      · intro h
        obtain ⟨rfl, rfl⟩ := isLongest_unique hthis h
        rfl
    | none =>
      -- no prefix of more than one character has a mark
      have hno : ∀ m, 1 < m → m ≤ (c :: cs).length → first patterns ((c :: cs).take m) = none := by
        intro m hm hle
        obtain ⟨k, rfl⟩ := Nat.exists_eq_add_of_lt hm
        rw [List.take_succ_cons, ← first_advance]
        exact longest_eq_none_iff.mp hl _ (by omega) (by simpa using hle)
      simp only [Option.map_none, Option.none_or, Option.map_eq_some_iff, Prod.mk.injEq]
      constructor
      · intro h
        obtain ⟨r, hr, rfl, rfl⟩ := h
        exact ⟨Nat.one_pos, by simp, by simpa using hr, hno⟩
      · intro h
        rcases Nat.lt_or_ge 1 n with hlt | hle
        · have hnone := hno n hlt h.le_length
          simp [h.first_eq] at hnone
        · obtain rfl : n = 1 := Nat.le_antisymm hle h.pos
          exact ⟨mark, by simpa using h.first_eq, rfl, rfl⟩

end

/-- The first pattern that describes a text is one of the list. -/
theorem first_eq_some {α : Type} {patterns : List (Pattern × α)} {s : List Char} {mark : α}
    (h : first patterns s = some mark) : ∃ p, (p, mark) ∈ patterns ∧ Matches p s := by
  obtain ⟨⟨p, r⟩, hfind, rfl⟩ := Option.map_eq_some_iff.mp h
  exact ⟨p, List.mem_of_find?_eq_some hfind,
    describes_iff.mp (by simpa using List.find?_some hfind)⟩

/-- The longest match is one of a pattern of the list. -/
theorem longest_eq_some {α : Type} {patterns : List (Pattern × α)} {cs : List Char} {n : Nat}
    {mark : α} (h : longest patterns cs = some (n, mark)) :
    ∃ p, (p, mark) ∈ patterns ∧ Matches p (cs.take n) :=
  first_eq_some (longest_eq_some_iff.mp h).first_eq

theorem first_eq_none_iff {α : Type} {patterns : List (Pattern × α)} {s : List Char} :
    first patterns s = none ↔ ∀ p mark, (p, mark) ∈ patterns → ¬ Matches p s := by
  simp [first, List.find?_eq_none, describes_iff]

end Calculator.Pattern
