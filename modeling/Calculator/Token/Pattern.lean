/-
  Patterns: the regular languages of token texts. `Matches` says which texts a
  pattern describes; `after` says what is left of a pattern when a character
  has been read, which gives a matcher that reads a text once.

  What is proved:
    1. `matchesEmpty_iff` — `matchesEmpty` decides the empty text.
    2. `matches_after` — `p.after c` describes the texts that `p` describes
       when `c` is put before them.
    3. `longest_le` — the longest match is not empty and lies in the text.
-/

namespace Calculator

inductive Pattern where
  /-- No text. -/
  | never
  /-- The empty text. -/
  | empty
  /-- One character of a class. -/
  | one (accepts : Char → Bool)
  | seq (first second : Pattern)
  | alt (left right : Pattern)
  /-- Any number of repetitions. -/
  | many (p : Pattern)

namespace Pattern

/-- The texts that a pattern describes. -/
inductive Matches : Pattern → List Char → Prop where
  | empty : Matches .empty []
  | one {accepts : Char → Bool} {c : Char} : accepts c = true → Matches (.one accepts) [c]
  | seq {p q : Pattern} {s t : List Char} :
    Matches p s → Matches q t → Matches (.seq p q) (s ++ t)
  | left {p q : Pattern} {s : List Char} : Matches p s → Matches (.alt p q) s
  | right {p q : Pattern} {s : List Char} : Matches q s → Matches (.alt p q) s
  | manyNil {p : Pattern} : Matches (.many p) []
  | manyCons {p : Pattern} {s t : List Char} :
    Matches p s → Matches (.many p) t → Matches (.many p) (s ++ t)

/-! ## Building patterns -/

/-- One given character. -/
def char (c : Char) : Pattern := .one (· == c)

/-- One given text. -/
def text : List Char → Pattern
  | [] => .empty
  | c :: cs => .seq (char c) (text cs)

def atLeastOne (p : Pattern) : Pattern := .seq p (.many p)

def optional (p : Pattern) : Pattern := .alt p .empty

def oneOf : List Pattern → Pattern
  | [] => .never
  | p :: ps => .alt p (oneOf ps)

/-- One after the other. -/
def sequence : List Pattern → Pattern
  | [] => .empty
  | p :: ps => .seq p (sequence ps)

/-! ## Reading a character -/

def matchesEmpty : Pattern → Bool
  | .never | .one _ => false
  | .empty | .many _ => true
  | .seq p q => p.matchesEmpty && q.matchesEmpty
  | .alt p q => p.matchesEmpty || q.matchesEmpty

/-- A sequence, without a part that says nothing. -/
def join : Pattern → Pattern → Pattern
  | .never, _ => .never
  | .empty, q => q
  | p, q => .seq p q

/-- A choice, without a side that is never taken. -/
def choose : Pattern → Pattern → Pattern
  | .never, q => q
  | p, .never => p
  | p, q => .alt p q

/-- What may follow once `c` has been read. -/
def after (c : Char) : Pattern → Pattern
  | .never | .empty => .never
  | .one accepts => if accepts c then .empty else .never
  | .seq p q =>
    if p.matchesEmpty then choose (join (p.after c) q) (q.after c) else join (p.after c) q
  | .alt p q => choose (p.after c) (q.after c)
  | .many p => join (p.after c) (.many p)

/-- Whether the pattern is the one that describes no text. -/
def isNever : Pattern → Bool
  | .never => true
  | _ => false

theorem not_matches_never {s : List Char} : ¬ Matches .never s := nofun

theorem matches_empty_iff {s : List Char} : Matches .empty s ↔ s = [] :=
  ⟨fun h => by cases h; rfl, fun h => h ▸ .empty⟩

theorem matches_one_iff {accepts : Char → Bool} {s : List Char} :
    Matches (.one accepts) s ↔ ∃ c, accepts c = true ∧ s = [c] :=
  ⟨fun h => by cases h with | one hc => exact ⟨_, hc, rfl⟩,
    fun ⟨_, hc, hs⟩ => hs ▸ .one hc⟩

theorem matches_seq_iff {p q : Pattern} {s : List Char} :
    Matches (.seq p q) s ↔ ∃ u v, Matches p u ∧ Matches q v ∧ s = u ++ v :=
  ⟨fun h => by cases h with | seq hu hv => exact ⟨_, _, hu, hv, rfl⟩,
    fun ⟨_, _, hu, hv, hs⟩ => hs ▸ .seq hu hv⟩

theorem matches_alt_iff {p q : Pattern} {s : List Char} :
    Matches (.alt p q) s ↔ Matches p s ∨ Matches q s :=
  ⟨fun h => by
    cases h with
    | left h => exact .inl h
    | right h => exact .inr h, fun h => h.elim .left .right⟩

theorem matchesEmpty_iff (p : Pattern) : p.matchesEmpty = true ↔ Matches p [] := by
  induction p with
  | never => simp [matchesEmpty, not_matches_never]
  | empty => simp [matchesEmpty, matches_empty_iff]
  | one accepts => simp [matchesEmpty, matches_one_iff]
  | seq p q ihp ihq =>
    rw [matchesEmpty, Bool.and_eq_true, ihp, ihq, matches_seq_iff]
    constructor
    · rintro ⟨hp, hq⟩
      exact ⟨[], [], hp, hq, rfl⟩
    · rintro ⟨u, v, hu, hv, h⟩
      obtain ⟨rfl, rfl⟩ := List.append_eq_nil_iff.mp h.symm
      exact ⟨hu, hv⟩
  | alt p q ihp ihq => rw [matchesEmpty, Bool.or_eq_true, ihp, ihq, matches_alt_iff]
  | many p => exact ⟨fun _ => .manyNil, fun _ => rfl⟩

theorem matches_join (p q : Pattern) (s : List Char) :
    Matches (join p q) s ↔ Matches (.seq p q) s := by
  cases p <;> simp [join, matches_seq_iff, not_matches_never, matches_empty_iff]

theorem matches_choose (p q : Pattern) (s : List Char) :
    Matches (choose p q) s ↔ Matches (.alt p q) s := by
  cases p <;> cases q <;> simp [choose, matches_alt_iff, not_matches_never]

/-- A repetition that describes `c :: s` reads `c` in a first round that is
    not empty. -/
theorem matches_many_cons {p : Pattern} {c : Char} {s : List Char} :
    Matches (.many p) (c :: s) ↔
      ∃ u v, Matches p (c :: u) ∧ Matches (.many p) v ∧ s = u ++ v := by
  constructor
  · generalize hq : Pattern.many p = q
    generalize ht : c :: s = t
    intro h
    induction h generalizing s with
    | manyNil => cases ht
    | @manyCons r u v hu hv _ ih =>
      cases hq
      cases u with
      | nil => exact ih rfl ht
      | cons d u =>
        cases ht
        exact ⟨u, v, hu, hv, rfl⟩
    | _ => cases hq
  · rintro ⟨u, v, hu, hv, rfl⟩
    exact .manyCons hu hv

theorem matches_after (c : Char) (p : Pattern) (s : List Char) :
    Matches (p.after c) s ↔ Matches p (c :: s) := by
  induction p generalizing s with
  | never => simp [after, not_matches_never]
  | empty => simp [after, not_matches_never, matches_empty_iff]
  | one accepts =>
    rw [after, matches_one_iff]
    split
    · next h =>
      rw [matches_empty_iff]
      exact ⟨fun hs => ⟨c, h, by rw [hs]⟩, fun ⟨_, _, hs⟩ => (List.cons.inj hs).2⟩
    · next h =>
      refine ⟨fun hs => absurd hs not_matches_never, fun ⟨d, hd, hs⟩ => ?_⟩
      obtain ⟨rfl, _⟩ := List.cons.inj hs
      exact absurd hd h
  | seq p q ihp ihq =>
    have first : Matches (join (p.after c) q) s ↔
        ∃ u v, Matches p (c :: u) ∧ Matches q v ∧ s = u ++ v := by
      simp only [matches_join, matches_seq_iff, ihp]
    have whole : Matches (.seq p q) (c :: s) ↔
        (∃ u v, Matches p (c :: u) ∧ Matches q v ∧ s = u ++ v) ∨
          (Matches p [] ∧ Matches q (c :: s)) := by
      rw [matches_seq_iff]
      constructor
      · rintro ⟨u, v, hu, hv, h⟩
        cases u with
        | nil =>
          rw [List.nil_append] at h
          exact .inr ⟨hu, h ▸ hv⟩
        | cons d u =>
          obtain ⟨rfl, rfl⟩ := List.cons.inj h
          exact .inl ⟨u, v, hu, hv, rfl⟩
      · rintro (⟨u, v, hu, hv, rfl⟩ | ⟨hp, hq⟩)
        · exact ⟨c :: u, v, hu, hv, rfl⟩
        · exact ⟨[], c :: s, hp, hq, rfl⟩
    rw [after, whole]
    split
    · next h =>
      rw [matches_choose, matches_alt_iff, first, ihq]
      simp [(matchesEmpty_iff p).mp h]
    · next h =>
      rw [first]
      simp [mt (matchesEmpty_iff p).mpr h]
  | alt p q ihp ihq => rw [after, matches_choose, matches_alt_iff, matches_alt_iff, ihp, ihq]
  | many p ih =>
    rw [after, matches_join, matches_seq_iff, matches_many_cons]
    simp only [ih]

/-! ## The longest match

Several patterns are followed at once. Each carries a mark, by which the
answer names it. -/

/-- The patterns that remain when a character is read. -/
def advance {α : Type} (c : Char) (patterns : List (Pattern × α)) : List (Pattern × α) :=
  patterns.filterMap fun (p, mark) =>
    let left := p.after c
    if left.isNever then none else some (left, mark)

/-- The number of characters of the longest non-empty text at the start that
    some pattern describes, with the mark of the first such pattern. -/
def longest {α : Type} (patterns : List (Pattern × α)) : List Char → Option (Nat × α)
  | [] => none
  | c :: cs =>
    let next := advance c patterns
    if next.isEmpty then none
    else
      match longest next cs with
      | some (n, mark) => some (n + 1, mark)
      | none => (next.find? (·.1.matchesEmpty)).map fun (_, mark) => (1, mark)

theorem longest_le {α : Type} {patterns : List (Pattern × α)} {cs : List Char} {n : Nat}
    {mark : α} (h : longest patterns cs = some (n, mark)) : 0 < n ∧ n ≤ cs.length := by
  induction cs generalizing patterns n with
  | nil => cases h
  | cons c cs ih =>
    simp only [longest] at h
    split at h
    · cases h
    · split at h
      · next m r hm =>
        obtain ⟨rfl, rfl⟩ := Prod.mk.inj (Option.some.inj h)
        have := ih hm
        simp only [List.length_cons]
        omega
      · obtain ⟨k, _, hk⟩ := Option.map_eq_some_iff.mp h
        obtain ⟨rfl, rfl⟩ := Prod.mk.inj hk
        simp

end Pattern

end Calculator
