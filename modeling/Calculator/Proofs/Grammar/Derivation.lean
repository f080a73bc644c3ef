import Calculator.Grammar

/-
  The grammar as a relation. `Derives p ts x n` says that the tokens `ts` form
  the phrase `p` with the tree `x`, and that at most `n` levels of nesting are
  open at once while they are read. The rules are those in the head of
  `Grammar`, one constructor each; no reader is mentioned, and nothing is said
  about how far a phrase reaches into a longer list.

  A level opens for every expression, for the operand of a prefix operator,
  for an exponent and for the source of a spread.

  What is proved:
    1. `derives_joined` — an operand is a phrase of every level.
    2. `derives_head` — a phrase starts with a token that may start it, and only
       the places of a display can be no tokens at all.
    3. `derives_not_end` — the end of input is a token of no phrase.
-/

namespace Calculator.Grammar

/-- The kinds of items in a display. -/
inductive Place where
  | element
  | entry

abbrev Place.Tree : Place → Type
  | .element => Element Expr
  | .entry => Entry Expr

/-- The nonterminals. The levels of binary operators are counted from the
    loosest, which is 0; at level 6 there are none left. -/
inductive Phrase where
  | list
  | expression
  | joined (level : Nat)
  | unary
  | power
  | atom
  | place (place : Place)
  /-- Places separated by commas, with or without a comma after the last. -/
  | places (place : Place)

abbrev Phrase.Tree : Phrase → Type
  | .place k => k.Tree
  | .places k => List k.Tree
  | _ => Expr

/-- The operators that join two operands at a level. -/
inductive Joins : Nat → Symbol → BinaryOp → Prop where
  | bitOr : Joins 0 .pipe .bitOr
  | bitXor : Joins 1 .caret .bitXor
  | bitAnd : Joins 2 .ampersand .bitAnd
  | shiftLeft : Joins 3 .shiftLeft .shiftLeft
  | shiftRight : Joins 3 .shiftRight .shiftRight
  | add : Joins 4 .plus .add
  | sub : Joins 4 .minus .sub
  | mul : Joins 5 .star .mul
  | trueDiv : Joins 5 .slash .trueDiv
  | floorDiv : Joins 5 .doubleSlash .floorDiv
  | mod : Joins 5 .percent .mod

/-- The operators that stand before their operand. -/
inductive Signs : Symbol → UnaryOp → Prop where
  | pos : Signs .plus .pos
  | neg : Signs .minus .neg
  | invert : Signs .tilde .invert

inductive Derives : (p : Phrase) → List Token → p.Tree → Nat → Prop where
  /-- Without a comma the list is its only element, which is no spread. -/
  | lone {ts : List Token} {e : Expr} {n : Nat} :
    Derives (.place .element) ts (.item e) n → Derives .list ts e n
  | bareTuple {ts us : List Token} {x : Element Expr} {xs : List (Element Expr)} {n m : Nat} :
    Derives (.place .element) ts x n → Derives (.places .element) us xs m →
    Derives .list (ts ++ .symbol .comma :: us) (.tuple (x :: xs)) (max n m)
  | not {ts : List Token} {e : Expr} {n : Nat} :
    Derives .expression ts e n →
    Derives .expression (.symbol .not :: ts) (.unary .not e) (n + 1)
  | operand {ts : List Token} {e : Expr} {n : Nat} :
    Derives (.joined 0) ts e n → Derives .expression ts e (n + 1)
  /-- The left operand is of the same level, the right one of the next. -/
  | join {level : Nat} {s : Symbol} {op : BinaryOp} {ts us : List Token} {l r : Expr} {n m : Nat} :
    Derives (.joined level) ts l n → Joins level s op → Derives (.joined (level + 1)) us r m →
    Derives (.joined level) (ts ++ .symbol s :: us) (.binary op l r) (max n m)
  | tighter {level : Nat} {ts : List Token} {e : Expr} {n : Nat} :
    Derives (.joined (level + 1)) ts e n → Derives (.joined level) ts e n
  | unjoined {ts : List Token} {e : Expr} {n : Nat} :
    Derives .unary ts e n → Derives (.joined 6) ts e n
  | signed {s : Symbol} {op : UnaryOp} {ts : List Token} {e : Expr} {n : Nat} :
    Signs s op → Derives .unary ts e n →
    Derives .unary (.symbol s :: ts) (.unary op e) (n + 1)
  | unsigned {ts : List Token} {e : Expr} {n : Nat} :
    Derives .power ts e n → Derives .unary ts e n
  | raised {ts us : List Token} {base exponent : Expr} {n m : Nat} :
    Derives .atom ts base n → Derives .unary us exponent m →
    Derives .power (ts ++ .symbol .doubleStar :: us) (.binary .pow base exponent) (max n (m + 1))
  | base {ts : List Token} {e : Expr} {n : Nat} :
    Derives .atom ts e n → Derives .power ts e n
  | int (n : Int64) : Derives .atom [.int n] (.literal (.int n)) 0
  | float (x : Binary64) : Derives .atom [.float x] (.literal (.float x)) 0
  | bool (b : Bool) : Derives .atom [.bool b] (.literal (.bool b)) 0
  | null : Derives .atom [.null] (.literal .null) 0
  /-- String literals side by side are one literal. -/
  | strings (s : String) (ss : List String) :
    Derives .atom ((s :: ss).map .str) (.literal (.str (String.join (s :: ss)))) 0
  | emptyTuple :
    Derives .atom [.symbol (.opening .round), .symbol (.closing .round)] (.tuple []) 0
  | round {ts : List Token} {e : Expr} {n : Nat} :
    Derives .list ts e n →
    Derives .atom (.symbol (.opening .round) :: ts ++ [.symbol (.closing .round)]) e n
  | square {ts : List Token} {xs : List (Element Expr)} {n : Nat} :
    Derives (.places .element) ts xs n →
    Derives .atom (.symbol (.opening .square) :: ts ++ [.symbol (.closing .square)]) (.list xs) n
  /-- Nothing in braces is the empty dict, so a set has a first element. -/
  | set {ts : List Token} {x : Element Expr} {xs : List (Element Expr)} {n : Nat} :
    Derives (.places .element) ts (x :: xs) n →
    Derives .atom (.symbol (.opening .curly) :: ts ++ [.symbol (.closing .curly)])
      (.set (x :: xs)) n
  | dict {ts : List Token} {xs : List (Entry Expr)} {n : Nat} :
    Derives (.places .entry) ts xs n →
    Derives .atom (.symbol (.opening .curly) :: ts ++ [.symbol (.closing .curly)]) (.dict xs) n
  | item {ts : List Token} {e : Expr} {n : Nat} :
    Derives .expression ts e n → Derives (.place .element) ts (.item e) n
  | spreadElements {ts : List Token} {e : Expr} {n : Nat} :
    Derives (.joined 0) ts e n →
    Derives (.place .element) (.symbol .star :: ts) (.spread e) (n + 1)
  | pair {ts us : List Token} {key value : Expr} {n m : Nat} :
    Derives .expression ts key n → Derives .expression us value m →
    Derives (.place .entry) (ts ++ .symbol .colon :: us) (.pair key value) (max n m)
  | spreadEntries {ts : List Token} {e : Expr} {n : Nat} :
    Derives (.joined 0) ts e n →
    Derives (.place .entry) (.symbol .doubleStar :: ts) (.spread e) (n + 1)
  | none {k : Place} : Derives (.places k) [] [] 0
  | last {k : Place} {ts : List Token} {x : k.Tree} {n : Nat} :
    Derives (.place k) ts x n → Derives (.places k) ts [x] n
  | more {k : Place} {ts us : List Token} {x : k.Tree} {xs : List k.Tree} {n m : Nat} :
    Derives (.place k) ts x n → Derives (.places k) us xs m →
    Derives (.places k) (ts ++ .symbol .comma :: us) (x :: xs) (max n m)

/-! ## Levels -/

theorem derives_looser {level tight : Nat} (hlevel : level ≤ tight) {ts : List Token} {e : Expr}
    {n : Nat} (h : Derives (.joined tight) ts e n) : Derives (.joined level) ts e n := by
  induction hlevel with
  | refl => exact h
  | step _ ih => exact ih (.tighter h)

/-- An operand is a phrase of every level. -/
theorem derives_joined {level : Nat} (hlevel : level ≤ 6) {ts : List Token} {e : Expr} {n : Nat}
    (h : Derives .unary ts e n) : Derives (.joined level) ts e n :=
  derives_looser hlevel (.unjoined h)

/-! ## First tokens -/

/-- Literals and opening brackets, which start every phrase. -/
def startsAtom : Token → Bool
  | .int _ | .float _ | .str _ | .bool _ | .null | .symbol (.opening _) => true
  | _ => false

/-- The other symbols that may start a phrase. -/
def Phrase.signs : Phrase → List Symbol
  | .atom | .power => []
  | .unary | .joined _ => [.plus, .minus, .tilde]
  | .expression => [.plus, .minus, .tilde, .not]
  | .list | .place .element | .places .element => [.plus, .minus, .tilde, .not, .star]
  | .place .entry | .places .entry => [.plus, .minus, .tilde, .not, .doubleStar]

def Phrase.mayStart (p : Phrase) (t : Token) : Bool :=
  startsAtom t || p.signs.any (t = .symbol ·)

theorem mayStart_closing (p : Phrase) (b : Bracket) :
    p.mayStart (.symbol (.closing b)) = false := by
  cases p with
  | place k | places k => cases k <;> rfl
  | _ => rfl

theorem mayStart_end (p : Phrase) : p.mayStart .eof = false := by
  cases p with
  | place k | places k => cases k <;> rfl
  | _ => rfl

/-- The tokens start with one that may start the phrase. -/
def Phrase.Starts (p : Phrase) (ts : List Token) : Prop :=
  ∃ t rest, ts = t :: rest ∧ p.mayStart t = true

theorem starts_append {p : Phrase} {ts : List Token} (h : p.Starts ts) (us : List Token) :
    p.Starts (ts ++ us) := by
  obtain ⟨t, rest, rfl, ht⟩ := h
  exact ⟨t, rest ++ us, rfl, ht⟩

theorem starts_of_subset {p q : Phrase} {ts : List Token} (h : p.Starts ts)
    (hpq : p.signs ⊆ q.signs) : q.Starts ts := by
  obtain ⟨t, rest, rfl, ht⟩ := h
  refine ⟨t, rest, rfl, ?_⟩
  simp only [Phrase.mayStart, Bool.or_eq_true, List.any_eq_true] at ht ⊢
  rcases ht with ht | ⟨s, hs, ht⟩
  · exact .inl ht
  · exact .inr ⟨s, hpq hs, ht⟩

theorem derives_head {p : Phrase} {ts : List Token} {x : p.Tree} {n : Nat}
    (h : Derives p ts x n) : p.Starts ts ∨ ∃ k, p = .places k ∧ ts = [] := by
  -- a phrase that is never empty starts the phrases in which it comes first
  have inner {q p : Phrase} {ts : List Token} (h : q.Starts ts ∨ ∃ k, q = .places k ∧ ts = [])
      (hq : ∀ k, q ≠ .places k) (hqp : q.signs ⊆ p.signs) : p.Starts ts := by
    rcases h with h | ⟨k, hk, _⟩
    · exact starts_of_subset h hqp
    · exact absurd hk (hq k)
  induction h with
  | lone _ ih | operand _ ih | tighter _ ih | unjoined _ ih | unsigned _ ih | base _ ih
  | item _ ih => exact .inl (inner ih nofun (by simp [Phrase.signs]))
  | bareTuple _ _ ih _ | join _ _ _ ih _ | raised _ _ ih _ | pair _ _ ih _ =>
    exact .inl (starts_append (inner ih nofun (by simp [Phrase.signs])) _)
  | @last k _ _ _ _ ih => exact .inl (inner ih nofun (by cases k <;> simp [Phrase.signs]))
  | @more k _ _ _ _ _ _ _ _ ih _ =>
    exact .inl (starts_append (inner ih nofun (by cases k <;> simp [Phrase.signs])) _)
  | signed hs _ _ => exact .inl ⟨_, _, rfl, by cases hs <;> rfl⟩
  | none => exact .inr ⟨_, rfl, rfl⟩
  | _ => exact .inl ⟨_, _, rfl, rfl⟩

theorem derives_starts {p : Phrase} {ts : List Token} {x : p.Tree} {n : Nat}
    (h : Derives p ts x n) (hp : ∀ k, p ≠ .places k) : p.Starts ts := by
  rcases derives_head h with hs | ⟨k, hk, _⟩
  · exact hs
  · exact absurd hk (hp k)

theorem derives_cons_starts {k : Place} {ts : List Token} {x : k.Tree} {xs : List k.Tree} {n : Nat}
    (h : Derives (.places k) ts (x :: xs) n) : (Phrase.places k).Starts ts := by
  rcases derives_head h with hs | ⟨_, _, rfl⟩
  · exact hs
  · generalize hts : [] = ts at h
    cases h with
    | last h =>
      obtain ⟨t, rest, rfl, _⟩ := derives_starts h nofun
      cases hts
    | more _ _ => simp at hts

theorem derives_item {ts : List Token} {e : Expr} {n : Nat}
    (h : Derives (.place .element) ts (.item e) n) : Derives .expression ts e n := by
  cases h with
  | item h => exact h

/-- The end of input is a token of no phrase. -/
theorem derives_not_end {p : Phrase} {ts : List Token} {x : p.Tree} {n : Nat}
    (h : Derives p ts x n) : .eof ∉ ts := by
  induction h with
  | lone _ ih | operand _ ih | tighter _ ih | unjoined _ ih | unsigned _ ih | base _ ih
  | item _ ih | last _ ih => exact ih
  | bareTuple _ _ ih ih' | join _ _ _ ih ih' | raised _ _ ih ih' | pair _ _ ih ih'
  | more _ _ ih ih' => simp [ih, ih']
  | not _ ih | signed _ _ ih | spreadElements _ ih | spreadEntries _ ih | round _ ih
  | square _ ih | set _ ih | dict _ ih => simp [ih]
  | int _ | float _ | bool _ | null | strings _ _ | emptyTuple | none => simp

/-- The tokens without their places. -/
def tokens (ls : List Lexeme) : List Token := ls.map (·.token)

@[simp] theorem tokens_nil : tokens [] = [] := rfl

@[simp] theorem tokens_cons (l : Lexeme) (ls : List Lexeme) :
    tokens (l :: ls) = l.token :: tokens ls := rfl

@[simp] theorem tokens_append (ls ms : List Lexeme) : tokens (ls ++ ms) = tokens ls ++ tokens ms :=
  List.map_append

end Calculator.Grammar
