import Calculator.Proofs.Grammar.Derivation

/-
  The readers by phrase, and what each loop does in one round.

  `Phrase.read` names the reader of every phrase with so many levels still
  allowed, so that a statement about the whole grammar is one statement about
  `Phrase.read`. The loops over separators and operators end by the length of
  the tokens; `separated_eq` and `joined_eq` give one round of each without
  that argument, and are all that is used of them.
-/

namespace Calculator.Grammar

/-! ## Results -/

@[simp] theorem ok_bind {ε α β : Type} (a : α) (f : α → Except ε β) : (.ok a >>= f) = f a := rfl

@[simp] theorem error_bind {ε α β : Type} (e : ε) (f : α → Except ε β) :
    (.error e >>= f) = .error e := rfl

/-- The error of what fails. -/
def failure? {ε α : Type} : Except ε α → Option ε
  | .error e => some e
  | .ok _ => none

theorem failure?_eq_some_iff {ε α : Type} {x : Except ε α} {e : ε} :
    failure? x = some e ↔ x = .error e := by
  cases x <;> simp [failure?]

@[simp] theorem building_ok {α β : Type} (f : α → β) (a : α) (rest : List Lexeme) :
    building f (.ok (a, rest)) = .ok (f a, rest) := rfl

@[simp] theorem building_error {α β : Type} (f : α → β) (e : SyntaxError) :
    building f (.error e) = .error e := rfl

/-! ## Tokens that come next -/

theorem eat_eq_some_iff {s : Symbol} {ts rest : List Lexeme} :
    eat s ts = some rest ↔ ∃ span, ts = ⟨.symbol s, span⟩ :: rest := by
  cases ts with
  | nil => simp [eat]
  | cons l ls =>
    obtain ⟨token, span⟩ := l
    by_cases h : token = .symbol s
    · simp [eat, h]
    · simp [eat, h]

theorem eat_cons_self (s : Symbol) (span : Span) (rest : List Lexeme) :
    eat s (⟨.symbol s, span⟩ :: rest) = some rest :=
  eat_eq_some_iff.mpr ⟨span, rfl⟩

theorem eat_cons_of_ne {s : Symbol} {l : Lexeme} (h : l.token ≠ .symbol s) (rest : List Lexeme) :
    eat s (l :: rest) = none := by
  simp [eat, h]

theorem eat_eq_none_iff {s : Symbol} {ts : List Lexeme} :
    eat s ts = none ↔ nextToken ts ≠ .symbol s := by
  cases ts with
  | nil => simp [eat, nextToken]
  | cons l ls => simp [eat, nextToken]

theorem next_token (input : Input) (ts : List Lexeme) : (input.next ts).token = nextToken ts := by
  cases ts <;> rfl

theorem close_eq_ok_iff {input : Input} {b : Bracket} {opened : Span} {ts rest : List Lexeme} :
    close input b opened ts = .ok rest ↔ eat (.closing b) ts = some rest := by
  unfold close
  cases h : eat (.closing b) ts with
  | none => simp
  | some after => simp

theorem atEnd_iff {stop : Option Bracket} {ts : List Lexeme} :
    atEnd stop ts = true ↔ nextToken ts = terminator stop :=
  decide_eq_true_iff

theorem atEnd_some_iff {b : Bracket} {ts : List Lexeme} :
    atEnd (some b) ts = true ↔ ∃ span rest, ts = ⟨.symbol (.closing b), span⟩ :: rest := by
  cases ts with
  | nil => simp [atEnd_iff, nextToken, terminator]
  | cons l ls =>
    obtain ⟨token, span⟩ := l
    simp [atEnd_iff, nextToken, terminator]

/-! ## One round of a loop -/

theorem separated_eq {α : Type} (item : Reader α) (stop : Option Bracket) (ts : List Lexeme) :
    separated item stop ts =
      if atEnd stop ts then .ok ([], ts)
      else (do
        let (first, rest) ← item.read ts
        match eat .comma rest with
        | none => .ok ([first], rest)
        | some rest => building (first :: ·) (separated item stop rest)) := by
  rw [separated]
  split
  · rfl
  · split
    · next h => simp only [h, error_bind]
    · next first rest h =>
      simp only [h, ok_bind]
      split
      · next hc => simp only [hc]
      · next after hc =>
        simp only [hc]
        split
        · next he => rw [he, building_error]
        · next he => rw [he, building_ok]

theorem joined_stop {operand : Reader Expr} {level : Level} {ts : List Lexeme}
    (h : level.op? (nextToken ts) = none) (left : Expr) :
    joined operand level left ts = .ok (left, ts) := by
  cases ts with
  | nil => rw [joined]
  | cons l rest =>
    have hl : level.op? l.token = none := h
    rw [joined, hl]

theorem joined_eq {operand : Reader Expr} {level : Level} {l : Lexeme} {op : BinaryOp}
    (h : level.op? l.token = some op) (left : Expr) (rest : List Lexeme) :
    joined operand level left (l :: rest) = (do
      let (right, rest) ← operand.read rest
      joined operand level (.binary op left right) rest) := by
  rw [joined, h]
  dsimp only
  split
  · next he => rw [he, error_bind]
  · next he => rw [he, ok_bind]

theorem moreStrings_stop {ts : List Lexeme} (h : ∀ s, nextToken ts ≠ .str s) :
    moreStrings ts = ("", ts) := by
  cases ts with
  | nil => rfl
  | cons l ts =>
    obtain ⟨token, span⟩ := l
    cases token with
    | str s => exact absurd rfl (h s)
    | _ => rfl

/-- An atom is not read at a token that starts none, which is the error. -/
theorem atom_stop {input : Input} {deeper : Deeper} {ts : List Lexeme}
    (h : startsAtom (nextToken ts) = false) : (atom input deeper).read ts =
      .error ⟨(input.next ts).span, cannotStart (input.next ts).token, none⟩ := by
  cases ts with
  | nil => rfl
  | cons l ts =>
    obtain ⟨token, span⟩ := l
    cases token with
    | int _ | float _ | str _ | bool _ | null => cases h
    | name _ | comparison _ | eof => rfl
    | symbol s =>
      cases s with
      | opening b => cases h
      | _ => rfl

/-! ## Operators -/

theorem prefixOp?_eq_some_iff {t : Token} {op : UnaryOp} :
    prefixOp? t = some op ↔ ∃ s, t = .symbol s ∧ Signs s op := by
  constructor
  · intro h
    unfold prefixOp? at h
    split at h
    · cases h; exact ⟨_, rfl, .pos⟩
    · cases h; exact ⟨_, rfl, .neg⟩
    · cases h; exact ⟨_, rfl, .invert⟩
    · cases h
  · intro h
    obtain ⟨s, rfl, h⟩ := h
    cases h <;> rfl

theorem joins_lt {level : Nat} {s : Symbol} {op : BinaryOp} (h : Joins level s op) :
    level < levels.length := by
  cases h <;> decide

theorem joins_of_mem {level : Nat} (h : level < levels.length) :
    ∀ x ∈ levels[level], Joins level x.1 x.2 := by
  match level, h with
  | 0, _ => simp [levels, Joins.bitOr]
  | 1, _ => simp [levels, Joins.bitXor]
  | 2, _ => simp [levels, Joins.bitAnd]
  | 3, _ => simp [levels, Joins.shiftLeft, Joins.shiftRight]
  | 4, _ => simp [levels, Joins.add, Joins.sub]
  | 5, _ => simp [levels, Joins.mul, Joins.trueDiv, Joins.floorDiv, Joins.mod]

/-- The table of operators holds those that join at each level, and no
    others. -/
theorem op?_eq_some_iff {level : Nat} (h : level < levels.length) {t : Token} {op : BinaryOp} :
    levels[level].op? t = some op ↔ ∃ s, t = .symbol s ∧ Joins level s op := by
  constructor
  · intro hop
    cases t with
    | symbol s =>
      refine ⟨s, rfl, ?_⟩
      obtain ⟨before, rest, hl, _⟩ := List.lookup_eq_some_iff.mp hop
      have hmem : (s, op) ∈ levels[level] := by rw [hl]; simp
      exact joins_of_mem h (s, op) hmem
    | _ => cases hop
  · intro h
    obtain ⟨s, rfl, hj⟩ := h
    cases hj <;> rfl

/-! ## The reader of a phrase -/

def Place.reader (input : Input) (deeper : Deeper) : (k : Place) → Reader k.Tree
  | .element => Grammar.element deeper
  | .entry => Grammar.entry input deeper

/-- The operands of the levels from `level` on. -/
def operandFrom (input : Input) (deeper : Deeper) (level : Nat) : Reader Expr :=
  (levels.drop level).foldr chain (unary input deeper)

theorem operandFrom_of_le {input : Input} {deeper : Deeper} {level : Nat}
    (h : levels.length ≤ level) : operandFrom input deeper level = unary input deeper := by
  unfold operandFrom
  rw [List.drop_eq_nil_of_le h]
  rfl

theorem operandFrom_of_lt {input : Input} {deeper : Deeper} {level : Nat}
    (h : level < levels.length) :
    operandFrom input deeper level =
      chain levels[level] (operandFrom input deeper (level + 1)) := by
  unfold operandFrom
  rw [List.drop_eq_getElem_cons h]
  rfl

/-- The reader of a phrase with `depth` levels still allowed. A list of places
    ends at `stop`; the other phrases end by themselves. -/
def Phrase.read (input : Input) (depth : Nat) (stop : Option Bracket) :
    (p : Phrase) → Parse p.Tree
  | .list => (expressionList input (within input depth) stop).read
  | .expression => (within input depth .expression).read
  | .joined level => (operandFrom input (within input depth) level).read
  | .unary => (Grammar.unary input (within input depth)).read
  | .power => (Grammar.power input (within input depth)).read
  | .atom => (Grammar.atom input (within input depth)).read
  | .place k => (k.reader input (within input depth)).read
  | .places k => separated (k.reader input (within input depth)) stop

/-! ## The whole input -/

theorem parse_eq_whole (ts : List Lexeme) (maxDepth : Nat) :
    parse ts maxDepth = Phrase.list.read ⟨maxDepth, impliedEnd ts⟩ maxDepth none ts >>=
      whole ⟨maxDepth, impliedEnd ts⟩ :=
  rfl

theorem whole_eq_ok_iff {input : Input} {e x : Expr} {rest : List Lexeme} :
    whole input (e, rest) = .ok x ↔ nextToken rest = .eof ∧ e = x := by
  simp only [whole, next_token]
  split
  · next h => simp [h]
  · next h => simp [h]

/-- The place of the end of input among the tokens. -/
def endOf (ts : List Lexeme) : Span :=
  match ts.find? (·.token = .eof), ts.getLast? with
  | some l, _ => l.span
  | none, some l => .point l.span.stop
  | none, none => .point 0

end Calculator.Grammar
