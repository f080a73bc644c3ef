import Calculator.Expr
import Calculator.Token.Lexer

/-
  From tokens to an expression, by recursive descent:

    expression_list := element ("," element)* [","]
    element         := "*" operand | expression
    expression      := "not" expression | operand
    operand         := unary joined by the binary operators, level by level
    unary           := ("+" | "-" | "~") unary | power
    power           := atom ["**" unary]
    atom            := a number, a truth value, None, or strings side by side
                     | "(" [expression_list] ")" | "[" [elements] "]"
                     | "{" [elements or entries] "}"
    entry           := "**" operand | expression ":" expression

  Every expression, prefix operand, exponent and spread source stands one
  level deeper than what holds it, and each rule is given the readers of the
  next level as an argument. So the levels are recursion on the depth that is
  still allowed, and within a level no rule calls itself.

  A `Reader` carries the proof that it takes at least one token, which is what
  ends the loops over separators and operators.
-/

namespace Calculator

theorem bind_eq_ok {ε α β : Type} {x : Except ε α} {f : α → Except ε β} {b : β} :
    x >>= f = .ok b ↔ ∃ a, x = .ok a ∧ f a = .ok b := by
  cases x with
  | error e => exact ⟨(nomatch ·), fun ⟨_, h, _⟩ => nomatch h⟩
  | ok a => exact ⟨fun h => ⟨a, rfl, h⟩, fun ⟨_, h, hb⟩ => by cases h; exact hb⟩

theorem map_eq_ok {ε α β : Type} {x : Except ε α} {f : α → β} {b : β} :
    f <$> x = .ok b ↔ ∃ a, x = .ok a ∧ f a = b := by
  cases x with
  | error e => exact ⟨(nomatch ·), fun ⟨_, h, _⟩ => nomatch h⟩
  | ok a =>
    exact ⟨fun h => ⟨a, rfl, Except.ok.inj h⟩, fun ⟨_, h, hb⟩ => by cases h; exact congrArg _ hb⟩

namespace Grammar

/-! ## Readers -/

/-- What reading some tokens gives: a result and the tokens after it. -/
abbrev Parse (α : Type) := List Lexeme → Except SyntaxError (α × List Lexeme)

/-- A result made of what a rule gives, with the same tokens after it. -/
def building {α β : Type} (f : α → β) (parsed : Except SyntaxError (α × List Lexeme)) :
    Except SyntaxError (β × List Lexeme) :=
  parsed.map fun (a, rest) => (f a, rest)

theorem building_eq_ok {α β : Type} {f : α → β} {parsed : Except SyntaxError (α × List Lexeme)}
    {b : β} {rest : List Lexeme} :
    building f parsed = .ok (b, rest) ↔ ∃ a, parsed = .ok (a, rest) ∧ f a = b := by
  match parsed with
  | .error e => exact ⟨(nomatch ·), fun ⟨_, h, _⟩ => nomatch h⟩
  | .ok (a, r) =>
    constructor
    · intro h
      cases h
      exact ⟨a, rfl, rfl⟩
    · rintro ⟨a, h, rfl⟩
      cases h
      rfl

/-- A rule that takes at least one token when it succeeds. -/
structure Reader (α : Type) where
  read : Parse α
  shortens : ∀ {ts : List Lexeme} {a : α} {rest : List Lexeme},
    read ts = .ok (a, rest) → rest.length < ts.length

/-- What all rules know of the input: the depth limit, for the message, and
    the place of the end after its last token. -/
structure Input where
  maxDepth : Nat
  endSpan : Span

/-- The end of input of a list that has none: where its last token ends. -/
def impliedEnd (ts : List Lexeme) : Span := .point ((ts.getLast?.map (·.span.stop)).getD 0)

/-- The next token; at the end of the tokens, the end of input. -/
def Input.next (input : Input) : List Lexeme → Lexeme
  | [] => ⟨.eof, input.endSpan⟩
  | l :: _ => l

/-- The token that comes next, without its place. -/
def nextToken : List Lexeme → Token
  | [] => .eof
  | l :: _ => l.token

/-- The tokens after a symbol, if it comes next. -/
def eat (s : Symbol) : List Lexeme → Option (List Lexeme)
  | [] => none
  | l :: rest => if l.token = .symbol s then some rest else none

theorem eat_length {s : Symbol} {ts rest : List Lexeme} (h : eat s ts = some rest) :
    rest.length < ts.length := by
  cases ts with
  | nil => cases h
  | cons l ls =>
    simp only [eat] at h
    split at h
    · cases h; simp
    · cases h

/-! ## Errors -/

/-- Words with a meaning of their own in the language that expressions are a
    part of. -/
def keywords : List String :=
  ["and", "or", "if", "else", "elif", "lambda", "in", "is", "for", "while", "import", "from",
    "as", "yield", "await", "async", "def", "class", "return", "del", "global", "nonlocal",
    "assert", "pass", "raise", "try", "except", "finally", "with", "break", "continue"]

/-- Why no expression starts with a token. -/
def cannotStart : Token → SyntaxCause
  | .name text => if keywords.contains text then .keyword text else .name text
  | .comparison text => .comparison text
  | .symbol .star => .misplacedSpread .elements
  | .symbol .doubleStar => .misplacedSpread .entries
  | .eof => .unexpectedEnd
  | found => .unexpected found

/-- Why a token does not stand after a complete expression. -/
def cannotFollow (otherwise : Token → SyntaxCause) : Token → SyntaxCause
  | .name text => cannotStart (.name text)
  | .comparison text => cannotStart (.comparison text)
  | .symbol (.opening .round) => .call
  | .symbol (.opening .square) => .subscript
  | .symbol .dot => .attribute
  | found => otherwise found

/-- Why a token does not stand after the whole input. -/
def cannotTrail : Token → SyntaxCause :=
  cannotFollow fun
    | .symbol (.closing b) => .unmatched b
    | found => .trailing found

/-- Why a token does not stand where a bracket has to be closed. -/
def cannotClose (b : Bracket) (position : Nat) : Token → SyntaxCause
  | .eof => .unclosed b position
  | found => cannotFollow (.expectedClosing b position) found

/-! ## Lists and brackets -/

/-- The token at which a list ends: its closing bracket, or the end of input
    where there is none. -/
def terminator : Option Bracket → Token
  | some b => .symbol (.closing b)
  | none => .eof

/-- Whether the tokens have reached the end of a list. -/
def atEnd (stop : Option Bracket) (ts : List Lexeme) : Bool := nextToken ts = terminator stop

/-- Items separated by commas up to the end of the list; a comma may also
    stand after the last. -/
def separated {α : Type} (item : Reader α) (stop : Option Bracket) (ts : List Lexeme) :
    Except SyntaxError (List α × List Lexeme) :=
  if atEnd stop ts then .ok ([], ts)
  else
    match h : item.read ts with
    | .error e => .error e
    | .ok (first, rest) =>
      match hc : eat .comma rest with
      | none => .ok ([first], rest)
      | some rest =>
        have := item.shortens h
        have := eat_length hc
        match separated item stop rest with
        | .error e => .error e
        | .ok (more, rest) => .ok (first :: more, rest)
termination_by ts.length

theorem separated_length {α : Type} {item : Reader α} {stop : Option Bracket}
    {ts rest : List Lexeme} {as : List α} (h : separated item stop ts = .ok (as, rest)) :
    rest.length ≤ ts.length := by
  fun_induction separated item stop ts generalizing as rest with
  | case1 ts hend => cases h; exact Nat.le_refl _
  | case2 ts hend e he => cases h
  | case3 ts hend first after hr hc =>
    cases h
    exact Nat.le_of_lt (item.shortens hr)
  | case4 ts hend first after hr tail hc _ _ e he => cases h
  | case5 ts hend first after hr tail hc _ _ more last he ih =>
    cases h
    have := item.shortens hr
    have := eat_length hc
    have := ih he
    omega

/-- The closing bracket of one that was opened at a place. -/
def close (input : Input) (b : Bracket) (opened : Span) (ts : List Lexeme) :
    Except SyntaxError (List Lexeme) :=
  match eat (.closing b) ts with
  | some rest => .ok rest
  | none =>
    let found := input.next ts
    .error ⟨found.span, cannotClose b opened.start found.token, some opened⟩

theorem close_length {input : Input} {b : Bracket} {opened : Span} {ts rest : List Lexeme}
    (h : close input b opened ts = .ok rest) : rest.length < ts.length := by
  unfold close at h
  split at h
  · next hr => cases h; exact eat_length hr
  · cases h

/-! ## Rules of one level -/

/-- The rules that open a new level of nesting. -/
inductive Nested where
  | expression
  | operand
  | unary

/-- The readers of the next level. -/
abbrev Deeper := Nested → Reader Expr

/-- An element of a display. -/
def element (deeper : Deeper) : Reader (Element Expr) where
  read ts :=
    match eat .star ts with
    | some rest => building .spread ((deeper .operand).read rest)
    | none => building .item ((deeper .expression).read ts)
  shortens {ts a rest} h := by
    split at h
    · next after he =>
      obtain ⟨e, hr, _⟩ := building_eq_ok.mp h
      have := eat_length he
      have := (deeper .operand).shortens hr
      omega
    · obtain ⟨e, hr, _⟩ := building_eq_ok.mp h
      exact (deeper .expression).shortens hr

/-- An entry of a dict display. -/
def entry (input : Input) (deeper : Deeper) : Reader (Entry Expr) where
  read ts :=
    match eat .doubleStar ts with
    | some rest => building .spread ((deeper .operand).read rest)
    | none => do
      let (key, rest) ← (deeper .expression).read ts
      match eat .colon rest with
      | none =>
        let found := input.next rest
        .error ⟨found.span, cannotFollow .expectedColon found.token, none⟩
      | some rest =>
        building (.pair key) ((deeper .expression).read rest)
  shortens {ts a rest} h := by
    split at h
    · next after he =>
      obtain ⟨e, hr, _⟩ := building_eq_ok.mp h
      have := eat_length he
      have := (deeper .operand).shortens hr
      omega
    · obtain ⟨⟨key, r⟩, hk, h⟩ := bind_eq_ok.mp h
      have := (deeper .expression).shortens hk
      dsimp only at h
      split at h
      · cases h
      · next after he =>
        obtain ⟨v, hv, _⟩ := building_eq_ok.mp h
        have := eat_length he
        have := (deeper .expression).shortens hv
        omega

/-- An expression list: one expression, or a tuple where there is a comma. -/
def expressionList (input : Input) (deeper : Deeper) (stop : Option Bracket) : Reader Expr where
  read ts := do
    let (first, rest) ← (element deeper).read ts
    match eat .comma rest with
    | some rest =>
      building (fun more => .tuple (first :: more)) (separated (element deeper) stop rest)
    | none =>
      match first with
      | .item e => .ok (e, rest)
      | .spread _ => .error ⟨(input.next ts).span, .loneSpread, none⟩
  shortens {ts a rest} h := by
    obtain ⟨⟨first, r⟩, hf, h⟩ := bind_eq_ok.mp h
    have := (element deeper).shortens hf
    dsimp only at h
    split at h
    · next after he =>
      obtain ⟨more, hm, _⟩ := building_eq_ok.mp h
      have := eat_length he
      have := separated_length hm
      omega
    · split at h
      · cases h; assumption
      · cases h

/-- What follows `(`. -/
def afterRound (input : Input) (deeper : Deeper) (opened : Span) : Reader Expr where
  read ts :=
    match eat (.closing .round) ts with
    | some rest => .ok (.tuple [], rest)
    | none => do
      let (e, rest) ← (expressionList input deeper (some .round)).read ts
      (fun rest => (e, rest)) <$> close input .round opened rest
  shortens {ts a rest} h := by
    split at h
    · next he => cases h; exact eat_length he
    · obtain ⟨⟨e, r⟩, he, h⟩ := bind_eq_ok.mp h
      obtain ⟨r, hc, heq⟩ := map_eq_ok.mp h
      cases heq
      have := (expressionList input deeper (some .round)).shortens he
      have := close_length hc
      omega

/-- What follows an opening bracket and its first items: more items, and the
    closing bracket. -/
def closeItems {α : Type} (input : Input) (b : Bracket) (opened : Span) (item : Reader α)
    (display : List α → Expr) : Reader Expr where
  read ts := do
    let (items, rest) ← separated item (some b) ts
    (fun rest => (display items, rest)) <$> close input b opened rest
  shortens {ts a rest} h := by
    obtain ⟨⟨items, r⟩, hi, h⟩ := bind_eq_ok.mp h
    obtain ⟨r, hc, heq⟩ := map_eq_ok.mp h
    cases heq
    have := separated_length hi
    have := close_length hc
    omega

/-- What follows the first item in braces: nothing more, or a comma and more
    items. -/
def moreItems {α : Type} (input : Input) (opened : Span) (item : Reader α)
    (display : List α → Expr) : Reader Expr where
  read ts :=
    match eat .comma ts with
    | some rest => (closeItems input .curly opened item display).read rest
    | none => (fun rest => (display [], rest)) <$> close input .curly opened ts
  shortens {ts a rest} h := by
    split at h
    · next he =>
      have := eat_length he
      have := (closeItems input .curly opened item display).shortens h
      omega
    · obtain ⟨r, hc, heq⟩ := map_eq_ok.mp h
      cases heq
      exact close_length hc

/-- What follows an opening brace. Nothing is the empty dict; otherwise the
    first place decides between a dict and a set. -/
def afterCurly (input : Input) (deeper : Deeper) (opened : Span) : Reader Expr where
  read ts :=
    match eat (.closing .curly) ts with
    | some rest => .ok (.dict [], rest)
    | none =>
      if (eat .doubleStar ts).isSome then
        (closeItems input .curly opened (entry input deeper) .dict).read ts
      else do
        let (first, rest) ← (element deeper).read ts
        match first, eat .colon rest with
        | .item key, some rest => do
          let (value, rest) ← (deeper .expression).read rest
          (moreItems input opened (entry input deeper) fun more =>
            .dict (.pair key value :: more)).read rest
        | _, _ =>
          (moreItems input opened (element deeper) fun more => .set (first :: more)).read rest
  shortens {ts a rest} h := by
    split at h
    · next he => cases h; exact eat_length he
    · split at h
      · exact (closeItems input .curly opened (entry input deeper) .dict).shortens h
      · obtain ⟨⟨first, r⟩, hf, h⟩ := bind_eq_ok.mp h
        have := (element deeper).shortens hf
        dsimp only at h
        split at h
        · next key after hc =>
          obtain ⟨⟨value, r⟩, hv, h⟩ := bind_eq_ok.mp h
          have := eat_length hc
          have := (deeper .expression).shortens hv
          have := Reader.shortens _ h
          dsimp only at this
          omega
        · have := Reader.shortens _ h
          omega

/-- Further string literals, which are one with the literal before them. -/
def moreStrings : List Lexeme → String × List Lexeme
  | ⟨.str s, _⟩ :: rest => let (more, rest) := moreStrings rest; (s ++ more, rest)
  | rest => ("", rest)

theorem moreStrings_length (ts : List Lexeme) : (moreStrings ts).2.length ≤ ts.length := by
  induction ts with
  | nil => exact Nat.le_refl _
  | cons l ts ih =>
    obtain ⟨token, span⟩ := l
    cases token <;> simp only [moreStrings, List.length_cons] <;> omega

/-- A literal or a bracketed expression. -/
def atom (input : Input) (deeper : Deeper) : Reader Expr where
  read
    | [] => .error ⟨input.endSpan, cannotStart .eof, none⟩
    | ⟨token, span⟩ :: rest =>
      match token with
      | .int n => .ok (.literal (.int n), rest)
      | .float x => .ok (.literal (.float x), rest)
      | .bool b => .ok (.literal (.bool b), rest)
      | .null => .ok (.literal .null, rest)
      | .str s => let (more, rest) := moreStrings rest; .ok (.literal (.str (s ++ more)), rest)
      | .symbol (.opening .round) => (afterRound input deeper span).read rest
      | .symbol (.opening .square) =>
        (closeItems input .square span (element deeper) .list).read rest
      | .symbol (.opening .curly) => (afterCurly input deeper span).read rest
      | found => .error ⟨span, cannotStart found, none⟩
  shortens {ts a rest} h := by
    cases ts with
    | nil => cases h
    | cons l ts =>
      obtain ⟨token, span⟩ := l
      rw [List.length_cons]
      cases token with
      | int _ | float _ | bool _ | null => cases h; exact Nat.lt_succ_self _
      | str _ => cases h; exact Nat.lt_succ_of_le (moreStrings_length ts)
      | name _ | comparison _ | eof => cases h
      | symbol s =>
        apply Nat.lt_succ_of_lt
        cases s with
        | opening b =>
          cases b with
          | round => exact (afterRound input deeper span).shortens h
          | square => exact (closeItems input .square span (element deeper) .list).shortens h
          | curly => exact (afterCurly input deeper span).shortens h
        | _ => cases h

/-- A power: the base, and after `**` the exponent. -/
def power (input : Input) (deeper : Deeper) : Reader Expr where
  read ts := do
    let (base, rest) ← (atom input deeper).read ts
    match eat .doubleStar rest with
    | none => .ok (base, rest)
    | some rest =>
      building (.binary .pow base) ((deeper .unary).read rest)
  shortens {ts a rest} h := by
    obtain ⟨⟨base, r⟩, hb, h⟩ := bind_eq_ok.mp h
    have := (atom input deeper).shortens hb
    dsimp only at h
    split at h
    · cases h; assumption
    · next he =>
      obtain ⟨e, hr, _⟩ := building_eq_ok.mp h
      have := eat_length he
      have := (deeper .unary).shortens hr
      omega

/-- The operator that a token is before an operand. -/
def prefixOp? : Token → Option UnaryOp
  | .symbol .plus => some .pos
  | .symbol .minus => some .neg
  | .symbol .tilde => some .invert
  | _ => none

/-- A power, or a prefix operator and its operand. -/
def unary (input : Input) (deeper : Deeper) : Reader Expr where
  read ts :=
    match prefixOp? (input.next ts).token with
    | none => (power input deeper).read ts
    | some op => building (.unary op) ((deeper .unary).read ts.tail)
  shortens {ts a rest} h := by
    split at h
    · exact (power input deeper).shortens h
    · obtain ⟨e, hr, _⟩ := building_eq_ok.mp h
      have := (deeper .unary).shortens hr
      rw [List.length_tail] at this
      omega

/-! ## Binary operators -/

/-- The operators of one level of precedence. -/
abbrev Level := List (Symbol × BinaryOp)

/-- The levels, the loosest first. Operators of a level group to the left. -/
def levels : List Level :=
  [[(.pipe, .bitOr)], [(.caret, .bitXor)], [(.ampersand, .bitAnd)],
    [(.shiftLeft, .shiftLeft), (.shiftRight, .shiftRight)],
    [(.plus, .add), (.minus, .sub)],
    [(.star, .mul), (.slash, .trueDiv), (.doubleSlash, .floorDiv), (.percent, .mod)]]

def Level.op? (level : Level) : Token → Option BinaryOp
  | .symbol s => level.lookup s
  | _ => none

/-- Further operands of a level after the expression on their left. -/
def joined (operand : Reader Expr) (level : Level) (left : Expr) (ts : List Lexeme) :
    Except SyntaxError (Expr × List Lexeme) :=
  match ts with
  | [] => .ok (left, [])
  | l :: rest =>
    match level.op? l.token with
    | none => .ok (left, l :: rest)
    | some op =>
      match h : operand.read rest with
      | .error e => .error e
      | .ok (right, rest) =>
        have := operand.shortens h
        joined operand level (.binary op left right) rest
termination_by ts.length

theorem joined_length {operand : Reader Expr} {level : Level} {left e : Expr}
    {ts rest : List Lexeme} (h : joined operand level left ts = .ok (e, rest)) :
    rest.length ≤ ts.length := by
  fun_induction joined operand level left ts generalizing e rest with
  | case1 left => cases h; exact Nat.le_refl _
  | case2 left l ts hop => cases h; exact Nat.le_refl _
  | case3 left l ts op hop err hr => cases h
  | case4 left l ts op hop right after hr _ ih =>
    have := operand.shortens hr
    have := ih h
    rw [List.length_cons]
    omega

/-- Operands of one level. -/
def chain (level : Level) (operand : Reader Expr) : Reader Expr where
  read ts := do
    let (left, rest) ← operand.read ts
    joined operand level left rest
  shortens {ts a rest} h := by
    obtain ⟨⟨left, r⟩, hl, h⟩ := bind_eq_ok.mp h
    have := operand.shortens hl
    have := joined_length h
    omega

/-- Unary expressions joined by binary operators. -/
def operand (input : Input) (deeper : Deeper) : Reader Expr :=
  levels.foldr chain (unary input deeper)

/-- An operand, or `not` and an expression. -/
def expression (input : Input) (deeper : Deeper) : Reader Expr where
  read ts :=
    match eat .not ts with
    | none => (operand input deeper).read ts
    | some rest => building (.unary .not) ((deeper .expression).read rest)
  shortens {ts a rest} h := by
    split at h
    · exact (operand input deeper).shortens h
    · next he =>
      obtain ⟨e, hr, _⟩ := building_eq_ok.mp h
      have := eat_length he
      have := (deeper .expression).shortens hr
      omega

/-! ## Levels of nesting -/

/-- A rule, given the readers of the next level. -/
def rule (input : Input) (deeper : Deeper) : Nested → Reader Expr
  | .expression => expression input deeper
  | .operand => operand input deeper
  | .unary => unary input deeper

/-- The rules with so many levels still allowed; at none they fail where they
    start. -/
def within (input : Input) : Nat → Deeper
  | 0, _ =>
    { read := fun ts => .error ⟨(input.next ts).span, .tooDeep input.maxDepth, none⟩
      shortens := nofun }
  | depth + 1, which =>
    { read := fun ts => (rule input (within input depth) which).read ts
      shortens := (rule input (within input depth) which).shortens }

/-- An expression at whose end the input ends. -/
def whole (input : Input) : Expr × List Lexeme → Except SyntaxError Expr
  | (e, rest) =>
    let found := input.next rest
    if found.token = .eof then .ok e else .error ⟨found.span, cannotTrail found.token, none⟩

end Grammar

open Grammar

/-- The expression that a list of tokens is, up to an end of input among them
    or after the last. -/
def parse (tokens : List Lexeme) (maxDepth : Nat) : Except SyntaxError Expr :=
  let input : Input := ⟨maxDepth, impliedEnd tokens⟩
  (expressionList input (within input maxDepth) none).read tokens >>= whole input

end Calculator
