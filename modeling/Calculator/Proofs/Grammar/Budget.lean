import Calculator.Proofs.Grammar.Reading

/-
  The grammar as procedures that call one another, with a budget of calls. The readers
  of `Grammar` end because the levels of nesting do; here nothing but the budget ends the
  calls. The levels are counted in the state: a nested call raises the count and lowers
  it again, whatever was read. A call may use one less than the call that made it, and the
  rounds of a loop use nothing.

  Every procedure has a rank, above the ranks of those that it calls on the same level.
  So `height` calls are enough for a level, and only as many levels are open as are
  allowed, however many tokens there are.

  What is proved:
    1. `follows_bind`, `follows_taken`, `follows_nested`, `follows_items` — a run that is
       put together from runs that follow readers follows theirs.
    2. `body_follows` — one call, given calls that have enough left.
    3. `call_follows`, `parse_budget` — a budget in proportion to the depth is never spent,
       and with it the tokens are read and rejected as without.
-/

namespace Calculator.Grammar

/-! ## Runs -/

/-- The tokens still to be read, and the number of levels that are open. -/
structure State where
  tokens : List Lexeme
  depth : Nat

/-- Why a run gives no result: its budget is spent, or the tokens are rejected. -/
inductive Halt where
  | spent
  | rejected (error : SyntaxError)

abbrev Run := StateT State (Except Halt)

variable {α β : Type}

/-- What is read without any call, as the end of a run at a depth. -/
def ending (depth : Nat) : Except SyntaxError (α × List Lexeme) → Except Halt (α × State)
  | .ok (a, rest) => .ok (a, ⟨rest, depth⟩)
  | .error e => .error (.rejected e)

/-- A step that calls nothing and opens no level. -/
def step (read : Parse α) : Run α := fun st => ending st.depth (read st.tokens)

def spend : Run α := fun _ => .error .spent

def reject (error : SyntaxError) : Run α := step fun _ => .error error

/-- The next token, which is not taken. -/
def peek (input : Input) : Run Lexeme := step fun ts => .ok (input.next ts, ts)

/-- The next token is taken; at the end of the tokens nothing is. -/
def advance (input : Input) : Run Lexeme := step fun ts => .ok (input.next ts, ts.tail)

/-- Whether a symbol comes next, which is then taken. -/
def taken (s : Symbol) : Run Bool := step fun ts =>
  match eat s ts with
  | some rest => .ok (true, rest)
  | none => .ok (false, ts)

/-- Whether the tokens have reached the end of a list. -/
def ended (stop : Option Bracket) : Run Bool := step fun ts => .ok (atEnd stop ts, ts)

/-- Further string literals. -/
def strings : Run String := step fun ts => .ok (moreStrings ts)

/-- The next token is an error. -/
def rejectNext (input : Input) (cause : Token → SyntaxCause) (opened : Option Span) : Run α :=
  step fun ts => .error ⟨(input.next ts).span, cause (input.next ts).token, opened⟩

/-- The closing bracket of one that was opened at a place. -/
def closing (input : Input) (b : Bracket) (opened : Span) : Run Unit := step fun ts =>
  (fun rest => ((), rest)) <$> close input b opened ts

/-- A call with one more level open, unless all are. -/
def nested (input : Input) (call : Run α) : Run α := fun st =>
  if st.depth < input.maxDepth then
    match call { st with depth := st.depth + 1 } with
    | .ok (a, st) => .ok (a, { st with depth := st.depth - 1 })
    | .error halt => .error halt
  else rejectNext input (fun _ => .tooDeep input.maxDepth) none st

/-- Items separated by commas, in so many rounds. -/
def items (item : Run α) (stop : Option Bracket) : Nat → Run (List α)
  | 0 => spend
  | rounds + 1 => do
    if ← ended stop then pure []
    else do
      let first ← item
      if ← taken .comma then do
        let more ← items item stop rounds
        pure (first :: more)
      else pure [first]

/-- Every round takes a token, so there are no more rounds than tokens. -/
def allItems (item : Run α) (stop : Option Bracket) : Run (List α) := fun st =>
  items item stop (st.tokens.length + 1) st

/-- Further operands of a level, in so many rounds. -/
def operands (input : Input) (operand : Run Expr) (level : Level) : Nat → Expr → Run Expr
  | 0, _ => spend
  | rounds + 1, left => do
    let found ← peek input
    match level.op? found.token with
    | none => pure left
    | some op => do
      let _ ← advance input
      let right ← operand
      operands input operand level rounds (.binary op left right)

def allOperands (input : Input) (operand : Run Expr) (level : Level) (left : Expr) : Run Expr :=
  fun st => operands input operand level (st.tokens.length + 1) left st

/-! ## Procedures -/

/-- The procedures of the grammar, with what they are told. -/
inductive Procedure where
  | list (stop : Option Bracket)
  | elements (stop : Bracket)
  | element
  | expression
  /-- The operands of a level; past the last level they are unary expressions. -/
  | operand (level : Nat)
  /-- Operands of a level joined by the operators of the level before it. -/
  | joined (operators : Level) (level : Nat)
  | unary
  | power
  | atom
  /-- What follows an opening brace. -/
  | braces (opened : Span)
  /-- What follows the entries of a dict that have been read. -/
  | entries (given : List (Entry Expr)) (opened : Span)
  | entry

abbrev Procedure.Result : Procedure → Type
  | .elements _ => List (Element Expr)
  | .element => Element Expr
  | .entry => Entry Expr
  | _ => Expr

/-- What a procedure does, given how procedures are called. -/
def body (input : Input) (call : (p : Procedure) → Run p.Result) : (p : Procedure) → Run p.Result
  | .list stop => do
    let start ← peek input
    let first ← call .element
    if ← taken .comma then do
      let more ← allItems (call .element) stop
      pure (.tuple (first :: more))
    else
      match first with
      | .item e => pure e
      | .spread _ => reject ⟨start.span, .loneSpread, none⟩
  | .elements stop => allItems (call .element) (some stop)
  | .element => do
    if ← taken .star then do
      let source ← nested input (call (.operand 0))
      pure (.spread source)
    else do
      let e ← call .expression
      pure (.item e)
  | .expression => nested input do
    if ← taken .not then do
      let e ← call .expression
      pure (.unary .not e)
    else call (.operand 0)
  | .operand level =>
    match levels[level]? with
    | some operators => call (.joined operators (level + 1))
    | none => call .unary
  | .joined operators level => do
    let left ← call (.operand level)
    allOperands input (call (.operand level)) operators left
  | .unary => do
    let found ← peek input
    match prefixOp? found.token with
    | none => call .power
    | some op => do
      let _ ← advance input
      let e ← nested input (call .unary)
      pure (.unary op e)
  | .power => do
    let base ← call .atom
    if ← taken .doubleStar then do
      let exponent ← nested input (call .unary)
      pure (.binary .pow base exponent)
    else pure base
  | .atom => do
    let found ← advance input
    match found.token with
    | .int n => pure (.literal (.int n))
    | .float x => pure (.literal (.float x))
    | .bool b => pure (.literal (.bool b))
    | .null => pure (.literal .null)
    | .str s => do
      let more ← strings
      pure (.literal (.str (s ++ more)))
    | .symbol (.opening .round) => do
      if ← taken (.closing .round) then pure (.tuple [])
      else do
        let e ← call (.list (some .round))
        closing input .round found.span
        pure e
    | .symbol (.opening .square) => do
      let elements ← call (.elements .square)
      closing input .square found.span
      pure (.list elements)
    | .symbol (.opening .curly) => call (.braces found.span)
    | other => reject ⟨found.span, cannotStart other, none⟩
  | .braces opened => do
    if ← taken (.closing .curly) then pure (.dict [])
    else do
      let found ← peek input
      if found.token = .symbol .doubleStar then call (.entries [] opened)
      else do
        let first ← call .element
        let colon ← match first with
          | .item _ => taken .colon
          | .spread _ => pure false
        match first, colon with
        | .item key, true => do
          let value ← call .expression
          call (.entries [.pair key value] opened)
        | first, _ => do
          let comma ← taken .comma
          let more ← if comma then call (.elements .curly) else pure []
          closing input .curly opened
          pure (.set (first :: more))
  | .entries given opened => do
    let more ← if given.isEmpty then pure true else taken .comma
    let further ← if more then allItems (call .entry) (some .curly) else pure []
    closing input .curly opened
    pure (.dict (given ++ further))
  | .entry => do
    if ← taken .doubleStar then do
      let source ← nested input (call (.operand 0))
      pure (.spread source)
    else do
      let key ← call .expression
      if ← taken .colon then do
        let value ← call .expression
        pure (.pair key value)
      else rejectNext input (cannotFollow .expectedColon) none

/-- A call of a procedure, which with the calls that it makes in turn is within the
    budget. -/
def call (input : Input) : Nat → (p : Procedure) → Run p.Result
  | 0, _ => spend
  | budget + 1, p => body input (call input budget) p

/-- The expression that a list of tokens is, read within a budget of calls. -/
def parseWithin (budget : Nat) (tokens : List Lexeme) (maxDepth : Nat) : Except Halt Expr :=
  let input : Input := ⟨maxDepth, impliedEnd tokens⟩
  let run : Run Expr := do
    let e ← call input budget (.list none)
    if ← ended none then pure e
    else rejectNext input cannotTrail none
  run.run' ⟨tokens, 0⟩

/-! ## Runs and readers -/

/-- The run on the tokens, at the depth, ends in what a reader gives, and at the same
    depth. -/
def Follows (depth : Nat) (run : Run α) (ts : List Lexeme)
    (result : Except SyntaxError (α × List Lexeme)) : Prop :=
  run ⟨ts, depth⟩ = ending depth result

section Steps
variable {input : Input} {depth : Nat} {ts : List Lexeme}

theorem run_bind (run : Run α) (f : α → Run β) (st : State) :
    (run >>= f) st = match run st with
      | .ok (a, st) => f a st
      | .error halt => .error halt := by
  show (run st >>= fun p => f p.1 p.2) = _
  cases run st <;> rfl

theorem follows_step (read : Parse α) : Follows depth (step read) ts (read ts) := rfl

theorem follows_pure (a : α) : Follows depth (pure a) ts (.ok (a, ts)) := rfl

theorem follows_bind {run : Run α} {f : α → Run β} {result : Except SyntaxError (α × List Lexeme)}
    {g : α × List Lexeme → Except SyntaxError (β × List Lexeme)} (h : Follows depth run ts result)
    (hf : ∀ a rest, result = .ok (a, rest) → Follows depth (f a) rest (g (a, rest))) :
    Follows depth (run >>= f) ts (result >>= g) := by
  rw [Follows, run_bind, h]
  cases result with
  | error e => rfl
  | ok p => exact hf p.1 p.2 rfl

theorem follows_building {run : Run α} {result : Except SyntaxError (α × List Lexeme)} (f : α → β)
    (h : Follows depth run ts result) :
    Follows depth (run >>= fun a => pure (f a)) ts (building f result) := by
  rw [Follows, run_bind, h]
  cases result <;> rfl

/-- The next token is known to the rest of the run. -/
theorem follows_peek {f : Lexeme → Run α} {result : Except SyntaxError (α × List Lexeme)}
    (h : Follows depth (f (input.next ts)) ts result) :
    Follows depth (peek input >>= f) ts result :=
  h

theorem follows_advance {f : Lexeme → Run α} {result : Except SyntaxError (α × List Lexeme)}
    (h : Follows depth (f (input.next ts)) ts.tail result) :
    Follows depth (advance input >>= f) ts result :=
  h

theorem follows_ended {stop : Option Bracket} {f : Bool → Run α}
    {result : Except SyntaxError (α × List Lexeme)}
    (h : Follows depth (f (atEnd stop ts)) ts result) : Follows depth (ended stop >>= f) ts result :=
  h

theorem follows_taken {s : Symbol} {f : Bool → Run α}
    {result : Except SyntaxError (α × List Lexeme)}
    (hsome : ∀ rest, eat s ts = some rest → Follows depth (f true) rest result)
    (hnone : eat s ts = none → Follows depth (f false) ts result) :
    Follows depth (taken s >>= f) ts result := by
  rw [Follows, run_bind, taken, step]
  cases he : eat s ts with
  | none => exact hnone he
  | some rest => exact hsome rest he

theorem follows_closing {b : Bracket} {opened : Span} (a : α) :
    Follows depth (closing input b opened >>= fun _ => pure a) ts
      ((fun rest => (a, rest)) <$> close input b opened ts) := by
  rw [Follows, run_bind, closing, step]
  cases close input b opened ts <;> rfl

/-- A nested call follows the reader of the next level, and where no level is left the
    one that fails. -/
theorem follows_nested {allowed : Nat} (hdepth : depth + allowed = input.maxDepth)
    {run : Run Expr} {which : Nested} (h : ∀ fewer, allowed = fewer + 1 →
      Follows (depth + 1) run ts ((rule input (within input fewer) which).read ts)) :
    Follows depth (nested input run) ts ((within input allowed which).read ts) := by
  cases allowed with
  | zero =>
    have hall : ¬ depth < input.maxDepth := by omega
    rw [Follows, nested, if_neg hall]
    exact follows_step _
  | succ fewer =>
    have hfree : depth < input.maxDepth := by omega
    have hrun := h fewer rfl
    rw [Follows] at hrun
    rw [Follows, nested, if_pos hfree, hrun]
    have hread : (within input (fewer + 1) which).read ts =
        (rule input (within input fewer) which).read ts := rfl
    rw [hread]
    cases (rule input (within input fewer) which).read ts <;> rfl

/-! ## Loops -/

theorem follows_items {item : Run α} {reader : Reader α} (stop : Option Bracket)
    (h : ∀ us, Follows depth item us (reader.read us)) {rounds : Nat} (hrounds : ts.length < rounds) :
    Follows depth (items item stop rounds) ts (separated reader stop ts) := by
  induction rounds generalizing ts with
  | zero => exact absurd hrounds (Nat.not_lt_zero _)
  | succ rounds ih =>
    rw [separated_eq]
    refine follows_ended ?_
    cases atEnd stop ts with
    | true => exact follows_pure []
    | false =>
      refine follows_bind (h ts) fun first rest hread => ?_
      have hshorter := reader.shortens hread
      refine follows_taken (fun after he => ?_) fun he => ?_
      · have hlength := eat_length he
        simp only [he]
        exact follows_building (first :: ·) (ih (by omega))
      · simp only [he]
        exact follows_pure [first]

theorem follows_allItems {item : Run α} {reader : Reader α} (stop : Option Bracket)
    (h : ∀ us, Follows depth item us (reader.read us)) :
    Follows depth (allItems item stop) ts (separated reader stop ts) :=
  follows_items stop h (Nat.lt_succ_self _)

theorem follows_operands {run : Run Expr} {reader : Reader Expr} (level : Level)
    (h : ∀ us, Follows depth run us (reader.read us)) {rounds : Nat} (hrounds : ts.length < rounds)
    (left : Expr) :
    Follows depth (operands input run level rounds left) ts (joined reader level left ts) := by
  induction rounds generalizing ts left with
  | zero => exact absurd hrounds (Nat.not_lt_zero _)
  | succ rounds ih =>
    refine follows_peek ?_
    rw [next_token]
    cases hop : level.op? (nextToken ts) with
    | none =>
      rw [joined_stop hop]
      exact follows_pure left
    | some op =>
      cases ts with
      | nil => cases hop
      | cons l rest =>
        rw [joined_eq hop]
        refine follows_advance (follows_bind (h rest) fun right after hread => ?_)
        have hshorter := reader.shortens hread
        rw [List.length_cons] at hrounds
        exact ih (by omega) (.binary op left right)

theorem follows_allOperands {run : Run Expr} {reader : Reader Expr} (level : Level)
    (h : ∀ us, Follows depth run us (reader.read us)) (left : Expr) :
    Follows depth (allOperands input run level left) ts (joined reader level left ts) :=
  follows_operands level h (Nat.lt_succ_self _) left

/-- Items and the closing bracket after them. -/
theorem follows_closeItems {run : Run (List α)} {reader : Reader α} {b : Bracket} {opened : Span}
    {display : List α → Expr} (h : Follows depth run ts (separated reader (some b) ts)) :
    Follows depth
      (do
        let found ← run
        closing input b opened
        pure (display found))
      ts ((closeItems input b opened reader display).read ts) := by
  refine follows_bind h fun found rest _ => ?_
  exact follows_closing (display found)

/-- What may follow the first items in braces, of a set as of a dict. -/
theorem follows_moreItems {run : Run (List α)} {reader : Reader α} {opened : Span}
    {display : List α → Expr}
    (h : ∀ us, Follows depth run us (separated reader (some .curly) us)) :
    Follows depth
      (do
        let comma ← taken .comma
        let more ← if comma then run else pure []
        closing input .curly opened
        pure (display more))
      ts ((moreItems input opened reader display).read ts) := by
  simp only [moreItems]
  refine follows_taken (fun rest he => ?_) fun he => ?_
  · simp only [he]
    exact follows_closeItems (h rest)
  · simp only [he]
    exact follows_closing (display [])

end Steps

/-! ## Calls -/

/-- What a procedure reads with so many levels still allowed. -/
def Procedure.read (input : Input) (allowed : Nat) : (p : Procedure) → Parse p.Result
  | .list stop => (expressionList input (within input allowed) stop).read
  | .elements stop => separated (Grammar.element (within input allowed)) (some stop)
  | .element => (Grammar.element (within input allowed)).read
  | .expression => (within input allowed .expression).read
  | .operand level => (operandFrom input (within input allowed) level).read
  | .joined operators level =>
    (chain operators (operandFrom input (within input allowed) level)).read
  | .unary => (Grammar.unary input (within input allowed)).read
  | .power => (Grammar.power input (within input allowed)).read
  | .atom => (Grammar.atom input (within input allowed)).read
  | .braces opened => (afterCurly input (within input allowed) opened).read
  | .entries [] opened =>
    (closeItems input .curly opened (Grammar.entry input (within input allowed)) .dict).read
  | .entries (first :: given) opened =>
    (moreItems input opened (Grammar.entry input (within input allowed)) fun more =>
      .dict (first :: given ++ more)).read
  | .entry => (Grammar.entry input (within input allowed)).read

/-- The calls that a procedure needs on its own level: one more than any procedure that
    it calls without opening a level. -/
def Procedure.rank : Procedure → Nat
  | .expression => 1
  | .element | .entry => 2
  | .list _ | .elements _ | .entries _ _ => 3
  | .braces _ => 4
  | .atom => 5
  | .power => 6
  | .unary => 7
  | .operand level => 8 + 2 * (levels.length - level)
  | .joined _ level => 9 + 2 * (levels.length - level)

/-- The calls that any procedure needs on one level. -/
def height : Nat := 9 + 2 * levels.length

theorem rank_pos (p : Procedure) : 0 < p.rank := by
  cases p <;> simp only [Procedure.rank] <;> omega

theorem rank_le_height (p : Procedure) : p.rank ≤ height := by
  cases p <;> simp only [Procedure.rank, height] <;> omega

/-- Calls at a depth that follow their readers: of the procedures below a rank, and one
    level deeper of all. -/
structure Calls (input : Input) (allowed depth rank : Nat)
    (call : (p : Procedure) → Run p.Result) : Prop where
  counted : depth + allowed = input.maxDepth
  same : ∀ q : Procedure, q.rank < rank → ∀ us,
    Follows depth (call q) us (q.read input allowed us)
  deeper : ∀ fewer, allowed = fewer + 1 → ∀ (q : Procedure) us,
    Follows (depth + 1) (call q) us (q.read input fewer us)

section Procedures
variable {input : Input} {allowed depth : Nat} {call : (p : Procedure) → Run p.Result}

/-- The operand of a spread, a level deeper. -/
theorem source_follows {rank : Nat} (h : Calls input allowed depth rank call) (ts : List Lexeme) :
    Follows depth (nested input (call (.operand 0))) ts ((within input allowed .operand).read ts) :=
  follows_nested h.counted fun fewer hfewer => h.deeper fewer hfewer (.operand 0) ts

/-- The operand of a sign or an exponent, a level deeper. -/
theorem signed_follows {rank : Nat} (h : Calls input allowed depth rank call) (ts : List Lexeme) :
    Follows depth (nested input (call .unary)) ts ((within input allowed .unary).read ts) :=
  follows_nested h.counted fun fewer hfewer => h.deeper fewer hfewer .unary ts

theorem list_follows {stop : Option Bracket}
    (h : Calls input allowed depth (Procedure.list stop).rank call) (ts : List Lexeme) :
    Follows depth (body input call (.list stop)) ts ((Procedure.list stop).read input allowed ts) := by
  have helement := h.same .element (by simp [Procedure.rank])
  refine follows_peek (follows_bind (helement ts) fun first rest _ => ?_)
  refine follows_taken (fun after he => ?_) fun he => ?_
  · simp only [he]
    exact follows_building _ (follows_allItems stop helement)
  · simp only [he]
    cases first <;> rfl

theorem element_follows (h : Calls input allowed depth Procedure.element.rank call)
    (ts : List Lexeme) :
    Follows depth (body input call .element) ts (Procedure.element.read input allowed ts) := by
  simp only [Procedure.read, Grammar.element]
  refine follows_taken (fun rest he => ?_) fun he => ?_
  · simp only [he]
    exact follows_building _ (source_follows h rest)
  · simp only [he]
    exact follows_building _ (h.same .expression (by simp [Procedure.rank]) ts)

theorem entry_follows (h : Calls input allowed depth Procedure.entry.rank call)
    (ts : List Lexeme) :
    Follows depth (body input call .entry) ts (Procedure.entry.read input allowed ts) := by
  have hexpression := h.same .expression (by simp [Procedure.rank])
  simp only [Procedure.read, Grammar.entry]
  refine follows_taken (fun rest he => ?_) fun he => ?_
  · simp only [he]
    exact follows_building _ (source_follows h rest)
  · simp only [he]
    refine follows_bind (hexpression ts) fun key rest _ => ?_
    refine follows_taken (fun after he => ?_) fun he => ?_
    · simp only [he]
      exact follows_building _ (hexpression after)
    · simp only [he]
      rfl

theorem expression_follows (h : Calls input allowed depth Procedure.expression.rank call)
    (ts : List Lexeme) :
    Follows depth (body input call .expression) ts (Procedure.expression.read input allowed ts) := by
  refine follows_nested h.counted fun fewer hfewer => ?_
  simp only [rule, Grammar.expression]
  refine follows_taken (fun rest he => ?_) fun he => ?_
  · simp only [he]
    exact follows_building _ (h.deeper fewer hfewer .expression rest)
  · simp only [he]
    exact h.deeper fewer hfewer (.operand 0) ts

theorem operand_follows {level : Nat}
    (h : Calls input allowed depth (Procedure.operand level).rank call) (ts : List Lexeme) :
    Follows depth (body input call (.operand level)) ts
      ((Procedure.operand level).read input allowed ts) := by
  by_cases hlevel : level < levels.length
  · have hjoined := h.same (.joined levels[level] (level + 1))
      (by simp only [Procedure.rank]; omega) ts
    simp only [body, Procedure.read, List.getElem?_eq_getElem hlevel, operandFrom_of_lt hlevel]
    exact hjoined
  · have hunary := h.same .unary (by simp only [Procedure.rank]; omega) ts
    simp only [body, Procedure.read, List.getElem?_eq_none (Nat.le_of_not_lt hlevel),
      operandFrom_of_le (Nat.le_of_not_lt hlevel)]
    exact hunary

theorem joined_follows {operators : Level} {level : Nat}
    (h : Calls input allowed depth (Procedure.joined operators level).rank call)
    (ts : List Lexeme) :
    Follows depth (body input call (.joined operators level)) ts
      ((Procedure.joined operators level).read input allowed ts) := by
  have hoperand := h.same (.operand level) (by simp only [Procedure.rank]; omega)
  exact follows_bind (hoperand ts) fun left _ _ => follows_allOperands operators hoperand left

theorem unary_follows (h : Calls input allowed depth Procedure.unary.rank call)
    (ts : List Lexeme) :
    Follows depth (body input call .unary) ts (Procedure.unary.read input allowed ts) := by
  simp only [Procedure.read, Grammar.unary]
  refine follows_peek ?_
  cases hop : prefixOp? (input.next ts).token with
  | none => exact h.same .power (by simp [Procedure.rank]) ts
  | some op => exact follows_advance (follows_building _ (signed_follows h ts.tail))

theorem power_follows (h : Calls input allowed depth Procedure.power.rank call)
    (ts : List Lexeme) :
    Follows depth (body input call .power) ts (Procedure.power.read input allowed ts) := by
  refine follows_bind (h.same .atom (by simp [Procedure.rank]) ts) fun base rest _ => ?_
  refine follows_taken (fun after he => ?_) fun he => ?_
  · simp only [he]
    exact follows_building _ (signed_follows h after)
  · simp only [he]
    exact follows_pure base

theorem elements_follows {stop : Bracket}
    (h : Calls input allowed depth (Procedure.elements stop).rank call) (ts : List Lexeme) :
    Follows depth (body input call (.elements stop)) ts
      ((Procedure.elements stop).read input allowed ts) :=
  follows_allItems (some stop) (h.same .element (by simp [Procedure.rank]))

theorem entries_follows {given : List (Entry Expr)} {opened : Span}
    (h : Calls input allowed depth (Procedure.entries given opened).rank call)
    (ts : List Lexeme) :
    Follows depth (body input call (.entries given opened)) ts
      ((Procedure.entries given opened).read input allowed ts) := by
  have hentry := h.same .entry (by simp [Procedure.rank])
  cases given with
  | nil => exact follows_closeItems (follows_allItems (some .curly) hentry)
  | cons first given => exact follows_moreItems fun us => follows_allItems (some .curly) hentry

theorem braces_follows {opened : Span}
    (h : Calls input allowed depth (Procedure.braces opened).rank call) (ts : List Lexeme) :
    Follows depth (body input call (.braces opened)) ts
      ((Procedure.braces opened).read input allowed ts) := by
  have helement := h.same .element (by simp [Procedure.rank])
  have helements := h.same (.elements .curly) (by simp [Procedure.rank])
  have hexpression := h.same .expression (by simp [Procedure.rank])
  simp only [Procedure.read, afterCurly]
  refine follows_taken (fun rest he => ?_) fun he => ?_
  · simp only [he]
    exact follows_pure _
  · simp only [he]
    refine follows_peek ?_
    rw [next_token]
    by_cases hstars : nextToken ts = .symbol .doubleStar
    · have heat : (eat .doubleStar ts).isSome := by
        rw [Option.isSome_iff_ne_none, ne_eq, eat_eq_none_iff]
        exact not_not_intro hstars
      rw [if_pos hstars, if_pos heat]
      exact h.same (.entries [] opened) (by simp [Procedure.rank]) ts
    · have heat : ¬ (eat .doubleStar ts).isSome := by
        rw [eat_eq_none_iff.mpr hstars]
        exact Bool.false_ne_true
      rw [if_neg hstars, if_neg heat]
      refine follows_bind (helement ts) fun first rest _ => ?_
      cases first with
      | spread source => exact follows_moreItems helements
      | item key =>
        refine follows_taken (fun after hcolon => ?_) fun hcolon => ?_
        · simp only [hcolon]
          refine follows_bind (hexpression after) fun value rest _ => ?_
          exact h.same (.entries [.pair key value] opened) (by simp [Procedure.rank]) rest
        · simp only [hcolon]
          exact follows_moreItems helements

theorem atom_follows (h : Calls input allowed depth Procedure.atom.rank call)
    (ts : List Lexeme) :
    Follows depth (body input call .atom) ts (Procedure.atom.read input allowed ts) := by
  cases ts with
  | nil => rfl
  | cons l ts =>
    obtain ⟨token, span⟩ := l
    refine follows_advance ?_
    cases token with
    | int _ | float _ | bool _ | null | str _ => rfl
    | name _ | comparison _ | eof => rfl
    | symbol s =>
      cases s with
      | opening b =>
        cases b with
        | round =>
          have hlist := h.same (.list (some .round)) (by simp [Procedure.rank])
          have hread : Procedure.atom.read input allowed
              (⟨.symbol (.opening .round), span⟩ :: ts) =
                (afterRound input (within input allowed) span).read ts := rfl
          rw [hread, afterRound, List.tail_cons]
          refine follows_taken (fun rest he => ?_) fun he => ?_
          · simp only [he]
            exact follows_pure _
          · simp only [he]
            exact follows_bind (hlist ts) fun e rest _ => follows_closing e
        | square =>
          have helements := h.same (.elements .square) (by simp [Procedure.rank])
          exact follows_closeItems (helements ts)
        | curly => exact h.same (.braces span) (by simp [Procedure.rank]) ts
      | _ => rfl

/-- One call follows its reader when the calls that it makes do. -/
theorem body_follows (p : Procedure) (h : Calls input allowed depth p.rank call)
    (ts : List Lexeme) : Follows depth (body input call p) ts (p.read input allowed ts) := by
  cases p with
  | list stop => exact list_follows h ts
  | elements stop => exact elements_follows h ts
  | element => exact element_follows h ts
  | expression => exact expression_follows h ts
  | operand level => exact operand_follows h ts
  | joined operators level => exact joined_follows h ts
  | unary => exact unary_follows h ts
  | power => exact power_follows h ts
  | atom => exact atom_follows h ts
  | braces opened => exact braces_follows h ts
  | entries given opened => exact entries_follows h ts
  | entry => exact entry_follows h ts

end Procedures

/-- The rank of a procedure and `height` calls for each level still allowed are enough. -/
theorem call_follows {input : Input} {budget allowed depth : Nat} {p : Procedure}
    (hdepth : depth + allowed = input.maxDepth) (hbudget : p.rank + height * allowed ≤ budget)
    (ts : List Lexeme) :
    Follows depth (call input budget p) ts (p.read input allowed ts) := by
  induction budget generalizing p allowed depth ts with
  | zero =>
    have hpos := rank_pos p
    omega
  | succ budget ih =>
    refine body_follows p ⟨hdepth, fun q hq us => ih hdepth (by omega) us,
      fun fewer hfewer q us => ih (by omega) ?_ us⟩ ts
    have hheight := rank_le_height q
    have hpos := rank_pos p
    rw [hfewer, Nat.mul_succ] at hbudget
    omega

/-- An expression that has been read is the result where the input ends after it. -/
theorem follows_whole {input : Input} {depth : Nat} (e : Expr) (ts : List Lexeme) :
    Follows depth
      (do if ← ended none then pure e else rejectNext input cannotTrail none) ts
      ((fun e => (e, ts)) <$> whole input (e, ts)) := by
  refine follows_ended ?_
  by_cases hend : nextToken ts = .eof
  · rw [atEnd_iff.mpr hend, whole_eq_ok_iff.mpr ⟨hend, rfl⟩]
    exact follows_pure e
  · have hgoes : atEnd none ts = false := Bool.eq_false_iff.mpr fun h => hend (atEnd_iff.mp h)
    have hrejected : (input.next ts).token ≠ .eof := by rwa [next_token]
    rw [hgoes, whole, if_neg hrejected]
    rfl

/-- A budget in proportion to the depth that is allowed is enough for tokens of any
    number, and the result is that of reading without one. -/
theorem parse_budget : ∃ K : Nat, ∀ (tokens : List Lexeme) (maxDepth : Nat),
    parseWithin (K * (maxDepth + 1)) tokens maxDepth =
      (parse tokens maxDepth).mapError Halt.rejected := by
  refine ⟨height, fun tokens maxDepth => ?_⟩
  have hbudget : (Procedure.list none).rank + height * maxDepth ≤ height * (maxDepth + 1) := by
    have hheight := rank_le_height (.list none)
    rw [Nat.mul_succ]
    omega
  have hcall : Follows 0 (call ⟨maxDepth, impliedEnd tokens⟩ (height * (maxDepth + 1)) (.list none))
      tokens (Phrase.list.read ⟨maxDepth, impliedEnd tokens⟩ maxDepth none tokens) :=
    call_follows (Nat.zero_add maxDepth) hbudget tokens
  rw [parseWithin, parse_eq_whole, StateT.run'_eq, StateT.run, run_bind, hcall]
  cases Phrase.list.read ⟨maxDepth, impliedEnd tokens⟩ maxDepth none tokens with
  | error e => rfl
  | ok p =>
    obtain ⟨e, rest⟩ := p
    have hwhole : Follows 0 _ rest
        ((fun e => (e, rest)) <$> whole ⟨maxDepth, impliedEnd tokens⟩ (e, rest)) :=
      follows_whole e rest
    rw [Follows] at hwhole
    simp only [ending, hwhole, ok_bind]
    cases whole ⟨maxDepth, impliedEnd tokens⟩ (e, rest) <;> rfl

-- A number is nineteen calls deep, which one less does not reach.
example : parseWithin 19 [⟨.int 7, ⟨0, 1⟩⟩] 1 = .ok (.literal (.int 7)) := rfl
example : parseWithin 18 [⟨.int 7, ⟨0, 1⟩⟩] 1 = .error .spent := rfl

end Calculator.Grammar
