import Calculator.Proofs.Grammar.Failure
import Calculator.Proofs.Grammar.Lockstep

/-
  An error stands at the first token that no accepted input has there. What was
  read before it begins an expression list, and every beginning can be
  completed. And the run up to an error depends on nothing after the next token
  nor on the depth that is allowed, so no other continuation avoids the error.

  The first part is about beginnings and the second about runs. They name the
  place of the error by the tokens before it, and spans may repeat among the
  tokens. So the run is repeated with a next token whose place occurs nowhere
  else, which shows that both mean the same place.

  What is proved:
    1. `begins_completes` — a beginning of a phrase can be completed.
    2. `parse_error_first` — unless the error is about the depth or a spread
       without a comma, the tokens before it can be continued to an accepted
       list, and together with its own token they cannot.
-/

namespace Calculator.Grammar

/-! ## Completions -/

/-- More tokens make the phrase complete. -/
def Completes (p : Phrase) (ts : List Token) : Prop :=
  ∃ more x n, Derives p (ts ++ more) x n

/-- Past the tightest level there are no operands. -/
theorem begins_past {level : Nat} {ts : List Token} (h : Begins (.joined level) ts)
    (hlevel : levels.length < level) : ts = [] := by
  generalize hp : Phrase.joined level = p at h
  induction h generalizing level with
  | start _ => rfl
  | left _ ih =>
    cases hp
    exact ih (Nat.lt_succ_of_lt hlevel) rfl
  | right _ hj _ _ =>
    cases hp
    exact absurd (joins_lt hj) (by omega)
  | unjoined _ _ =>
    cases hp
    exact absurd hlevel (by decide)
  | _ => cases hp

theorem null_joined {level : Nat} (h : level ≤ levels.length) :
    Derives (.joined level) [.null] (.literal .null) 0 :=
  derives_joined h (.unsigned (.base .null))

theorem null_expression : Derives .expression [.null] (.literal .null) 1 :=
  .operand (null_joined (Nat.zero_le _))

theorem completes_nil {p : Phrase} (hp : ∀ level, p = .joined level → level ≤ levels.length) :
    Completes p [] := by
  cases p with
  | list => exact ⟨[.null], _, _, .lone (.item null_expression)⟩
  | expression => exact ⟨[.null], _, _, null_expression⟩
  | joined level => exact ⟨[.null], _, _, null_joined (hp level rfl)⟩
  | unary => exact ⟨[.null], _, _, .unsigned (.base .null)⟩
  | power => exact ⟨[.null], _, _, .base .null⟩
  | atom => exact ⟨[.null], _, _, .null⟩
  | place k =>
    cases k with
    | element => exact ⟨[.null], _, _, .item null_expression⟩
    | entry =>
      exact ⟨[.null, .symbol .colon, .null], _, _, .pair null_expression null_expression⟩
  | places k => exact ⟨[], _, _, .none⟩

/-- Brackets around what may stand in them are an operand. -/
theorem derives_bracketed {b : Bracket} {p : Phrase} {ts : List Token} {x : p.Tree} {n : Nat}
    (hp : Inside b p) (h : Derives p ts x n) :
    ∃ e, Derives .atom (.symbol (.opening b) :: ts ++ [.symbol (.closing b)]) e n := by
  cases hp with
  | round => exact ⟨_, .round h⟩
  | square => exact ⟨_, .square h⟩
  | curly k =>
    cases k with
    | entry => exact ⟨_, .dict h⟩
    | element =>
      cases x with
      | nil =>
        cases h
        exact ⟨_, .dict .none⟩
      | cons x xs => exact ⟨_, .set h⟩

theorem completes_keyed {ts : List Token} {e : Expr} {n : Nat} (h : Derives .expression ts e n) :
    Completes (.place .entry) ts :=
  ⟨[.symbol .colon, .null], _, _, .pair h null_expression⟩

theorem begins_completes {p : Phrase} {ts : List Token} (h : Begins p ts)
    (hp : ∀ level, p = .joined level → level ≤ levels.length) : Completes p ts := by
  induction h with
  | start p => exact completes_nil hp
  | first _ ih =>
    -- the comma makes a tuple also of a spread
    obtain ⟨more, x, n, hx⟩ := ih nofun
    refine ⟨more ++ [.symbol .comma], .tuple [x], max n 0, ?_⟩
    rw [← List.append_assoc]
    exact .bareTuple hx .none
  | rest hx _ ih =>
    obtain ⟨more, xs, n, hxs⟩ := ih nofun
    exact ⟨more, _, _, by simpa using .bareTuple hx hxs⟩
  | not _ ih =>
    obtain ⟨more, e, n, he⟩ := ih nofun
    exact ⟨more, _, _, .not he⟩
  | operand _ ih =>
    obtain ⟨more, e, n, he⟩ := ih fun level hl => by cases hl; exact Nat.zero_le _
    exact ⟨more, _, _, .operand he⟩
  | @left level ts h ih =>
    by_cases hlevel : level < levels.length
    · obtain ⟨more, e, n, he⟩ := ih fun level hl => by cases hl; exact hlevel
      exact ⟨more, _, _, .tighter he⟩
    · rw [begins_past h (by omega)]
      exact completes_nil hp
  | right hl hj _ ih =>
    obtain ⟨more, e, n, he⟩ := ih fun level hl => by cases hl; exact joins_lt hj
    exact ⟨more, _, _, by simpa using .join hl hj he⟩
  | unjoined _ ih =>
    obtain ⟨more, e, n, he⟩ := ih nofun
    exact ⟨more, _, _, .unjoined he⟩
  | signed hs _ ih =>
    obtain ⟨more, e, n, he⟩ := ih nofun
    exact ⟨more, _, _, .signed hs he⟩
  | unsigned _ ih =>
    obtain ⟨more, e, n, he⟩ := ih nofun
    exact ⟨more, _, _, .unsigned he⟩
  | base _ ih =>
    obtain ⟨more, e, n, he⟩ := ih nofun
    exact ⟨more, _, _, .base he⟩
  | exponent hb _ ih =>
    obtain ⟨more, e, n, he⟩ := ih nofun
    exact ⟨more, _, _, by simpa using .raised hb he⟩
  | @opened b p ts hb _ ih =>
    obtain ⟨more, x, n, hx⟩ := ih (by cases hb <;> exact nofun)
    obtain ⟨e, he⟩ := derives_bracketed hb hx
    exact ⟨more ++ [.symbol (.closing b)], e, n, by simpa using he⟩
  | @unclosed b p ts x n hb hx =>
    obtain ⟨e, he⟩ := derives_bracketed hb hx
    exact ⟨[.symbol (.closing b)], e, n, he⟩
  | item _ ih =>
    obtain ⟨more, e, n, he⟩ := ih nofun
    exact ⟨more, _, _, .item he⟩
  | spreadElements _ ih =>
    obtain ⟨more, e, n, he⟩ := ih fun level hl => by cases hl; exact Nat.zero_le _
    exact ⟨more, _, _, .spreadElements he⟩
  | key _ ih =>
    obtain ⟨more, e, n, he⟩ := ih nofun
    obtain ⟨value, x, n, hx⟩ := completes_keyed he
    exact ⟨more ++ value, x, n, by rwa [← List.append_assoc]⟩
  | keyed hk => exact completes_keyed hk
  | value hk _ ih =>
    obtain ⟨more, e, n, he⟩ := ih nofun
    exact ⟨more, _, _, by simpa using .pair hk he⟩
  | spreadEntries _ ih =>
    obtain ⟨more, e, n, he⟩ := ih fun level hl => by cases hl; exact Nat.zero_le _
    exact ⟨more, _, _, .spreadEntries he⟩
  | last _ ih =>
    obtain ⟨more, x, n, hx⟩ := ih nofun
    exact ⟨more, _, _, .last hx⟩
  | more hx _ ih =>
    obtain ⟨more, xs, n, hxs⟩ := ih nofun
    exact ⟨more, _, _, by simpa using .more hx hxs⟩

/-! ## The place of an error -/

theorem exists_fresh (ls : List Lexeme) : ∃ n, ∀ l ∈ ls, l.span.start < n := by
  induction ls with
  | nil => exact ⟨0, nofun⟩
  | cons l ls ih =>
    obtain ⟨n, hn⟩ := ih
    refine ⟨max n (l.span.start + 1), List.forall_mem_cons.mpr ⟨by omega, fun m hm => ?_⟩⟩
    have := hn m hm
    omega

/-- A rest with the same next token, whose place tells where it starts. -/
theorem exists_marked (used rest : List Lexeme) : ∃ (input : Input) (rest' : List Lexeme),
    SameNext rest rest' ∧ ∀ used' after, used ++ rest' = used' ++ after →
      (input.next after).span = (input.next rest').span → used' = used := by
  obtain ⟨n, hn⟩ := exists_fresh used
  -- a rest that starts within the tokens before has one of their places
  have early {used' mid after rest' : List Lexeme} {input : Input}
      (hused : used = used' ++ mid) (hafter : after = mid ++ rest')
      (hspan : (input.next after).span.start = n) : used' = used := by
    cases mid with
    | nil => rw [hused, List.append_nil]
    | cons m mid =>
      have hm := hn m (by simp [hused])
      rw [hafter] at hspan
      exact absurd hspan (Nat.ne_of_lt hm)
  cases rest with
  | nil =>
    refine ⟨⟨0, .point n⟩, [], rfl, fun used' after h hspan => ?_⟩
    rw [List.append_nil] at h
    exact early h (List.append_nil after).symm (congrArg Span.start hspan)
  | cons l rest =>
    refine ⟨⟨0, .point (n + 1)⟩, [⟨l.token, .point n⟩], rfl, fun used' after h hspan => ?_⟩
    rcases List.append_eq_append_iff.mp h with ⟨mid, hused, hrest⟩ | ⟨mid, hused, hafter⟩
    · cases mid with
      | nil => rw [hused, List.append_nil]
      | cons m mid =>
        -- then nothing is left, and the input ends at another place
        obtain ⟨_, hnil⟩ := List.cons.inj hrest
        obtain ⟨_, rfl⟩ := List.append_eq_nil_iff.mp hnil.symm
        exact absurd (congrArg Span.start hspan) (Nat.succ_ne_self n)
    · exact early hused hafter (congrArg Span.start hspan)

/-- What was read before an error at the next token can be completed. -/
theorem completes_of_error {depth : Nat} {used rest : List Lexeme} {cause : SyntaxCause}
    {opened : Option Span}
    (h : ∀ input rest', SameNext rest rest' → Phrase.list.read input depth none (used ++ rest') =
      .error ⟨(input.next rest').span, cause, opened⟩) : Completes .list (tokens used) := by
  obtain ⟨input, rest', hsame, hplace⟩ := exists_marked used rest
  obtain ⟨used', after, hused, hbegins, hspan, _⟩ :=
    expressionList_fails (within_sound input depth) (within_fails input depth) none
      (h input rest' hsame)
  obtain rfl := hplace used' after hused hspan.symm
  exact begins_completes hbegins nofun

theorem completes_of_ok {input : Input} {depth : Nat} {used rest : List Lexeme} {x : Expr}
    (h : Phrase.list.read input depth none (used ++ rest) = .ok (x, rest)) :
    Completes .list (tokens used) := by
  obtain ⟨used', n, hused, _, hx⟩ := read_sound input depth none .list nofun h
  obtain rfl := List.append_cancel_right hused
  exact ⟨[], x, n, by rwa [List.append_nil]⟩

/-! ## The whole input -/

theorem parse_completed {used : List Lexeme} (h : Completes .list (tokens used)) :
    ∃ rest depth x, parse (used ++ rest) depth = .ok x := by
  obtain ⟨more, x, n, hx⟩ := h
  let ms : List Lexeme := more.map (⟨·, .point 0⟩)
  have htokens : tokens (used ++ ms) = tokens used ++ more := by
    simp [tokens, ms, Function.comp_def]
  have hend : ∀ l ∈ used ++ ms, l.token ≠ .eof := by
    intro l hl heof
    refine derives_not_end hx ?_
    rw [← htokens, ← heof]
    exact List.mem_map_of_mem hl
  refine ⟨ms ++ [⟨.eof, .point 0⟩], n, x, parse_eq_ok_iff.mpr ⟨n, Nat.le_refl n, ?_⟩⟩
  rwa [← List.append_assoc, takeWhile_end hend, htokens]

theorem exists_after (input : Input) (rest : List Lexeme) :
    ∃ after, rest ++ [⟨.eof, input.endSpan⟩] = input.next rest :: after := by
  cases rest with
  | nil => exact ⟨[], rfl⟩
  | cons l rest => exact ⟨rest ++ [⟨.eof, input.endSpan⟩], rfl⟩

theorem sameNext_takeWhile {rest : List Lexeme} (h : ∀ l ∈ rest, l.token ≠ .eof) (input : Input)
    (more : List Lexeme) :
    SameNext rest ((input.next rest :: more).takeWhile (·.token ≠ .eof)) := by
  cases rest with
  | nil => rfl
  | cons l rest =>
    have hl : l.token ≠ .eof := h l (by simp)
    simp [SameNext, nextToken, Input.next, hl]

/-- A list that is not read to its end is not read to its end with any other
    tokens after the next one. -/
theorem not_derives_of_step {depth : Nat} {used rest rest' : List Lexeme} {ending : Ending Expr}
    (hrest : ∀ l ∈ rest, l.token ≠ .eof)
    (hstep : ∀ input' depth' rest', depth ≤ depth' → SameNext rest rest' →
      Phrase.list.read input' depth' none (used ++ rest') = ending.give input' rest')
    (hending : ∀ e, ending = .ok e → rest ≠ []) (hsame : SameNext rest rest') (x : Expr) (n : Nat) :
    ¬ Derives .list (tokens (used ++ rest')) x n := by
  intro h
  let input : Input := ⟨0, .point 0⟩
  have hread : Phrase.list.read input (max depth n) none (used ++ rest' ++ []) = .ok (x, []) :=
    derives_complete input h (max depth n) none _ [] (Nat.le_max_right _ _) rfl rfl
  rw [List.append_nil, hstep input _ rest' (Nat.le_max_left _ _) hsame] at hread
  cases ending with
  | error failure => cases hread
  | ok e =>
    cases hread
    cases rest with
    | nil => exact hending _ rfl rfl
    | cons l rest => exact hrest l List.mem_cons_self hsame

theorem parse_rejects {used rest : List Lexeme} (hused : ∀ l ∈ used, l.token ≠ .eof)
    (hrest : ∀ l ∈ rest, l.token ≠ .eof) (input : Input)
    (h : ∀ rest' x n, SameNext rest rest' → ¬ Derives .list (tokens (used ++ rest')) x n)
    (more : List Lexeme) (depth : Nat) :
    ∃ e, parse (used ++ input.next rest :: more) depth = .error e := by
  cases hparse : parse (used ++ input.next rest :: more) depth with
  | error e => exact ⟨e, rfl⟩
  | ok x =>
    obtain ⟨n, _, hx⟩ := parse_eq_ok_iff.mp hparse
    rw [List.takeWhile_append_of_pos (by simpa using hused)] at hx
    exact absurd hx (h _ x n (sameNext_takeWhile hrest input more))

/-- An error that is neither about the depth nor about a spread without a comma
    stands at the first token that no accepted input has there. -/
theorem parse_error_first {ts : List Lexeme} (hts : ∀ l ∈ ts, l.token ≠ .eof) {endSpan : Span}
    {maxDepth : Nat} {e : SyntaxError} (h : parse (ts ++ [⟨.eof, endSpan⟩]) maxDepth = .error e)
    (hdeep : ∀ limit, e.cause ≠ .tooDeep limit) (hlone : e.cause ≠ .loneSpread) :
    ∃ before l after, ts ++ [⟨.eof, endSpan⟩] = before ++ l :: after ∧ e.span = l.span ∧
      (∃ more depth x, parse (before ++ more) depth = .ok x) ∧
      ∀ more depth, ∃ e', parse (before ++ l :: more) depth = .error e' := by
  rw [parse_eq, takeWhile_end hts, endOf_end hts] at h
  rcases list_lockstep ⟨maxDepth, endSpan⟩ maxDepth none ts with
    ⟨e', limit, he', hcause⟩ | ⟨used, rest, ending, rfl, hread, hstep⟩
  · rw [he'] at h
    cases h
    exact absurd hcause (hdeep limit)
  · obtain ⟨hused, hrest⟩ := List.forall_mem_append.mp hts
    have hplace : e.span = (Input.next ⟨maxDepth, endSpan⟩ rest).span ∧
        Completes .list (tokens used) ∧ ∀ x, ending = .ok x → rest ≠ [] := by
      rw [hread] at h
      cases ending with
      | error failure =>
        cases h
        cases failure with
        | lone span => exact absurd rfl hlone
        | here cause opened =>
          exact ⟨rfl, completes_of_error fun input' rest' hsame =>
            hstep input' maxDepth rest' (Nat.le_refl _) hsame, nofun⟩
      | ok x =>
        cases rest with
        | nil => cases h
        | cons l rest =>
          cases h
          exact ⟨rfl, completes_of_ok hread, nofun⟩
    obtain ⟨hspan, hcompletes, hending⟩ := hplace
    obtain ⟨after, hafter⟩ := exists_after ⟨maxDepth, endSpan⟩ rest
    refine ⟨used, _, after, ?_, hspan, parse_completed hcompletes, ?_⟩
    · rw [List.append_assoc, ← hafter]
    · exact parse_rejects hused hrest _ fun rest' x n hsame =>
        not_derives_of_step hrest hstep hending hsame x n

/-- The tokens of `{1: 2, *3}`, a dict up to the star. -/
def mixedTokens : List Lexeme :=
  [⟨.symbol (.opening .curly), ⟨0, 1⟩⟩, ⟨.int 1, ⟨1, 2⟩⟩, ⟨.symbol .colon, ⟨2, 3⟩⟩,
    ⟨.int 2, ⟨4, 5⟩⟩, ⟨.symbol .comma, ⟨5, 6⟩⟩, ⟨.symbol .star, ⟨7, 8⟩⟩, ⟨.int 3, ⟨8, 9⟩⟩,
    ⟨.symbol (.closing .curly), ⟨9, 10⟩⟩]

theorem parse_error_first_star :
    ∃ before l after, mixedTokens ++ [⟨.eof, ⟨10, 10⟩⟩] = before ++ l :: after ∧
      (⟨7, 8⟩ : Span) = l.span ∧ (∃ more depth x, parse (before ++ more) depth = .ok x) ∧
      ∀ more depth, ∃ e', parse (before ++ l :: more) depth = .error e' := by
  have h : parse (mixedTokens ++ [⟨.eof, ⟨10, 10⟩⟩]) 2 =
      .error ⟨⟨7, 8⟩, .misplacedSpread .elements, none⟩ :=
    failure?_eq_some_iff.mp (by decide +kernel)
  exact parse_error_first (by simp [mixedTokens]) h nofun nofun

end Calculator.Grammar
