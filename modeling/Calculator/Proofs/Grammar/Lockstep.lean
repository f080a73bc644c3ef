import Calculator.Proofs.Grammar.Reading

/-
  Two runs of a rule. The readers look at one token ahead and at nothing
  beyond it, and the depth that is still allowed shows only where it is
  exceeded. So a run that has ended for another reason ends in the same way on
  any tokens that agree with the first ones up to the next, and with any larger
  depth. This holds of results and of errors, and of an error with its place: it
  is the next token, or for a spread without a comma the start of the list.
  Which errors are excused from it is a parameter: with another depth those
  about the depth, with the same depth none.

  What is proved:
    1. `lockstep_bind`, `lockstep_eat`, `lockstep_congr` — rules put together
       from rules that keep step keep step.
    2. `rule_inStep`, `list_inStep` — so all rules keep step, and lists of
       expressions.
    3. `list_lockstep`, `parse_mono` — a larger limit changes nothing but the
       errors about depth.
-/

namespace Calculator.Grammar

/-! ## Endings -/

/-- An error that does not come from the depth: at the next token, or for a
    spread without a comma at a place before. -/
inductive Failure where
  | here (cause : SyntaxCause) (opened : Option Span)
  | lone (span : Span)

def Failure.error (input : Input) (rest : List Lexeme) : Failure → SyntaxError
  | .here cause opened => ⟨(input.next rest).span, cause, opened⟩
  | .lone span => ⟨span, .loneSpread, none⟩

/-- How a rule ends. -/
abbrev Ending (α : Type) := Except Failure α

/-- What the rule gives if it ends so before the rest. -/
def Ending.give {α : Type} (input : Input) (rest : List Lexeme) :
    Ending α → Except SyntaxError (α × List Lexeme)
  | .ok a => .ok (a, rest)
  | .error failure => .error (failure.error input rest)

/-- The error is that the depth was exceeded. -/
def TooDeep {α : Type} (result : Except SyntaxError α) : Prop :=
  ∃ e limit, result = .error e ∧ e.cause = .tooDeep limit

theorem tooDeep_bind {α β : Type} {x : Except SyntaxError α} {f : α → Except SyntaxError β}
    (h : TooDeep x) : TooDeep (x >>= f) := by
  obtain ⟨e, limit, rfl, hcause⟩ := h
  exact ⟨e, limit, rfl, hcause⟩

/-! ## The next token -/

/-- The same token comes next, or the end of input. -/
def SameNext (ts us : List Lexeme) : Prop := nextToken ts = nextToken us

theorem sameNext_refl (ts : List Lexeme) : SameNext ts ts := rfl

theorem sameNext_append {ts us : List Lexeme} (h : SameNext ts us) (used : List Lexeme) :
    SameNext (used ++ ts) (used ++ us) := by
  cases used with
  | nil => exact h
  | cons l used => rfl

theorem next_token_eq {input input' : Input} {ts us : List Lexeme} (h : SameNext ts us) :
    (input.next ts).token = (input'.next us).token := by
  rw [next_token, next_token, h]

theorem eat_none_of_sameNext {s : Symbol} {ts us : List Lexeme} (h : SameNext ts us)
    (hts : eat s ts = none) : eat s us = none := by
  rw [eat_eq_none_iff] at hts ⊢
  rwa [← h]

theorem isSome_eat_of_sameNext {s : Symbol} {ts us : List Lexeme} (h : SameNext ts us) :
    (eat s us).isSome = (eat s ts).isSome := by
  have hnone : eat s us = none ↔ eat s ts = none := by
    rw [eat_eq_none_iff, eat_eq_none_iff, h]
  rw [Bool.eq_iff_iff, Option.isSome_iff_ne_none, Option.isSome_iff_ne_none, Ne, Ne, hnone]

theorem atEnd_of_sameNext {stop : Option Bracket} {ts us : List Lexeme} (h : SameNext ts us) :
    atEnd stop us = atEnd stop ts := by
  rw [atEnd, atEnd, h]

/-! ## Keeping step -/

/-- The run fails with an error of a kind. -/
def FailsBy {α : Type} (kind : SyntaxError → Prop) (result : Except SyntaxError α) : Prop :=
  ∃ e, result = .error e ∧ kind e

theorem failsBy_bind {kind : SyntaxError → Prop} {α β : Type} {x : Except SyntaxError α}
    {f : α → Except SyntaxError β} (h : FailsBy kind x) : FailsBy kind (x >>= f) := by
  obtain ⟨e, rfl, he⟩ := h
  exact ⟨e, rfl, he⟩

/-- Unless `read` fails with an error that is excused, it ends before a rest,
    and then every `read' i` ends in the same way before any rest with the same
    next token. -/
def Lockstep {ι α : Type} (excused : SyntaxError → Prop) (input : Input) (input' : ι → Input)
    (read : Parse α) (read' : ι → Parse α) (ts : List Lexeme) : Prop :=
  FailsBy excused (read ts) ∨ ∃ used rest, ∃ ending : Ending α, ts = used ++ rest ∧
    read ts = ending.give input rest ∧
    ∀ i rest', SameNext rest rest' → read' i (used ++ rest') = ending.give (input' i) rest'

/-- A rule keeps step on all tokens. -/
def InStep {ι α : Type} (excused : SyntaxError → Prop) (input : Input) (input' : ι → Input) (reader : Reader α)
    (reader' : ι → Reader α) : Prop :=
  ∀ ts, Lockstep excused input input' reader.read (fun i => (reader' i).read) ts

section Steps
variable {ι α β : Type} {excused : SyntaxError → Prop} {input : Input} {input' : ι → Input} {ts : List Lexeme}

theorem lockstep_ok (a : α) :
    Lockstep excused input input' (fun ts => .ok (a, ts)) (fun _ ts => .ok (a, ts)) ts :=
  .inr ⟨[], ts, .ok a, rfl, rfl, fun _ _ _ => rfl⟩

/-- An error at the next token may depend on that token. -/
theorem lockstep_error (cause : Token → SyntaxCause) (opened : Option Span) :
    @Lockstep ι α excused input input'
      (fun ts => .error ⟨(input.next ts).span, cause (input.next ts).token, opened⟩)
      (fun i ts => .error ⟨((input' i).next ts).span, cause ((input' i).next ts).token, opened⟩)
      ts := by
  refine .inr ⟨[], ts, .error (.here (cause (input.next ts).token) opened), rfl, rfl, ?_⟩
  intro i rest' hsame
  rw [next_token_eq hsame]
  rfl

/-- A lone spread is reported at a place that is known before. -/
theorem lockstep_lone (span : Span) :
    @Lockstep ι α excused input input' (fun _ => .error ⟨span, .loneSpread, none⟩)
      (fun _ _ => .error ⟨span, .loneSpread, none⟩) ts :=
  .inr ⟨[], ts, .error (.lone span), rfl, rfl, fun _ _ _ => rfl⟩

/-- The rules may be others where another token comes next. -/
theorem lockstep_congr {read f : Parse α} {read' f' : ι → Parse α}
    (h : Lockstep excused input input' f f' ts) (hread : read ts = f ts)
    (hread' : ∀ i us, SameNext ts us → read' i us = f' i us) :
    Lockstep excused input input' read read' ts := by
  rcases h with hfails | ⟨used, rest, ending, rfl, hf, hf'⟩
  · exact .inl (hread ▸ hfails)
  · refine .inr ⟨used, rest, ending, rfl, hread.trans hf, fun i rest' hsame => ?_⟩
    rw [hread' i _ (sameNext_append hsame used)]
    exact hf' i rest' hsame

theorem lockstep_of_eq {read f : Parse α} {read' f' : ι → Parse α} (hread : ∀ us, read us = f us)
    (hread' : ∀ i us, read' i us = f' i us) (h : Lockstep excused input input' f f' ts) :
    Lockstep excused input input' read read' ts :=
  lockstep_congr h (hread ts) fun i us _ => hread' i us

/-- A token that both rules take. -/
theorem lockstep_cons {read f : Parse α} {read' f' : ι → Parse α} {l : Lexeme}
    (h : Lockstep excused input input' f f' ts) (hread : ∀ us, read (l :: us) = f us)
    (hread' : ∀ i us, read' i (l :: us) = f' i us) :
    Lockstep excused input input' read read' (l :: ts) := by
  rcases h with hfails | ⟨used, rest, ending, rfl, hf, hf'⟩
  · exact .inl (hread ts ▸ hfails)
  · refine .inr ⟨l :: used, rest, ending, rfl, (hread _).trans hf, fun i rest' hsame => ?_⟩
    rw [List.cons_append, hread']
    exact hf' i rest' hsame

theorem lockstep_bind {read : Parse α} {read' : ι → Parse α}
    {f : α × List Lexeme → Except SyntaxError (β × List Lexeme)}
    {f' : ι → α × List Lexeme → Except SyntaxError (β × List Lexeme)}
    (h : Lockstep excused input input' read read' ts)
    (hf : ∀ a rest, read ts = .ok (a, rest) →
      Lockstep excused input input' (fun us => f (a, us)) (fun i us => f' i (a, us)) rest) :
    Lockstep excused input input' (fun us => read us >>= f) (fun i us => read' i us >>= f' i) ts := by
  rcases h with hfails | ⟨used, rest, ending, rfl, hread, hread'⟩
  · exact .inl (failsBy_bind hfails)
  · cases ending with
    | error failure =>
      refine .inr ⟨used, rest, .error failure, rfl, ?_, fun i rest' hsame => ?_⟩
      · simp only [hread, Ending.give, error_bind]
      · simp only [hread' i rest' hsame, Ending.give, error_bind]
    | ok a =>
      rcases hf a rest hread with hfails | ⟨more, last, ending, rfl, hgive, hgive'⟩
      · refine .inl ?_
        simpa only [hread, Ending.give, ok_bind] using hfails
      · refine .inr ⟨used ++ more, last, ending, by simp, ?_, fun i last' hsame => ?_⟩
        · simpa only [hread, Ending.give, ok_bind] using hgive
        · rw [List.append_assoc]
          simpa only [hread' i _ (sameNext_append hsame more), Ending.give, ok_bind]
            using hgive' i last' hsame

theorem lockstep_building {read : Parse α} {read' : ι → Parse α} (f : α → β)
    (h : Lockstep excused input input' read read' ts) :
    Lockstep excused input input' (fun us => building f (read us)) (fun i us => building f (read' i us))
      ts := by
  have hbind (x : Except SyntaxError (α × List Lexeme)) :
      building f x = x >>= fun p => .ok (f p.1, p.2) := by
    cases x <;> rfl
  simp only [hbind]
  exact lockstep_bind h fun a rest _ => lockstep_ok (f a)

theorem lockstep_eat {s : Symbol} {after otherwise : Parse α} {after' otherwise' : ι → Parse α}
    (hsome : ∀ rest, eat s ts = some rest → Lockstep excused input input' after after' rest)
    (hnone : eat s ts = none → Lockstep excused input input' otherwise otherwise' ts) :
    Lockstep excused input input'
      (fun us => match eat s us with | some rest => after rest | none => otherwise us)
      (fun i us => match eat s us with | some rest => after' i rest | none => otherwise' i us)
      ts := by
  cases he : eat s ts with
  | none =>
    refine lockstep_congr (hnone he) (by simp only [he]) fun i us hsame => ?_
    simp only [eat_none_of_sameNext hsame he]
  | some rest =>
    obtain ⟨span, rfl⟩ := eat_eq_some_iff.mp he
    exact lockstep_cons (hsome rest he) (fun us => by simp only [eat_cons_self])
      fun i us => by simp only [eat_cons_self]

/-- The same with the cases in the other order. -/
theorem lockstep_unless_eat {s : Symbol} {after otherwise : Parse α}
    {after' otherwise' : ι → Parse α}
    (hnone : eat s ts = none → Lockstep excused input input' otherwise otherwise' ts)
    (hsome : ∀ rest, eat s ts = some rest → Lockstep excused input input' after after' rest) :
    Lockstep excused input input'
      (fun us => match eat s us with | none => otherwise us | some rest => after rest)
      (fun i us => match eat s us with | none => otherwise' i us | some rest => after' i rest)
      ts := by
  have hswap (after otherwise : Parse α) (us : List Lexeme) :
      (match eat s us with | none => otherwise us | some rest => after rest) =
        match eat s us with | some rest => after rest | none => otherwise us := by
    cases eat s us <;> rfl
  simp only [hswap]
  exact lockstep_eat hsome hnone

theorem lockstep_ite {c : List Lexeme → Bool} {read other : Parse α}
    {read' other' : ι → Parse α}
    (hc : ∀ us, SameNext ts us → c us = c ts)
    (htrue : c ts = true → Lockstep excused input input' read read' ts)
    (hfalse : c ts = false → Lockstep excused input input' other other' ts) :
    Lockstep excused input input' (fun us => if c us then read us else other us)
      (fun i us => if c us then read' i us else other' i us) ts := by
  cases h : c ts with
  | true =>
    refine lockstep_congr (htrue h) ?_ fun i us hsame => ?_
    · rw [h, if_pos rfl]
    · rw [hc us hsame, h, if_pos rfl]
  | false =>
    refine lockstep_congr (hfalse h) ?_ fun i us hsame => ?_
    · rw [h, if_neg nofun]
    · rw [hc us hsame, h, if_neg nofun]

theorem lockstep_close {b : Bracket} {opened : Span} (a : α) :
    Lockstep excused input input' (fun us => (fun rest => (a, rest)) <$> close input b opened us)
      (fun i us => (fun rest => (a, rest)) <$> close (input' i) b opened us) ts := by
  have hclose (input : Input) (us : List Lexeme) :
      (fun rest => (a, rest)) <$> close input b opened us =
        match eat (.closing b) us with
        | some rest => .ok (a, rest)
        | none => .error ⟨(input.next us).span, cannotClose b opened.start (input.next us).token,
            some opened⟩ := by
    unfold close
    cases eat (.closing b) us <;> rfl
  simp only [hclose]
  exact lockstep_eat (fun rest _ => lockstep_ok a)
    fun _ => lockstep_error (cannotClose b opened.start) (some opened)

end Steps

/-! ## Loops and brackets -/

section Loops
variable {ι : Type} {excused : SyntaxError → Prop} {input : Input} {input' : ι → Input}

theorem separated_lockstep {α : Type} {item : Reader α} {item' : ι → Reader α}
    (hi : InStep excused input input' item item') (stop : Option Bracket) (ts : List Lexeme) :
    Lockstep excused input input' (separated item stop) (fun i => separated (item' i) stop) ts := by
  -- by the length of the tokens, which a round of the loop shortens
  induction hn : ts.length using Nat.strongRecOn generalizing ts with
  | ind n ih =>
    refine lockstep_of_eq (separated_eq item stop) (fun i => separated_eq (item' i) stop) ?_
    refine lockstep_ite (fun _ => atEnd_of_sameNext) (fun _ => lockstep_ok []) fun _ => ?_
    refine lockstep_bind (hi ts) fun first rest hfirst => ?_
    refine lockstep_unless_eat (fun _ => lockstep_ok [first]) fun after hcomma => ?_
    have := item.shortens hfirst
    have := eat_length hcomma
    exact lockstep_building _ (ih after.length (by omega) after rfl)

theorem closeItems_inStep {α : Type} {item : Reader α} {item' : ι → Reader α}
    (hi : InStep excused input input' item item') (b : Bracket) (opened : Span)
    (display : List α → Expr) : InStep excused input input' (closeItems input b opened item display)
      (fun i => closeItems (input' i) b opened (item' i) display) :=
  fun ts => lockstep_bind (separated_lockstep hi (some b) ts) fun items _ _ =>
    lockstep_close (display items)

theorem moreItems_inStep {α : Type} {item : Reader α} {item' : ι → Reader α}
    (hi : InStep excused input input' item item') (opened : Span)
    (display : List α → Expr) : InStep excused input input' (moreItems input opened item display)
      (fun i => moreItems (input' i) opened (item' i) display) :=
  fun _ => lockstep_eat (fun rest _ => closeItems_inStep hi .curly opened display rest)
    fun _ => lockstep_close (display [])

theorem moreStrings_of_sameNext (ts : List Lexeme) : ∃ used rest s, ts = used ++ rest ∧
    moreStrings ts = (s, rest) ∧
    ∀ rest', SameNext rest rest' → moreStrings (used ++ rest') = (s, rest') := by
  have hstop (ts : List Lexeme) (h : ∀ s, nextToken ts ≠ .str s) : ∃ used rest s,
      ts = used ++ rest ∧ moreStrings ts = (s, rest) ∧
      ∀ rest', SameNext rest rest' → moreStrings (used ++ rest') = (s, rest') :=
    ⟨[], ts, "", rfl, moreStrings_stop h, fun rest' hsame => moreStrings_stop (hsame ▸ h)⟩
  induction ts with
  | nil => exact hstop [] (by simp [nextToken])
  | cons l ts ih =>
    obtain ⟨token, span⟩ := l
    cases token with
    | str s =>
      obtain ⟨used, rest, more, rfl, hmore, hmore'⟩ := ih
      refine ⟨⟨.str s, span⟩ :: used, rest, s ++ more, rfl, ?_, fun rest' hsame => ?_⟩
      · simp only [moreStrings, hmore]
      · simp only [List.cons_append, moreStrings, hmore' rest' hsame]
    | _ => exact hstop _ (by simp [nextToken])

theorem strings_lockstep (s : String) (ts : List Lexeme) :
    Lockstep excused input input'
      (fun us => let (more, rest) := moreStrings us; .ok (Expr.literal (.str (s ++ more)), rest))
      (fun _ us => let (more, rest) := moreStrings us; .ok (Expr.literal (.str (s ++ more)), rest))
      ts := by
  obtain ⟨used, rest, more, rfl, hmore, hmore'⟩ := moreStrings_of_sameNext ts
  refine .inr ⟨used, rest, .ok (.literal (.str (s ++ more))), rfl, ?_, fun i rest' hsame => ?_⟩
  · simp only [hmore]
    rfl
  · simp only [hmore' rest' hsame]
    rfl

theorem joined_lockstep {reader : Reader Expr} {reader' : ι → Reader Expr}
    (hr : InStep excused input input' reader reader') (level : Level) (left : Expr)
    (ts : List Lexeme) :
    Lockstep excused input input' (joined reader level left)
      (fun i => joined (reader' i) level left) ts := by
  induction hn : ts.length using Nat.strongRecOn generalizing left ts with
  | ind n ih =>
    cases hop : level.op? (nextToken ts) with
    | none =>
      exact lockstep_congr (lockstep_ok left) (joined_stop hop left) fun i us hsame =>
        joined_stop (hsame ▸ hop) left
    | some op =>
      cases ts with
      | nil => cases hop
      | cons l ts =>
        refine lockstep_cons ?_ (joined_eq hop left) fun i => joined_eq hop left
        refine lockstep_bind (hr ts) fun right rest hright => ?_
        have := reader.shortens hright
        rw [List.length_cons] at hn
        exact ih rest.length (by omega) (.binary op left right) rest rfl

theorem chain_inStep {reader : Reader Expr} {reader' : ι → Reader Expr}
    (hr : InStep excused input input' reader reader') (level : Level) :
    InStep excused input input' (chain level reader) (fun i => chain level (reader' i)) :=
  fun ts => lockstep_bind (hr ts) fun left rest _ => joined_lockstep hr level left rest

end Loops

/-! ## Rules of one level -/

section Rules
variable {ι : Type} {excused : SyntaxError → Prop} {input : Input} {input' : ι → Input} {deeper : Deeper}
  {deeper' : ι → Deeper}
  (hd : ∀ which, InStep excused input input' (deeper which) (fun i => deeper' i which))
include hd

theorem element_inStep :
    InStep excused input input' (element deeper) (fun i => element (deeper' i)) :=
  fun ts => lockstep_eat (fun rest _ => lockstep_building _ (hd .operand rest))
    fun _ => lockstep_building _ (hd .expression ts)

theorem entry_inStep :
    InStep excused input input' (entry input deeper) (fun i => entry (input' i) (deeper' i)) := by
  intro ts
  refine lockstep_eat (fun rest _ => lockstep_building _ (hd .operand rest)) fun _ => ?_
  refine lockstep_bind (hd .expression ts) fun key rest _ => ?_
  exact lockstep_unless_eat (fun _ => lockstep_error (cannotFollow .expectedColon) none)
    fun rest _ => lockstep_building _ (hd .expression rest)

/-- What follows the first element of a list that starts at a place. -/
theorem afterFirst_lockstep (stop : Option Bracket) (span : Span) (first : Element Expr)
    (ts : List Lexeme) :
    Lockstep excused input input'
      (fun us =>
        match eat .comma us with
        | some rest =>
          building (fun more => .tuple (first :: more)) (separated (element deeper) stop rest)
        | none =>
          match first with
          | .item e => .ok (e, us)
          | .spread _ => .error ⟨span, .loneSpread, none⟩)
      (fun i us =>
        match eat .comma us with
        | some rest =>
          building (fun more => .tuple (first :: more)) (separated (element (deeper' i)) stop rest)
        | none =>
          match first with
          | .item e => .ok (e, us)
          | .spread _ => .error ⟨span, .loneSpread, none⟩) ts := by
  refine lockstep_eat (fun after _ => lockstep_building _
    (separated_lockstep (element_inStep hd) stop after)) fun _ => ?_
  cases first with
  | item e => exact lockstep_ok e
  | spread source => exact lockstep_lone span

theorem expressionList_inStep (stop : Option Bracket) :
    InStep excused input input' (expressionList input deeper stop)
      (fun i => expressionList (input' i) (deeper' i) stop) := by
  intro ts
  rcases element_inStep hd ts with hfails | ⟨used, rest, ending, rfl, hread, hread'⟩
  · exact .inl (failsBy_bind hfails)
  · cases ending with
    | error failure =>
      refine .inr ⟨used, rest, .error failure, rfl, ?_, fun i rest' hsame => ?_⟩
      · simp only [expressionList, hread, Ending.give, error_bind]
      · simp only [expressionList, hread' i rest' hsame, Ending.give, error_bind]
    | ok first =>
      -- an element takes a token, so both runs have the same place for the list
      obtain ⟨l, used, rfl⟩ : ∃ l us, used = l :: us := by
        cases used with
        | nil => exact absurd ((element deeper).shortens hread) (Nat.lt_irrefl _)
        | cons l us => exact ⟨l, us, rfl⟩
      rcases afterFirst_lockstep hd stop l.span first rest with
        hfails | ⟨more, last, ending, rfl, hgive, hgive'⟩
      · refine .inl ?_
        simp only [expressionList, hread, Ending.give, ok_bind]
        exact hfails
      · refine .inr ⟨l :: used ++ more, last, ending, by simp, ?_, fun i last' hsame => ?_⟩
        · simp only [expressionList, hread, Ending.give, ok_bind]
          exact hgive
        · have hread' := hread' i _ (sameNext_append hsame more)
          rw [List.append_assoc]
          simp only [expressionList, hread', Ending.give, ok_bind]
          exact hgive' i last' hsame

theorem afterRound_inStep (opened : Span) :
    InStep excused input input' (afterRound input deeper opened)
      (fun i => afterRound (input' i) (deeper' i) opened) := by
  intro ts
  refine lockstep_eat (fun _ _ => lockstep_ok (Expr.tuple [])) fun _ => ?_
  exact lockstep_bind (expressionList_inStep hd (some .round) ts) fun e _ _ => lockstep_close e

/-- What follows the key of the first entry and its colon. -/
theorem afterKey_lockstep (opened : Span) (key : Expr) (ts : List Lexeme) :
    Lockstep excused input input'
      (fun us => do
        let (value, rest) ← (deeper .expression).read us
        (moreItems input opened (entry input deeper) fun more =>
          .dict (.pair key value :: more)).read rest)
      (fun i us => do
        let (value, rest) ← (deeper' i .expression).read us
        (moreItems (input' i) opened (entry (input' i) (deeper' i)) fun more =>
          .dict (.pair key value :: more)).read rest) ts := by
  refine lockstep_bind (hd .expression ts) fun value rest _ => ?_
  exact moreItems_inStep (entry_inStep hd) opened (fun more => .dict (.pair key value :: more))
    rest

theorem afterCurly_inStep (opened : Span) :
    InStep excused input input' (afterCurly input deeper opened)
      (fun i => afterCurly (input' i) (deeper' i) opened) := by
  intro ts
  refine lockstep_eat (fun _ _ => lockstep_ok (Expr.dict [])) fun _ => ?_
  refine lockstep_ite (fun _ => isSome_eat_of_sameNext)
    (fun _ => closeItems_inStep (entry_inStep hd) .curly opened .dict ts) fun _ => ?_
  refine lockstep_bind (element_inStep hd ts) fun first rest _ => ?_
  cases first with
  | spread source =>
    exact moreItems_inStep (element_inStep hd) opened
      (fun more => .set (.spread source :: more)) rest
  | item key =>
    refine lockstep_congr (lockstep_eat (s := .colon)
      (fun after _ => afterKey_lockstep hd opened key after)
      fun _ => moreItems_inStep (element_inStep hd) opened
        (fun more => .set (.item key :: more)) rest) ?_ fun i us _ => ?_
    · dsimp only
      cases eat .colon rest <;> rfl
    · dsimp only
      cases eat .colon us <;> rfl

theorem atom_inStep :
    InStep excused input input' (atom input deeper) (fun i => atom (input' i) (deeper' i)) := by
  intro ts
  cases hstart : startsAtom (nextToken ts) with
  | false =>
    exact lockstep_congr (lockstep_error cannotStart none) (atom_stop hstart) fun i us hsame =>
      atom_stop (hsame ▸ hstart)
  | true =>
    cases ts with
    | nil => cases hstart
    | cons l ts =>
      obtain ⟨token, span⟩ := l
      cases token with
      | int n =>
        exact lockstep_cons (lockstep_ok (Expr.literal (.int n))) (fun _ => rfl) fun _ _ => rfl
      | float x =>
        exact lockstep_cons (lockstep_ok (Expr.literal (.float x))) (fun _ => rfl) fun _ _ => rfl
      | bool b =>
        exact lockstep_cons (lockstep_ok (Expr.literal (.bool b))) (fun _ => rfl) fun _ _ => rfl
      | null =>
        exact lockstep_cons (lockstep_ok (Expr.literal .null)) (fun _ => rfl) fun _ _ => rfl
      | str s => exact lockstep_cons (strings_lockstep s ts) (fun _ => rfl) fun _ _ => rfl
      | symbol s =>
        cases s with
        | opening b =>
          cases b with
          | round =>
            exact lockstep_cons (afterRound_inStep hd span ts) (fun _ => rfl) fun _ _ => rfl
          | square =>
            exact lockstep_cons (closeItems_inStep (element_inStep hd) .square span .list ts)
              (fun _ => rfl) fun _ _ => rfl
          | curly =>
            exact lockstep_cons (afterCurly_inStep hd span ts) (fun _ => rfl) fun _ _ => rfl
        | _ => cases hstart
      | _ => cases hstart

theorem power_inStep :
    InStep excused input input' (power input deeper) (fun i => power (input' i) (deeper' i)) := by
  intro ts
  refine lockstep_bind (atom_inStep hd ts) fun base rest _ => ?_
  exact lockstep_unless_eat (fun _ => lockstep_ok base)
    fun rest _ => lockstep_building _ (hd .unary rest)

theorem unary_inStep :
    InStep excused input input' (unary input deeper) (fun i => unary (input' i) (deeper' i)) := by
  intro ts
  cases hop : prefixOp? (input.next ts).token with
  | none =>
    refine lockstep_congr (power_inStep hd ts) ?_ fun i us hsame => ?_
    · simp only [unary, hop]
    · have hnext : (input.next ts).token = ((input' i).next us).token := next_token_eq hsame
      simp only [unary, ← hnext, hop]
  | some op =>
    cases ts with
    | nil => cases hop
    | cons l ts =>
      change prefixOp? l.token = some op at hop
      refine lockstep_cons (lockstep_building (.unary op) (hd .unary ts)) (fun us => ?_)
        fun i us => ?_
      · simp only [unary, Input.next, hop, List.tail_cons]
      · simp only [unary, Input.next, hop, List.tail_cons]

theorem operand_inStep :
    InStep excused input input' (operand input deeper) (fun i => operand (input' i) (deeper' i)) := by
  unfold operand
  induction levels with
  | nil => exact unary_inStep hd
  | cons level levels ih => exact chain_inStep ih level

theorem expression_inStep :
    InStep excused input input' (expression input deeper) (fun i => expression (input' i) (deeper' i)) :=
  fun ts => lockstep_unless_eat (fun _ => operand_inStep hd ts)
    fun rest _ => lockstep_building _ (hd .expression rest)

theorem rule_inStep (which : Nested) :
    InStep excused input input' (rule input deeper which)
      (fun i => rule (input' i) (deeper' i) which) := by
  cases which with
  | expression => exact expression_inStep hd
  | operand => exact operand_inStep hd
  | unary => exact unary_inStep hd

end Rules

/-! ## All levels -/

/-- Without any level left a rule exceeds the depth, and with more levels left
    it keeps step. -/
theorem within_inStep (input : Input) (depth : Nat) (which : Nested) :
    InStep (fun e => ∃ limit, e.cause = .tooDeep limit) input (fun i : Input × Nat => i.1)
      (within input depth which) (fun i => within i.1 (depth + i.2) which) := by
  induction depth generalizing which with
  | zero => exact fun _ => .inl ⟨_, rfl, input.maxDepth, rfl⟩
  | succ depth ih =>
    simp only [Nat.add_right_comm depth 1]
    exact rule_inStep ih which

/-- A list that is read without exceeding the depth is read in the same way up
    to the same next token, wherever the input ends and where more is allowed. -/
theorem list_lockstep (input : Input) (depth : Nat) (stop : Option Bracket) (ts : List Lexeme) :
    TooDeep (Phrase.list.read input depth stop ts) ∨ ∃ used rest, ∃ ending : Ending Expr,
      ts = used ++ rest ∧ Phrase.list.read input depth stop ts = ending.give input rest ∧
      ∀ input' depth' rest', depth ≤ depth' → SameNext rest rest' →
        Phrase.list.read input' depth' stop (used ++ rest') = ending.give input' rest' := by
  rcases expressionList_inStep (within_inStep input depth) stop ts with
    ⟨e, he, limit, hcause⟩ | ⟨used, rest, ending, hts, hread, hread'⟩
  · exact .inl ⟨e, limit, he, hcause⟩
  · refine .inr ⟨used, rest, ending, hts, hread, fun input' depth' rest' hdepth hsame => ?_⟩
    obtain ⟨k, rfl⟩ := Nat.exists_eq_add_of_le hdepth
    exact hread' (input', k) rest' hsame

/-! ## The whole input -/

/-- Where an expression list ends is all that is seen of the tokens after it. -/
theorem give_whole {input input' : Input} {rest rest' : List Lexeme}
    (h : input.next rest = input'.next rest') (ending : Ending Expr) :
    ending.give input rest >>= whole input = ending.give input' rest' >>= whole input' := by
  cases ending with
  | ok e => simp only [Ending.give, ok_bind, whole, h]
  | error failure =>
    cases failure with
    | here cause opened => simp only [Ending.give, Failure.error, h, error_bind]
    | lone span => rfl

/-- What is read without exceeding the depth is read in the same way where more
    is allowed, be it an expression or an error. -/
theorem parse_mono {ts : List Lexeme} {depth depth' : Nat} (h : depth ≤ depth')
    (hparse : ¬ TooDeep (parse ts depth)) : parse ts depth' = parse ts depth := by
  rw [parse_eq_whole] at hparse
  rw [parse_eq_whole, parse_eq_whole]
  rcases list_lockstep ⟨depth, impliedEnd ts⟩ depth none ts with
    hdeep | ⟨used, rest, ending, hts, hread, hread'⟩
  · exact absurd (tooDeep_bind hdeep) hparse
  · have hmore := hread' ⟨depth', impliedEnd ts⟩ depth' rest h (sameNext_refl rest)
    have hnext : Input.next ⟨depth', impliedEnd ts⟩ rest =
        Input.next ⟨depth, impliedEnd ts⟩ rest := by
      cases rest <;> rfl
    rw [← hts] at hmore
    rw [hread, hmore, give_whole hnext]

end Calculator.Grammar
