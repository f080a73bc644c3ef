import Calculator.Proofs.Grammar.Completeness

/-
  Where a reader fails. `Begins p ts` says that the phrase `p` may go on after
  the tokens `ts`: they are a complete part of a derivation up to some point
  within it. An error is always reported at the token after such a beginning.
  When it records an opening bracket, that bracket is among the tokens of the
  beginning, what stands after it is complete, and the next token does not
  close it.

  What is proved: `parse_error` — an error is at a token before which the input
  begins an expression list, or forms one.
-/

namespace Calculator.Grammar

theorem bind_eq_error {ε α β : Type} {x : Except ε α} {f : α → Except ε β} {e : ε} :
    x >>= f = .error e ↔ x = .error e ∨ ∃ a, x = .ok a ∧ f a = .error e := by
  cases x <;> simp

theorem map_eq_error {ε α β : Type} {x : Except ε α} {f : α → β} {e : ε} :
    f <$> x = .error e ↔ x = .error e := by
  cases x with
  | error d => exact ⟨fun h => by cases h; rfl, fun h => by cases h; rfl⟩
  | ok a => exact ⟨nofun, nofun⟩

theorem building_eq_error {α β : Type} {f : α → β}
    {parsed : Except SyntaxError (α × List Lexeme)} {e : SyntaxError} :
    building f parsed = .error e ↔ parsed = .error e :=
  map_eq_error

/-- What may stand inside a pair of brackets. -/
inductive Inside : Bracket → Phrase → Prop where
  | round : Inside .round .list
  | square : Inside .square (.places .element)
  | curly (k : Place) : Inside .curly (.places k)

inductive Begins : Phrase → List Token → Prop where
  | start (p : Phrase) : Begins p []
  | first {ts : List Token} : Begins (.place .element) ts → Begins .list ts
  | rest {ts us : List Token} {x : Element Expr} {n : Nat} :
    Derives (.place .element) ts x n → Begins (.places .element) us →
    Begins .list (ts ++ .symbol .comma :: us)
  | not {ts : List Token} : Begins .expression ts → Begins .expression (.symbol .not :: ts)
  | operand {ts : List Token} : Begins (.joined 0) ts → Begins .expression ts
  | left {level : Nat} {ts : List Token} :
    Begins (.joined (level + 1)) ts → Begins (.joined level) ts
  | right {level : Nat} {s : Symbol} {op : BinaryOp} {ts us : List Token} {l : Expr} {n : Nat} :
    Derives (.joined level) ts l n → Joins level s op → Begins (.joined (level + 1)) us →
    Begins (.joined level) (ts ++ .symbol s :: us)
  | unjoined {ts : List Token} : Begins .unary ts → Begins (.joined 6) ts
  | signed {s : Symbol} {op : UnaryOp} {ts : List Token} :
    Signs s op → Begins .unary ts → Begins .unary (.symbol s :: ts)
  | unsigned {ts : List Token} : Begins .power ts → Begins .unary ts
  | base {ts : List Token} : Begins .atom ts → Begins .power ts
  | exponent {ts us : List Token} {e : Expr} {n : Nat} :
    Derives .atom ts e n → Begins .unary us → Begins .power (ts ++ .symbol .doubleStar :: us)
  | opened {b : Bracket} {p : Phrase} {ts : List Token} :
    Inside b p → Begins p ts → Begins .atom (.symbol (.opening b) :: ts)
  | unclosed {b : Bracket} {p : Phrase} {ts : List Token} {x : p.Tree} {n : Nat} :
    Inside b p → Derives p ts x n → Begins .atom (.symbol (.opening b) :: ts)
  | item {ts : List Token} : Begins .expression ts → Begins (.place .element) ts
  | spreadElements {ts : List Token} :
    Begins (.joined 0) ts → Begins (.place .element) (.symbol .star :: ts)
  | key {ts : List Token} : Begins .expression ts → Begins (.place .entry) ts
  | keyed {ts : List Token} {e : Expr} {n : Nat} :
    Derives .expression ts e n → Begins (.place .entry) ts
  | value {ts us : List Token} {e : Expr} {n : Nat} :
    Derives .expression ts e n → Begins .expression us →
    Begins (.place .entry) (ts ++ .symbol .colon :: us)
  | spreadEntries {ts : List Token} :
    Begins (.joined 0) ts → Begins (.place .entry) (.symbol .doubleStar :: ts)
  | last {k : Place} {ts : List Token} : Begins (.place k) ts → Begins (.places k) ts
  | more {k : Place} {ts us : List Token} {x : k.Tree} {n : Nat} :
    Derives (.place k) ts x n → Begins (.places k) us →
    Begins (.places k) (ts ++ .symbol .comma :: us)

/-- The bracket that an error records is open before the rest, with complete
    contents, and the rest does not close it. -/
def OpenBefore (input : Input) (used rest : List Lexeme) (opened : Span) : Prop :=
  ∃ before b p inside x n, used = before ++ ⟨.symbol (.opening b), opened⟩ :: inside ∧
    Inside b p ∧ Derives p (tokens inside) x n ∧
    (input.next rest).token ≠ .symbol (.closing b)

/-- The error is at the token after a beginning. -/
def Stuck (input : Input) (Beginning : List Token → Prop) (ts : List Lexeme) (e : SyntaxError) :
    Prop :=
  ∃ used rest, ts = used ++ rest ∧ Beginning (tokens used) ∧ e.span = (input.next rest).span ∧
    ∀ opened ∈ e.opened, OpenBefore input used rest opened

section Rules
variable {input : Input}

theorem stuck_here {Beginning : List Token → Prop} {ts : List Lexeme} {e : SyntaxError}
    (h : Beginning []) (hspan : e.span = (input.next ts).span) (ho : e.opened = none) :
    Stuck input Beginning ts e :=
  ⟨[], ts, rfl, h, hspan, by rw [ho]; nofun⟩

theorem stuck_mono {A B : List Token → Prop} {ts : List Lexeme} {e : SyntaxError}
    (h : Stuck input A ts e) (hab : ∀ us, A us → B us) : Stuck input B ts e := by
  obtain ⟨used, rest, hts, ha, hspan, ho⟩ := h
  exact ⟨used, rest, hts, hab _ ha, hspan, ho⟩

/-- An error after tokens that were read is an error of the whole. -/
theorem stuck_after {A B : List Token → Prop} {ts : List Lexeme} {e : SyntaxError}
    (h : Stuck input A ts e) (read : List Lexeme) (hab : ∀ us, A us → B (tokens read ++ us)) :
    Stuck input B (read ++ ts) e := by
  obtain ⟨used, rest, rfl, ha, hspan, ho⟩ := h
  refine ⟨read ++ used, rest, by simp, ?_, hspan, ?_⟩
  · rw [tokens_append]
    exact hab _ ha
  · intro opened hopened
    obtain ⟨before, b, p, inside, x, n, rfl, hp, hx, hb⟩ := ho opened hopened
    exact ⟨read ++ before, b, p, inside, x, n, by simp, hp, hx, hb⟩

/-- The same after tokens that end in a separator or an operator. -/
theorem stuck_after_sep {A B : List Token → Prop} {ts : List Lexeme} {e : SyntaxError}
    (h : Stuck input A ts e) (read : List Lexeme) (sep : Lexeme)
    (hab : ∀ us, A us → B (tokens read ++ sep.token :: us)) :
    Stuck input B (read ++ sep :: ts) e := by
  have hall := stuck_after (B := B) h (read ++ [sep]) (by simpa using hab)
  simpa using hall

/-- A missing closing bracket after complete contents. -/
theorem close_stuck {b : Bracket} {opened : Span} {p : Phrase} {inside ts : List Lexeme}
    {x : p.Tree} {n : Nat} {e : SyntaxError} (hp : Inside b p) (hx : Derives p (tokens inside) x n)
    (h : close input b opened ts = .error e) :
    Stuck input (Begins .atom) (⟨.symbol (.opening b), opened⟩ :: inside ++ ts) e := by
  unfold close at h
  split at h
  · cases h
  · next hb =>
    cases h
    refine ⟨⟨.symbol (.opening b), opened⟩ :: inside, ts, rfl, .unclosed hp hx, rfl, ?_⟩
    intro span hspan
    cases hspan
    refine ⟨[], b, p, inside, x, n, rfl, hp, hx, ?_⟩
    intro hnext
    cases ts with
    | nil => cases hnext
    | cons l ts =>
      obtain ⟨token, span⟩ := l
      obtain rfl : token = .symbol (.closing b) := hnext
      rw [eat_cons_self] at hb
      cases hb

/-! ## Places -/

/-- The phrase that the readers of the next level read. -/
def Nested.phrase : Nested → Phrase
  | .expression => .expression
  | .operand => .joined 0
  | .unary => .unary

/-- The errors of a reader are after beginnings. -/
def Fails {α : Type} (input : Input) (read : Parse α) (Beginning : List Token → Prop) : Prop :=
  ∀ ⦃ts : List Lexeme⦄ ⦃e : SyntaxError⦄, read ts = .error e → Stuck input Beginning ts e

variable {deeper : Deeper} {depth : Nat}

theorem element_fails (hf : ∀ which, Fails input (deeper which).read (Begins which.phrase)) :
    Fails input (element deeper).read (Begins (.place .element)) := by
  intro ts e h
  simp only [element] at h
  split at h
  · next after he =>
    obtain ⟨span, rfl⟩ := eat_eq_some_iff.mp he
    exact stuck_after_sep (hf .operand (building_eq_error.mp h)) [] _ fun _ => .spreadElements
  · exact stuck_mono (hf .expression (building_eq_error.mp h)) fun _ => .item

theorem entry_fails (hd : ∀ which, Sound (deeper which).read (Opens which) depth)
    (hf : ∀ which, Fails input (deeper which).read (Begins which.phrase)) :
    Fails input (entry input deeper).read (Begins (.place .entry)) := by
  intro ts e h
  simp only [entry] at h
  split at h
  · next after he =>
    obtain ⟨span, rfl⟩ := eat_eq_some_iff.mp he
    exact stuck_after_sep (hf .operand (building_eq_error.mp h)) [] _ fun _ => .spreadEntries
  · rcases bind_eq_error.mp h with hk | ⟨⟨key, after⟩, hk, hrest⟩
    · exact stuck_mono (hf .expression hk) fun _ => .key
    · obtain ⟨used, n, rfl, hn, hkey⟩ := hd .expression hk
      cases hkey with
      | expression hkey =>
        split at hrest
        · cases hrest
          have here {e : SyntaxError} (hspan : e.span = (input.next after).span)
              (ho : e.opened = none) : Stuck input (· = []) after e := stuck_here rfl hspan ho
          apply stuck_after (here rfl rfl) used
          intro ts hts
          rw [hts, List.append_nil]
          exact .keyed hkey
        · next tail hc =>
          obtain ⟨span, rfl⟩ := eat_eq_some_iff.mp hc
          exact stuck_after_sep (hf .expression (building_eq_error.mp hrest)) used _
            fun _ => .value hkey

theorem separated_fails {k : Place} {item : Reader k.Tree}
    (hi : Sound item.read (Derives (.place k)) depth)
    (hf : Fails input item.read (Begins (.place k))) (stop : Option Bracket) :
    Fails input (separated item stop) (Begins (.places k)) := by
  intro ts e h
  fun_induction separated item stop ts generalizing e with
  | case1 ts hend => cases h
  | case2 ts hend err he =>
    cases h
    exact stuck_mono (hf he) fun _ => .last
  | case3 ts hend first after hr hc => cases h
  | case4 ts hend first after hr tail hc _ _ err he ih =>
    cases h
    obtain ⟨used, n, rfl, hn, hx⟩ := hi hr
    obtain ⟨span, rfl⟩ := eat_eq_some_iff.mp hc
    exact stuck_after_sep (ih he) used _ fun _ => .more hx
  | case5 ts hend first after hr tail hc _ _ xs last he ih => cases h

/-! ## Lists and brackets -/

theorem expressionList_fails (hd : ∀ which, Sound (deeper which).read (Opens which) depth)
    (hf : ∀ which, Fails input (deeper which).read (Begins which.phrase))
    (stop : Option Bracket) :
    Fails input (expressionList input deeper stop).read (Begins .list) := by
  intro ts e h
  simp only [expressionList] at h
  rcases bind_eq_error.mp h with hfirst | ⟨⟨first, after⟩, hfirst, hrest⟩
  · exact stuck_mono (element_fails hf hfirst) fun _ => .first
  · dsimp only at hrest
    split at hrest
    · next tail hc =>
      obtain ⟨used, n, rfl, hn, hx⟩ := element_sound hd hfirst
      obtain ⟨span, rfl⟩ := eat_eq_some_iff.mp hc
      exact stuck_after_sep (separated_fails (k := .element) (element_sound hd) (element_fails hf)
        stop (building_eq_error.mp hrest)) used _ fun _ => .rest hx
    · cases first with
      | item e' => cases hrest
      | spread source =>
        -- a spread without a comma is reported where the list starts
        cases hrest
        exact stuck_here (.start _) rfl rfl

theorem afterRound_fails (hd : ∀ which, Sound (deeper which).read (Opens which) depth)
    (hf : ∀ which, Fails input (deeper which).read (Begins which.phrase)) {opened : Span}
    {ts : List Lexeme} {e : SyntaxError} (h : (afterRound input deeper opened).read ts = .error e) :
    Stuck input (Begins .atom) (⟨.symbol (.opening .round), opened⟩ :: ts) e := by
  simp only [afterRound] at h
  split at h
  · cases h
  · rcases bind_eq_error.mp h with hl | ⟨⟨e', after⟩, hl, hc⟩
    · exact stuck_after_sep (expressionList_fails hd hf _ hl) [] _ fun _ => .opened .round
    · obtain ⟨used, n, rfl, hn, hx⟩ := expressionList_sound hd (some .round) hl
      exact close_stuck .round hx (map_eq_error.mp hc)

/-- Items that end in a closing bracket, after others and a comma before
    them. -/
theorem closeItems_fails {k : Place} {b : Bracket} {opened : Span} {item : Reader k.Tree}
    {display : List k.Tree → Expr} (hp : Inside b (.places k))
    (hi : Sound item.read (Derives (.place k)) depth)
    (hf : Fails input item.read (Begins (.place k))) (before : List Lexeme)
    (hbegins : ∀ us, Begins (.places k) us → Begins (.places k) (tokens before ++ us))
    (hderives : ∀ us xs n, Derives (.places k) us xs n →
      ∃ ys m, Derives (.places k) (tokens before ++ us) ys m)
    {ts : List Lexeme} {e : SyntaxError}
    (h : (closeItems input b opened item display).read ts = .error e) :
    Stuck input (Begins .atom) (⟨.symbol (.opening b), opened⟩ :: before ++ ts) e := by
  simp only [closeItems] at h
  rcases bind_eq_error.mp h with hs | ⟨⟨xs, after⟩, hs, hc⟩
  · exact stuck_after (separated_fails hi hf _ hs) (⟨.symbol (.opening b), opened⟩ :: before)
      fun us hus => .opened hp (hbegins us hus)
  · obtain ⟨used, n, rfl, hn, hxs⟩ := separated_sound hi (some b) hs
    obtain ⟨ys, m, hys⟩ := hderives _ _ _ hxs
    rw [← tokens_append] at hys
    have hclose := close_stuck hp hys (map_eq_error.mp hc)
    simpa using hclose

theorem moreItems_fails {k : Place} {opened : Span} {item : Reader k.Tree}
    {display : List k.Tree → Expr} (hi : Sound item.read (Derives (.place k)) depth)
    (hf : Fails input item.read (Begins (.place k))) {first : List Lexeme} {x : k.Tree} {m : Nat}
    (hx : Derives (.place k) (tokens first) x m) {ts : List Lexeme} {e : SyntaxError}
    (h : (moreItems input opened item display).read ts = .error e) :
    Stuck input (Begins .atom) (⟨.symbol (.opening .curly), opened⟩ :: first ++ ts) e := by
  simp only [moreItems] at h
  split at h
  · next after he =>
    obtain ⟨span, rfl⟩ := eat_eq_some_iff.mp he
    have hmore := closeItems_fails (.curly k) hi hf (first ++ [⟨.symbol .comma, span⟩])
      (fun us hus => by simpa using .more hx hus)
      (fun us xs n hxs => ⟨x :: xs, _, by simpa using .more hx hxs⟩) h
    simpa using hmore
  · exact close_stuck (.curly k) (.last hx) (map_eq_error.mp h)

theorem afterCurly_fails (hd : ∀ which, Sound (deeper which).read (Opens which) depth)
    (hf : ∀ which, Fails input (deeper which).read (Begins which.phrase)) {opened : Span}
    {ts : List Lexeme} {e : SyntaxError} (h : (afterCurly input deeper opened).read ts = .error e) :
    Stuck input (Begins .atom) (⟨.symbol (.opening .curly), opened⟩ :: ts) e := by
  simp only [afterCurly] at h
  split at h
  · cases h
  · split at h
    · exact closeItems_fails (k := .entry) (.curly .entry) (entry_sound hd) (entry_fails hd hf)
        [] (fun _ hus => hus) (fun _ xs n hxs => ⟨xs, n, hxs⟩) h
    · rcases bind_eq_error.mp h with hfirst | ⟨⟨first, after⟩, hfirst, hrest⟩
      · exact stuck_after_sep (element_fails hf hfirst) [] _
          fun _ hus => .opened (.curly .element) (.last hus)
      · obtain ⟨us, m, rfl, hm, hx⟩ := element_sound hd hfirst
        dsimp only at hrest
        split at hrest
        · next key tail hc =>
          obtain ⟨span, rfl⟩ := eat_eq_some_iff.mp hc
          have hkey := derives_item hx
          rcases bind_eq_error.mp hrest with hv | ⟨⟨value, last⟩, hv, hmore⟩
          · refine stuck_after_sep (hf .expression hv) (⟨.symbol (.opening .curly), opened⟩ :: us)
              _ fun ws hws => .opened (.curly .entry) (.last (.value hkey hws))
          · obtain ⟨ws, l, rfl, hl, hvalue⟩ := hd .expression hv
            cases hvalue with
            | expression hvalue =>
              have hpair : Derives (.place .entry) (tokens (us ++ ⟨.symbol .colon, span⟩ :: ws))
                  (.pair key value) (max m l) := by
                rw [tokens_append]
                exact .pair hkey hvalue
              have hall := moreItems_fails (k := .entry) (entry_sound hd) (entry_fails hd hf)
                hpair hmore
              simpa using hall
        · exact moreItems_fails (k := .element) (element_sound hd) (element_fails hf) hx hrest

/-! ## Atoms and operators -/

theorem atom_fails (hd : ∀ which, Sound (deeper which).read (Opens which) depth)
    (hf : ∀ which, Fails input (deeper which).read (Begins which.phrase)) :
    Fails input (atom input deeper).read (Begins .atom) := by
  intro ts e h
  cases ts with
  | nil =>
    cases h
    exact stuck_here (.start _) rfl rfl
  | cons l ts =>
    obtain ⟨token, span⟩ := l
    cases token with
    | int _ | float _ | bool _ | null | str _ => cases h
    | name _ | comparison _ | eof =>
      cases h
      exact stuck_here (.start _) rfl rfl
    | symbol s =>
      cases s with
      | opening b =>
        cases b with
        | round => exact afterRound_fails hd hf h
        | square =>
          exact closeItems_fails (k := .element) .square (element_sound hd) (element_fails hf)
            [] (fun _ hus => hus) (fun _ xs n hxs => ⟨xs, n, hxs⟩) h
        | curly => exact afterCurly_fails hd hf h
      | _ =>
        cases h
        exact stuck_here (.start _) rfl rfl

theorem power_fails (hd : ∀ which, Sound (deeper which).read (Opens which) depth)
    (hf : ∀ which, Fails input (deeper which).read (Begins which.phrase)) :
    Fails input (power input deeper).read (Begins .power) := by
  intro ts e h
  simp only [power] at h
  rcases bind_eq_error.mp h with hb | ⟨⟨base, after⟩, hb, hrest⟩
  · exact stuck_mono (atom_fails hd hf hb) fun _ => .base
  · obtain ⟨used, n, rfl, hn, hbase⟩ := atom_sound hd hb
    dsimp only at hrest
    split at hrest
    · cases hrest
    · next tail he =>
      obtain ⟨span, rfl⟩ := eat_eq_some_iff.mp he
      exact stuck_after_sep (hf .unary (building_eq_error.mp hrest)) used _ fun _ => .exponent hbase

theorem unary_fails (hd : ∀ which, Sound (deeper which).read (Opens which) depth)
    (hf : ∀ which, Fails input (deeper which).read (Begins which.phrase)) :
    Fails input (unary input deeper).read (Begins .unary) := by
  intro ts e h
  simp only [unary] at h
  split at h
  · exact stuck_mono (power_fails hd hf h) fun _ => .unsigned
  · next op hop =>
    obtain ⟨s, hs, hsigns⟩ := prefixOp?_eq_some_iff.mp hop
    cases ts with
    | nil => cases hs
    | cons l ts =>
      obtain ⟨token, span⟩ := l
      obtain rfl : token = .symbol s := hs
      exact stuck_after_sep (hf .unary (building_eq_error.mp h)) [] _ fun _ => .signed hsigns

/-- Further operands of a level after a left one of that level. -/
theorem joined_fails {level : Nat} (hlevel : level < levels.length) {reader : Reader Expr}
    (hr : Sound reader.read (Derives (.joined (level + 1))) depth)
    (hf : Fails input reader.read (Begins (.joined (level + 1)))) {left : Expr}
    {before : List Lexeme} {m : Nat} (hl : Derives (.joined level) (tokens before) left m)
    {ts : List Lexeme} {e : SyntaxError} (h : joined reader levels[level] left ts = .error e) :
    Stuck input (Begins (.joined level)) (before ++ ts) e := by
  fun_induction joined reader levels[level] left ts generalizing before m e with
  | case1 left => cases h
  | case2 left l ts hop => cases h
  | case3 left l ts op hop err he =>
    cases h
    obtain ⟨token, span⟩ := l
    obtain ⟨s, hs, hjoins⟩ := (op?_eq_some_iff hlevel).mp hop
    obtain rfl : token = .symbol s := hs
    exact stuck_after_sep (hf he) before _ fun _ => .right hl hjoins
  | case4 left l ts op hop right after he _ ih =>
    obtain ⟨token, span⟩ := l
    obtain ⟨s, hs, hjoins⟩ := (op?_eq_some_iff hlevel).mp hop
    obtain rfl : token = .symbol s := hs
    obtain ⟨used, n, rfl, hn, hright⟩ := hr he
    have hleft : Derives (.joined level) (tokens (before ++ ⟨.symbol s, span⟩ :: used))
        (.binary op left right) (max m n) := by
      rw [tokens_append]
      exact .join hl hjoins hright
    have hall := ih hleft h
    simpa using hall

theorem operandFrom_fails (hd : ∀ which, Sound (deeper which).read (Opens which) depth)
    (hf : ∀ which, Fails input (deeper which).read (Begins which.phrase)) {level : Nat}
    (hlevel : level ≤ levels.length) :
    Fails input (operandFrom input deeper level).read (Begins (.joined level)) := by
  obtain ⟨more, hmore⟩ := Nat.exists_eq_add_of_le hlevel
  induction more generalizing level with
  | zero =>
    intro ts e h
    rw [operandFrom_of_le (by omega)] at h
    obtain rfl : 6 = level := hmore
    exact stuck_mono (unary_fails hd hf h) fun _ => .unjoined
  | succ more ih =>
    have hlt : level < levels.length := by omega
    have hnext : Sound (operandFrom input deeper (level + 1)).read (Derives (.joined (level + 1)))
        depth := operandFrom_sound hd hlt
    have ih : Fails input (operandFrom input deeper (level + 1)).read
        (Begins (.joined (level + 1))) := ih hlt (by omega)
    intro ts e h
    rw [operandFrom_of_lt hlt] at h
    simp only [chain] at h
    rcases bind_eq_error.mp h with hl | ⟨⟨left, after⟩, hl, hj⟩
    · exact stuck_mono (ih hl) fun _ => .left
    · obtain ⟨used, n, rfl, hn, hx⟩ := hnext hl
      exact joined_fails hlt hnext ih (.tighter hx) hj

/-! ## Levels of nesting -/

theorem rule_fails (hd : ∀ which, Sound (deeper which).read (Opens which) depth)
    (hf : ∀ which, Fails input (deeper which).read (Begins which.phrase)) (which : Nested) :
    Fails input (rule input deeper which).read (Begins which.phrase) := by
  cases which with
  | expression =>
    intro ts e h
    simp only [rule, expression] at h
    split at h
    · exact stuck_mono (operandFrom_fails hd hf (Nat.zero_le _) h) fun _ => .operand
    · next after he =>
      obtain ⟨span, rfl⟩ := eat_eq_some_iff.mp he
      exact stuck_after_sep (hf .expression (building_eq_error.mp h)) [] _ fun _ => .not
  | operand => exact operandFrom_fails hd hf (Nat.zero_le _)
  | unary => exact unary_fails hd hf

end Rules

theorem within_fails (input : Input) (depth : Nat) (which : Nested) :
    Fails input (within input depth which).read (Begins which.phrase) := by
  induction depth generalizing which with
  | zero =>
    intro ts e h
    cases h
    exact stuck_here (.start _) rfl rfl
  | succ depth ih => exact rule_fails (within_sound input depth) ih which

/-! ## The whole input -/

/-- An error is at a token before which the input begins an expression list,
    or forms one. -/
theorem parse_error {ts : List Lexeme} {maxDepth : Nat} {e : SyntaxError}
    (h : parse ts maxDepth = .error e) :
    Stuck ⟨maxDepth, endOf ts⟩ (fun us => Begins .list us ∨ ∃ x n, Derives .list us x n)
      (ts.takeWhile (·.token ≠ .eof)) e := by
  rw [parse_eq] at h
  rcases bind_eq_error.mp h with hl | ⟨⟨e', rest⟩, hl, hrest⟩
  · exact stuck_mono (expressionList_fails (within_sound _ _) (within_fails _ _) none hl)
      fun _ => .inl
  · obtain ⟨used, n, hused, hn, hx⟩ := expressionList_sound (within_sound _ maxDepth) none hl
    cases rest with
    | nil => cases hrest
    | cons l rest =>
      cases hrest
      exact ⟨used, l :: rest, hused, .inr ⟨e', n, hx⟩, rfl, nofun⟩

end Calculator.Grammar
