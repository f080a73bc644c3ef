import Calculator.Proofs.Grammar.Barrier
import Calculator.Proofs.Grammar.Soundness

/-
  Whatever is derived is read. A derivation says nothing about the tokens
  after the phrase, but a reader looks at the next one to see whether its
  phrase goes on; so the statement is about phrases followed by tokens at which
  they end. That no loop stops too late is this condition, and that none stops
  too early is the induction.

  What is proved:
    1. `derives_complete` — a derived phrase, followed by tokens at which it
       ends, is read with the tree of the derivation, at any depth not less
       than that of the derivation.
    2. `derives_unique` — no tokens form two expression lists.
    3. `parse_eq_ok_iff_derives` — the whole input is accepted with a tree if
       and only if it forms an expression list with that tree within the depth.
-/

namespace Calculator.Grammar

/-! ## Where phrases end -/

/-- How tightly a token binds to a phrase before it: operators by their level,
    `**` to an atom, and a string literal to a string literal. The others go
    on no phrase. -/
def binding : Token → Option Nat
  | .symbol .pipe => some 0
  | .symbol .caret => some 1
  | .symbol .ampersand => some 2
  | .symbol .shiftLeft | .symbol .shiftRight => some 3
  | .symbol .plus | .symbol .minus => some 4
  | .symbol .star | .symbol .slash | .symbol .doubleSlash | .symbol .percent => some 5
  | .symbol .doubleStar => some 7
  | .str _ => some 8
  | _ => none

theorem binding_of_joins {level : Nat} {s : Symbol} {op : BinaryOp} (h : Joins level s op) :
    binding (.symbol s) = some level := by
  cases h <;> rfl

/-- What has to bind more loosely than the phrase for the phrase to end. -/
def Phrase.strength : Phrase → Nat
  | .atom => 8
  | .power | .unary => 7
  | .joined level => level
  | _ => 0

/-- No token that binds with the strength, or more tightly, comes next. -/
def Ends (strength : Nat) (rest : List Lexeme) : Prop :=
  ∀ l ∈ rest.head?, ∀ b ∈ binding l.token, b < strength

theorem ends_mono {a b : Nat} {rest : List Lexeme} (h : Ends a rest) (hab : a ≤ b) :
    Ends b rest := by
  intro l hl c hc
  exact Nat.lt_of_lt_of_le (h l hl c hc) hab

theorem ends_cons {a : Nat} {l : Lexeme} (h : ∀ b ∈ binding l.token, b < a)
    (rest : List Lexeme) : Ends a (l :: rest) := by
  intro m hm
  simp only [List.head?_cons, Option.mem_def, Option.some.injEq] at hm
  exact hm ▸ h

theorem ends_of_atEnd {stop : Option Bracket} {rest : List Lexeme} (h : atEnd stop rest = true) :
    Ends 0 rest := by
  intro l hl b hb
  have hterminator : l.token = terminator stop := by
    rw [← atEnd_iff.mp h]
    cases rest with
    | nil => cases hl
    | cons m rest => cases hl; rfl
  rw [hterminator] at hb
  cases stop <;> cases hb

theorem eat_of_ends {a b : Nat} {s : Symbol} {rest : List Lexeme} (h : Ends a rest)
    (hs : binding (.symbol s) = some b) (hab : a ≤ b) : eat s rest = none := by
  cases rest with
  | nil => rfl
  | cons l rest =>
    refine eat_cons_of_ne ?_ rest
    intro hl
    have := h l rfl b (by rw [hl]; exact hs)
    omega

theorem eat_of_atEnd {stop : Option Bracket} {rest : List Lexeme} {s : Symbol}
    (h : atEnd stop rest = true) (hs : ∀ b, s ≠ .closing b) : eat s rest = none := by
  rw [eat_eq_none_iff, atEnd_iff.mp h]
  cases stop with
  | none => exact nofun
  | some b =>
    intro heq
    cases heq
    exact hs b rfl

/-! ## Tokens of a phrase -/

theorem tokens_eq_append_cons {us : List Lexeme} {ts vs : List Token} {t : Token}
    (h : tokens us = ts ++ t :: vs) :
    ∃ ls span ms, us = ls ++ ⟨t, span⟩ :: ms ∧ tokens ls = ts ∧ tokens ms = vs := by
  obtain ⟨ls, rest, rfl, hls, hrest⟩ := List.map_eq_append_iff.mp h
  obtain ⟨l, ms, rfl, rfl, hms⟩ := List.map_eq_cons_iff.mp hrest
  exact ⟨ls, l.span, ms, rfl, hls, hms⟩

theorem tokens_eq_cons {us : List Lexeme} {t : Token} {vs : List Token} (h : tokens us = t :: vs) :
    ∃ span ms, us = ⟨t, span⟩ :: ms ∧ tokens ms = vs := by
  have happend : tokens us = [] ++ t :: vs := h
  obtain ⟨ls, span, ms, rfl, hls, hms⟩ := tokens_eq_append_cons happend
  obtain rfl := List.map_eq_nil_iff.mp hls
  exact ⟨span, ms, rfl, hms⟩

theorem tokens_eq_bracketed {us : List Lexeme} {ts : List Token} {s t : Token}
    (h : tokens us = s :: ts ++ [t]) :
    ∃ first ms last, us = ⟨s, first⟩ :: ms ++ [⟨t, last⟩] ∧ tokens ms = ts := by
  obtain ⟨first, rest, rfl, hrest⟩ := tokens_eq_cons h
  obtain ⟨ms, last, more, rfl, hms, hnil⟩ := tokens_eq_append_cons hrest
  obtain rfl := List.map_eq_nil_iff.mp hnil
  exact ⟨first, ms, last, rfl, hms⟩

theorem bracketed_append (first last : Lexeme) (ms rest : List Lexeme) :
    first :: ms ++ [last] ++ rest = first :: (ms ++ last :: rest) := by
  simp

/-- A symbol that may not start a phrase does not come next before it. -/
theorem eat_of_starts {p : Phrase} {us : List Lexeme} {s : Symbol} (h : p.Starts (tokens us))
    (hs : p.mayStart (.symbol s) = false) (rest : List Lexeme) : eat s (us ++ rest) = none := by
  obtain ⟨t, ts, heq, ht⟩ := h
  obtain ⟨span, ms, rfl, _⟩ := tokens_eq_cons heq
  apply eat_cons_of_ne
  intro hsymbol
  simp only at hsymbol
  rw [hsymbol, hs] at ht
  cases ht

theorem atEnd_of_starts {p : Phrase} {us : List Lexeme} {stop : Option Bracket}
    (h : p.Starts (tokens us)) (rest : List Lexeme) : atEnd stop (us ++ rest) = false := by
  obtain ⟨t, ts, heq, ht⟩ := h
  obtain ⟨span, ms, rfl, _⟩ := tokens_eq_cons heq
  rw [Bool.eq_false_iff, Ne, atEnd_iff]
  intro hend
  change t = terminator stop at hend
  cases stop with
  | none =>
    rw [hend, terminator, mayStart_end] at ht
    cases ht
  | some b =>
    rw [hend, terminator, mayStart_closing] at ht
    cases ht

/-! ## What the rules read -/

section Rules
variable {input : Input} {deeper : Deeper}

theorem element_item {ts rest : List Lexeme} {e : Expr} (hs : eat .star ts = none)
    (h : (deeper .expression).read ts = .ok (e, rest)) :
    (element deeper).read ts = .ok (.item e, rest) := by
  simp only [element, hs, h, building_ok]

theorem element_spread {ts rest : List Lexeme} {e : Expr} {span : Span}
    (h : (deeper .operand).read ts = .ok (e, rest)) :
    (element deeper).read (⟨.symbol .star, span⟩ :: ts) = .ok (.spread e, rest) := by
  simp only [element, eat_cons_self, h, building_ok]

theorem entry_spread {ts rest : List Lexeme} {e : Expr} {span : Span}
    (h : (deeper .operand).read ts = .ok (e, rest)) :
    (entry input deeper).read (⟨.symbol .doubleStar, span⟩ :: ts) = .ok (.spread e, rest) := by
  simp only [entry, eat_cons_self, h, building_ok]

theorem entry_pair {ts us rest : List Lexeme} {key value : Expr} {span : Span}
    (hs : eat .doubleStar ts = none)
    (hk : (deeper .expression).read ts = .ok (key, ⟨.symbol .colon, span⟩ :: us))
    (hv : (deeper .expression).read us = .ok (value, rest)) :
    (entry input deeper).read ts = .ok (.pair key value, rest) := by
  simp only [entry, hs, hk, ok_bind, eat_cons_self, hv, building_ok]

theorem expressionList_lone {ts rest : List Lexeme} {e : Expr} {stop : Option Bracket}
    (h : (element deeper).read ts = .ok (.item e, rest)) (hc : eat .comma rest = none) :
    (expressionList input deeper stop).read ts = .ok (e, rest) := by
  simp only [expressionList, h, ok_bind, hc]

theorem expressionList_tuple {ts us rest : List Lexeme} {x : Element Expr}
    {xs : List (Element Expr)} {stop : Option Bracket} {span : Span}
    (h : (element deeper).read ts = .ok (x, ⟨.symbol .comma, span⟩ :: us))
    (hs : separated (element deeper) stop us = .ok (xs, rest)) :
    (expressionList input deeper stop).read ts = .ok (.tuple (x :: xs), rest) := by
  simp only [expressionList, h, ok_bind, eat_cons_self, hs, building_ok]

theorem separated_last {α : Type} {item : Reader α} {stop : Option Bracket} {ts rest : List Lexeme}
    {x : α} (hend : atEnd stop ts = false) (h : item.read ts = .ok (x, rest))
    (hc : eat .comma rest = none) : separated item stop ts = .ok ([x], rest) := by
  rw [separated_eq]
  simp [hend, h, hc]

theorem separated_more {α : Type} {item : Reader α} {stop : Option Bracket}
    {ts us rest : List Lexeme} {x : α} {xs : List α} {span : Span} (hend : atEnd stop ts = false)
    (h : item.read ts = .ok (x, ⟨.symbol .comma, span⟩ :: us))
    (hs : separated item stop us = .ok (xs, rest)) :
    separated item stop ts = .ok (x :: xs, rest) := by
  rw [separated_eq]
  simp [hend, h, eat_cons_self, hs]

theorem close_self (b : Bracket) (opened span : Span) (rest : List Lexeme) :
    close input b opened (⟨.symbol (.closing b), span⟩ :: rest) = .ok rest :=
  close_eq_ok_iff.mpr (eat_cons_self _ _ _)

theorem closeItems_closed {α : Type} {item : Reader α} {b : Bracket} {opened span : Span}
    {ts rest : List Lexeme} {xs : List α} (display : List α → Expr)
    (h : separated item (some b) ts = .ok (xs, ⟨.symbol (.closing b), span⟩ :: rest)) :
    (closeItems input b opened item display).read ts = .ok (display xs, rest) := by
  simp only [closeItems, h, ok_bind, close_self]
  rfl

/-- Places up to a closing brace are a first place, and then more of them or
    the brace. So braces may be read by their first place. -/
theorem moreItems_of_separated (input : Input) {α : Type} {item : Reader α} {opened span : Span}
    {ts rest : List Lexeme} {xs : List α} (hend : atEnd (some .curly) ts = false)
    (h : separated item (some .curly) ts = .ok (xs, ⟨.symbol (.closing .curly), span⟩ :: rest)) :
    ∃ x ys after, xs = x :: ys ∧ item.read ts = .ok (x, after) ∧ eat .colon after = none ∧
      ∀ display : List α → Expr,
        (moreItems input opened item display).read after = .ok (display ys, rest) := by
  rw [separated_eq] at h
  simp only [hend, Bool.false_eq_true, if_false] at h
  obtain ⟨⟨x, after⟩, hx, h⟩ := bind_eq_ok.mp h
  dsimp only at h
  split at h
  · next hc =>
    cases h
    refine ⟨x, [], _, rfl, hx, eat_cons_of_ne (by simp) rest, ?_⟩
    intro display
    simp only [moreItems, hc, close_self]
    rfl
  · next tail hc =>
    obtain ⟨ys, hys, rfl⟩ := building_eq_ok.mp h
    obtain ⟨comma, rfl⟩ := eat_eq_some_iff.mp hc
    refine ⟨x, ys, _, rfl, hx, eat_cons_of_ne (by simp) tail, ?_⟩
    intro display
    simp only [moreItems, hc]
    exact closeItems_closed display hys

theorem eat_closing_of_atEnd {b : Bracket} {ts : List Lexeme} (h : atEnd (some b) ts = false) :
    eat (.closing b) ts = none := by
  rw [Bool.eq_false_iff, Ne, atEnd_iff] at h
  exact eat_eq_none_iff.mpr h

theorem afterCurly_elements {ts rest : List Lexeme} {xs : List (Element Expr)}
    {opened span : Span} (hend : atEnd (some .curly) ts = false) (hs : eat .doubleStar ts = none)
    (h : separated (element deeper) (some .curly) ts =
      .ok (xs, ⟨.symbol (.closing .curly), span⟩ :: rest)) :
    (afterCurly input deeper opened).read ts = .ok (.set xs, rest) := by
  obtain ⟨x, ys, after, rfl, hx, hcolon, hmore⟩ := moreItems_of_separated input hend h
  simp only [afterCurly, eat_closing_of_atEnd hend, hs, hx, ok_bind, hcolon]
  cases x <;> exact hmore _

theorem afterCurly_entries {ts rest : List Lexeme} {xs : List (Entry Expr)}
    {opened span : Span} (hend : atEnd (some .curly) ts = false) (hs : eat .star ts = none)
    (h : separated (entry input deeper) (some .curly) ts =
      .ok (xs, ⟨.symbol (.closing .curly), span⟩ :: rest)) :
    (afterCurly input deeper opened).read ts = .ok (.dict xs, rest) := by
  obtain ⟨x, ys, after, rfl, hx, _, hmore⟩ := moreItems_of_separated input hend h
  simp only [afterCurly, eat_closing_of_atEnd hend]
  cases hds : eat .doubleStar ts with
  | some tail => exact closeItems_closed .dict h
  | none =>
    -- the first entry is a pair, and its key is read as an element
    simp only [entry, hds] at hx
    obtain ⟨⟨key, last⟩, hk, hv⟩ := bind_eq_ok.mp hx
    simp only [element_item hs hk, ok_bind]
    dsimp only at hv
    split at hv
    · cases hv
    · next tail hc =>
      obtain ⟨value, hvalue, rfl⟩ := building_eq_ok.mp hv
      simp only [hc, hvalue, ok_bind]
      exact hmore fun more => .dict (.pair key value :: more)

/-! ## Literals and operators -/

theorem moreStrings_of_ends {us rest : List Lexeme} {ss : List String}
    (h : tokens us = ss.map .str) (hr : Ends 8 rest) :
    moreStrings (us ++ rest) = (String.join ss, rest) := by
  induction ss generalizing us with
  | nil =>
    obtain rfl := List.map_eq_nil_iff.mp h
    cases rest with
    | nil => rfl
    | cons l rest =>
      obtain ⟨token, span⟩ := l
      cases token with
      | str s => exact absurd (hr _ rfl 8 rfl) (Nat.lt_irrefl 8)
      | _ => rfl
  | cons s ss ih =>
    obtain ⟨span, ms, rfl, hms⟩ := tokens_eq_cons h
    simp only [List.cons_append, moreStrings, ih hms, String.join_cons]

theorem atom_strings {us rest : List Lexeme} {s : String} {ss : List String}
    (h : tokens us = (s :: ss).map .str) (hr : Ends 8 rest) :
    (atom input deeper).read (us ++ rest) = .ok (.literal (.str (String.join (s :: ss))), rest) := by
  obtain ⟨span, ms, rfl, hms⟩ := tokens_eq_cons h
  show Except.ok (Expr.literal (.str (s ++ (moreStrings (ms ++ rest)).1)),
    (moreStrings (ms ++ rest)).2) = _
  rw [moreStrings_of_ends hms hr, String.join_cons]

theorem afterRound_list {ts rest : List Lexeme} {e : Expr} {opened span : Span}
    (hs : eat (.closing .round) ts = none)
    (h : (expressionList input deeper (some .round)).read ts =
      .ok (e, ⟨.symbol (.closing .round), span⟩ :: rest)) :
    (afterRound input deeper opened).read ts = .ok (e, rest) := by
  simp only [afterRound, hs, h, ok_bind, close_self]
  rfl

theorem power_base {ts rest : List Lexeme} {e : Expr} (h : (atom input deeper).read ts = .ok (e, rest))
    (hs : eat .doubleStar rest = none) : (power input deeper).read ts = .ok (e, rest) := by
  simp only [power, h, ok_bind, hs]

theorem power_raised {ts us rest : List Lexeme} {base exponent : Expr} {span : Span}
    (hb : (atom input deeper).read ts = .ok (base, ⟨.symbol .doubleStar, span⟩ :: us))
    (hx : (deeper .unary).read us = .ok (exponent, rest)) :
    (power input deeper).read ts = .ok (.binary .pow base exponent, rest) := by
  simp only [power, hb, ok_bind, eat_cons_self, hx, building_ok]

theorem unary_unsigned {us rest : List Lexeme} (h : Phrase.power.Starts (tokens us)) :
    (unary input deeper).read (us ++ rest) = (power input deeper).read (us ++ rest) := by
  obtain ⟨t, ts, heq, ht⟩ := h
  obtain ⟨span, ms, rfl, _⟩ := tokens_eq_cons heq
  have hop : prefixOp? (input.next (⟨t, span⟩ :: ms ++ rest)).token = none := by
    rw [Option.eq_none_iff_forall_ne_some]
    intro op hop
    obtain ⟨s, rfl, hs⟩ := prefixOp?_eq_some_iff.mp hop
    cases hs <;> cases ht
  simp only [unary, hop]

theorem unary_signed {s : Symbol} {op : UnaryOp} (hs : Signs s op) {ts rest : List Lexeme} {e : Expr}
    {span : Span} (h : (deeper .unary).read ts = .ok (e, rest)) :
    (unary input deeper).read (⟨.symbol s, span⟩ :: ts) = .ok (.unary op e, rest) := by
  have hop : prefixOp? (input.next (⟨.symbol s, span⟩ :: ts)).token = some op :=
    prefixOp?_eq_some_iff.mpr ⟨s, rfl, hs⟩
  simp only [unary, hop, List.tail_cons, h, building_ok]

theorem expression_operand {ts : List Lexeme} (hs : eat .not ts = none) :
    (expression input deeper).read ts = (operand input deeper).read ts := by
  simp only [expression, hs]

theorem expression_not {ts rest : List Lexeme} {e : Expr} {span : Span}
    (h : (deeper .expression).read ts = .ok (e, rest)) :
    (expression input deeper).read (⟨.symbol .not, span⟩ :: ts) = .ok (.unary .not e, rest) := by
  simp only [expression, eat_cons_self, h, building_ok]

/-- What a level makes of an operand of the next level and the tokens after
    it. -/
def further (input : Input) (deeper : Deeper) (level : Nat) (left : Expr) (ts : List Lexeme) :
    Except SyntaxError (Expr × List Lexeme) :=
  match levels[level]? with
  | some ops => joined (operandFrom input deeper (level + 1)) ops left ts
  | none => .ok (left, ts)

theorem operandFrom_read (level : Nat) {ts rest : List Lexeme} {e : Expr}
    (h : (operandFrom input deeper (level + 1)).read ts = .ok (e, rest)) :
    (operandFrom input deeper level).read ts = further input deeper level e rest := by
  unfold further
  by_cases hl : level < levels.length
  · rw [operandFrom_of_lt hl, List.getElem?_eq_getElem hl]
    simp only [chain, h, ok_bind]
  · rw [List.getElem?_eq_none (by omega), ← h, operandFrom_of_le (by omega),
      operandFrom_of_le (by omega)]

theorem further_of_ends {level : Nat} {rest : List Lexeme} (h : Ends level rest) (e : Expr) :
    further input deeper level e rest = .ok (e, rest) := by
  unfold further
  split
  · next ops hops =>
    obtain ⟨hl, rfl⟩ := List.getElem?_eq_some_iff.mp hops
    apply joined_stop
    rw [Option.eq_none_iff_forall_ne_some]
    intro op hop
    obtain ⟨s, hs, hj⟩ := (op?_eq_some_iff hl).mp hop
    cases rest with
    | nil => cases hs
    | cons l rest =>
      have hl' : l.token = .symbol s := hs
      have hb : binding l.token = some level := by rw [hl', binding_of_joins hj]
      exact absurd (h l rfl level hb) (Nat.lt_irrefl level)
  · rfl

theorem further_join {level : Nat} {s : Symbol} {op : BinaryOp} (hj : Joins level s op)
    {ts rest : List Lexeme} {l r : Expr} {span : Span}
    (h : (operandFrom input deeper (level + 1)).read ts = .ok (r, rest)) :
    further input deeper level l (⟨.symbol s, span⟩ :: ts) =
      further input deeper level (.binary op l r) rest := by
  have hl := joins_lt hj
  unfold further
  rw [List.getElem?_eq_getElem hl]
  have hop : levels[level].op? (Token.symbol s) = some op :=
    (op?_eq_some_iff hl).mpr ⟨s, rfl, hj⟩
  dsimp only
  rw [joined_eq hop, h, ok_bind]

end Rules

/-! ## Derivations -/

/-- The phrase is read with the tree from tokens of the form, at every depth
    from `n` on, when tokens follow at which it ends. After the first operand
    of a level there may be further operators of the level. -/
def Complete (input : Input) : (p : Phrase) → List Token → p.Tree → Nat → Prop
  | .list, ts, e, n => ∀ depth stop us rest, n ≤ depth → tokens us = ts →
    atEnd stop rest = true →
    (expressionList input (within input depth) stop).read (us ++ rest) = .ok (e, rest)
  | .places k, ts, xs, n => ∀ depth stop us rest, n ≤ depth → tokens us = ts →
    atEnd stop rest = true →
    separated (k.reader input (within input depth)) stop (us ++ rest) = .ok (xs, rest)
  | .joined level, ts, e, n => ∀ depth us rest, n ≤ depth → tokens us = ts →
    Ends (level + 1) rest →
    (operandFrom input (within input depth) level).read (us ++ rest) =
      further input (within input depth) level e rest
  | p, ts, x, n => ∀ depth us rest, n ≤ depth → tokens us = ts → Ends p.strength rest →
    p.read input depth none (us ++ rest) = .ok (x, rest)

/-- A level that opens in a derivation is among those allowed. -/
theorem exists_depth {n depth : Nat} (h : n + 1 ≤ depth) : ∃ d, depth = d + 1 ∧ n ≤ d :=
  ⟨depth - 1, by omega, by omega⟩

/-- An operand is read by itself when no operator of its level follows. -/
theorem operand_of_complete {input : Input} {level n : Nat} {ts : List Token} {e : Expr}
    (h : Complete input (.joined level) ts e n) {depth : Nat} (hn : n ≤ depth) {us : List Lexeme}
    (hus : tokens us = ts) {rest : List Lexeme} (hr : Ends level rest) :
    (operandFrom input (within input depth) level).read (us ++ rest) = .ok (e, rest) := by
  calc (operandFrom input (within input depth) level).read (us ++ rest)
      = further input (within input depth) level e rest :=
        h depth us rest hn hus (ends_mono hr (Nat.le_succ level))
    _ = .ok (e, rest) := further_of_ends hr e

theorem derives_complete (input : Input) {p : Phrase} {ts : List Token} {x : p.Tree} {n : Nat}
    (h : Derives p ts x n) : Complete input p ts x n := by
  induction h with
  | lone h ih =>
    intro depth stop us rest hn hus hr
    have hx := ih depth us rest hn hus (ends_of_atEnd hr)
    exact expressionList_lone hx (eat_of_atEnd hr nofun)
  | bareTuple h _ ih ihs =>
    intro depth stop us rest hn hus hr
    obtain ⟨ls, span, ms, rfl, hls, hms⟩ := tokens_eq_append_cons hus
    have hx := ih depth ls (⟨.symbol .comma, span⟩ :: ms ++ rest) (by omega) hls
      (ends_cons (fun b hb => by cases hb) _)
    have hxs := ihs depth stop ms rest (by omega) hms hr
    rw [List.append_assoc]
    exact expressionList_tuple hx hxs
  | not _ ih =>
    intro depth us rest hn hus hr
    obtain ⟨depth, rfl, hn'⟩ := exists_depth hn
    obtain ⟨span, ms, rfl, hms⟩ := tokens_eq_cons hus
    exact expression_not (ih depth ms rest hn' hms hr)
  | operand h ih =>
    intro depth us rest hn hus hr
    obtain ⟨depth, rfl, hn'⟩ := exists_depth hn
    have hs := eat_of_starts (s := .not) (hus ▸ derives_starts h nofun) rfl rest
    exact (expression_operand hs).trans (operand_of_complete ih hn' hus hr)
  | @join level s _ _ _ _ _ _ _ _ hj _ ihl ihr =>
    intro depth us rest hn hus hr
    obtain ⟨ls, span, ms, rfl, hls, hms⟩ := tokens_eq_append_cons hus
    have hop : Ends (level + 1) (⟨.symbol s, span⟩ :: ms ++ rest) :=
      ends_cons (by simp [binding_of_joins hj]) _
    rw [List.append_assoc, ihl depth ls _ (by omega) hls hop]
    exact further_join hj (operand_of_complete ihr (by omega) hms hr)
  | tighter _ ih =>
    intro depth us rest hn hus hr
    exact operandFrom_read _ (operand_of_complete ih hn hus hr)
  | unjoined _ ih =>
    intro depth us rest hn hus hr
    exact ih depth us rest hn hus hr
  | signed hs _ ih =>
    intro depth us rest hn hus hr
    obtain ⟨depth, rfl, hn'⟩ := exists_depth hn
    obtain ⟨span, ms, rfl, hms⟩ := tokens_eq_cons hus
    exact unary_signed hs (ih depth ms rest hn' hms hr)
  | unsigned h ih =>
    intro depth us rest hn hus hr
    exact (unary_unsigned (hus ▸ derives_starts h nofun)).trans (ih depth us rest hn hus hr)
  | raised _ _ ihb ihx =>
    intro depth us rest hn hus hr
    obtain ⟨ls, span, ms, rfl, hls, hms⟩ := tokens_eq_append_cons hus
    obtain ⟨depth, rfl, hn'⟩ := exists_depth (Nat.le_trans (Nat.le_max_right _ _) hn)
    have hb := ihb (depth + 1) ls (⟨.symbol .doubleStar, span⟩ :: ms ++ rest)
      (Nat.le_trans (Nat.le_max_left _ _) hn) hls (ends_cons (by simp [binding, Phrase.strength]) _)
    rw [List.append_assoc]
    exact power_raised hb (ihx depth ms rest hn' hms hr)
  | base _ ih =>
    intro depth us rest hn hus hr
    exact power_base (ih depth us rest hn hus (ends_mono hr (by decide)))
      (eat_of_ends hr rfl (by decide))
  | int n | float x | bool b | null =>
    intro depth us rest _ hus _
    obtain ⟨span, ms, rfl, hms⟩ := tokens_eq_cons hus
    obtain rfl := List.map_eq_nil_iff.mp hms
    rfl
  | strings s ss =>
    intro depth us rest _ hus hr
    exact atom_strings hus hr
  | emptyTuple =>
    intro depth us rest _ hus _
    obtain ⟨span, ms, rfl, hms⟩ := tokens_eq_cons hus
    obtain ⟨last, ms, rfl, hnil⟩ := tokens_eq_cons hms
    obtain rfl := List.map_eq_nil_iff.mp hnil
    rfl
  | round h ih =>
    intro depth us rest hn hus _
    obtain ⟨opened, ms, span, rfl, hms⟩ := tokens_eq_bracketed hus
    have hs : Phrase.list.Starts (tokens ms) := hms ▸ derives_starts h nofun
    have he := ih depth (some .round) ms (⟨.symbol (.closing .round), span⟩ :: rest) hn hms
      (atEnd_some_iff.mpr ⟨span, rest, rfl⟩)
    rw [bracketed_append]
    exact afterRound_list (eat_of_starts hs rfl _) he
  | square h ih =>
    intro depth us rest hn hus _
    obtain ⟨opened, ms, span, rfl, hms⟩ := tokens_eq_bracketed hus
    have hxs := ih depth (some .square) ms (⟨.symbol (.closing .square), span⟩ :: rest) hn hms
      (atEnd_some_iff.mpr ⟨span, rest, rfl⟩)
    rw [bracketed_append]
    exact closeItems_closed .list hxs
  | set h ih =>
    intro depth us rest hn hus _
    obtain ⟨opened, ms, span, rfl, hms⟩ := tokens_eq_bracketed hus
    have hs : (Phrase.places .element).Starts (tokens ms) := hms ▸ derives_cons_starts h
    have hxs := ih depth (some .curly) ms (⟨.symbol (.closing .curly), span⟩ :: rest) hn hms
      (atEnd_some_iff.mpr ⟨span, rest, rfl⟩)
    rw [bracketed_append]
    exact afterCurly_elements (atEnd_of_starts hs _) (eat_of_starts hs rfl _) hxs
  | @dict ts xs n h ih =>
    intro depth us rest hn hus _
    obtain ⟨opened, ms, span, rfl, hms⟩ := tokens_eq_bracketed hus
    have hxs := ih depth (some .curly) ms (⟨.symbol (.closing .curly), span⟩ :: rest) hn hms
      (atEnd_some_iff.mpr ⟨span, rest, rfl⟩)
    rw [bracketed_append]
    cases xs with
    | nil =>
      cases h
      obtain rfl := List.map_eq_nil_iff.mp hms
      rfl
    | cons x xs =>
      have hs : (Phrase.places .entry).Starts (tokens ms) := hms ▸ derives_cons_starts h
      exact afterCurly_entries (atEnd_of_starts hs _) (eat_of_starts hs rfl _) hxs
  | item h ih =>
    intro depth us rest hn hus hr
    exact element_item (eat_of_starts (hus ▸ derives_starts h nofun) rfl rest)
      (ih depth us rest hn hus hr)
  | spreadElements _ ih =>
    intro depth us rest hn hus hr
    obtain ⟨depth, rfl, hn'⟩ := exists_depth hn
    obtain ⟨span, ms, rfl, hms⟩ := tokens_eq_cons hus
    exact element_spread (operand_of_complete ih hn' hms hr)
  | pair h _ ihk ihv =>
    intro depth us rest hn hus hr
    obtain ⟨ls, span, ms, rfl, hls, hms⟩ := tokens_eq_append_cons hus
    have hk := ihk depth ls (⟨.symbol .colon, span⟩ :: ms ++ rest) (by omega) hls
      (ends_cons (fun b hb => by cases hb) _)
    rw [List.append_assoc]
    exact entry_pair (eat_of_starts (hls ▸ derives_starts h nofun) rfl _) hk
      (ihv depth ms rest (by omega) hms hr)
  | spreadEntries _ ih =>
    intro depth us rest hn hus hr
    obtain ⟨depth, rfl, hn'⟩ := exists_depth hn
    obtain ⟨span, ms, rfl, hms⟩ := tokens_eq_cons hus
    exact entry_spread (operand_of_complete ih hn' hms hr)
  | none =>
    intro depth stop us rest _ hus hr
    obtain rfl := List.map_eq_nil_iff.mp hus
    rw [List.nil_append, separated_eq, if_pos hr]
  | last h ih =>
    intro depth stop us rest hn hus hr
    exact separated_last (atEnd_of_starts (hus ▸ derives_starts h nofun) rest)
      (ih depth us rest hn hus (ends_of_atEnd hr)) (eat_of_atEnd hr nofun)
  | more h _ ih ihs =>
    intro depth stop us rest hn hus hr
    obtain ⟨ls, span, ms, rfl, hls, hms⟩ := tokens_eq_append_cons hus
    have hx := ih depth ls (⟨.symbol .comma, span⟩ :: ms ++ rest) (by omega) hls
      (ends_cons (fun b hb => by cases hb) _)
    rw [List.append_assoc]
    exact separated_more (atEnd_of_starts (hls ▸ derives_starts h nofun) _) hx
      (ihs depth stop ms rest (by omega) hms hr)

/-! ## The whole input -/

/-- Any tokens at all are accepted for what stands before the first end of
    input. -/
theorem parse_eq_ok_iff {ts : List Lexeme} {maxDepth : Nat} {e : Expr} :
    parse ts maxDepth = .ok e ↔
      ∃ n ≤ maxDepth, Derives .list (tokens (ts.takeWhile (·.token ≠ .eof))) e n := by
  constructor
  · intro h
    rw [parse_eq] at h
    obtain ⟨⟨e', rest⟩, hl, hrest⟩ := bind_eq_ok.mp h
    obtain ⟨used, n, hused, hn, hx⟩ := read_sound _ maxDepth none .list nofun hl
    cases rest with
    | nil =>
      cases hrest
      rw [hused, List.append_nil]
      exact ⟨n, hn, hx⟩
    | cons l rest => cases hrest
  · intro h
    obtain ⟨n, hn, h⟩ := h
    have hl := fun input => derives_complete input h maxDepth none _ [] hn rfl rfl
    simp only [List.append_nil] at hl
    rw [parse_eq]
    simp only [Phrase.read, hl, ok_bind]

theorem derives_unique {ts : List Token} {e e' : Expr} {n n' : Nat} (h : Derives .list ts e n)
    (h' : Derives .list ts e' n') : e = e' := by
  -- both trees are read from the same tokens, wherever these are placed
  let us : List Lexeme := ts.map (⟨·, .point 0⟩)
  have hus : tokens us = ts := by simp [tokens, us, Function.comp_def]
  let input : Input := ⟨0, .point 0⟩
  have hread := derives_complete input h (max n n') none us [] (Nat.le_max_left _ _) hus rfl
  have hread' := derives_complete input h' (max n n') none us [] (Nat.le_max_right _ _) hus rfl
  rw [hread] at hread'
  cases hread'
  rfl

/-- The grammar is what is accepted, with its trees, its depths and nothing
    else. -/
theorem parse_eq_ok_iff_derives (ts : List Lexeme) (hts : ∀ l ∈ ts, l.token ≠ .eof)
    (endSpan : Span) (maxDepth : Nat) (e : Expr) :
    (parse (ts ++ [⟨.eof, endSpan⟩]) maxDepth = .ok e ↔
        ∃ n ≤ maxDepth, Derives .list (tokens ts) e n) ∧
      ∀ us e₁ e₂ n₁ n₂, Derives .list us e₁ n₁ → Derives .list us e₂ n₂ → e₁ = e₂ := by
  constructor
  · rw [parse_eq_ok_iff, takeWhile_end hts]
  · intro us e₁ e₂ n₁ n₂ h₁ h₂
    exact derives_unique h₁ h₂

/-- `-2 ** 2` negates a power, and takes three levels: the expression, the
    operand of the sign and the exponent. -/
theorem parse_negated_power :
    parse ([⟨.symbol .minus, ⟨0, 1⟩⟩, ⟨.int 2, ⟨1, 2⟩⟩, ⟨.symbol .doubleStar, ⟨3, 5⟩⟩,
        ⟨.int 2, ⟨6, 7⟩⟩] ++ [⟨.eof, ⟨7, 7⟩⟩]) 3 =
      .ok (.unary .neg (.binary .pow (.literal (.int 2)) (.literal (.int 2)))) := by
  refine (parse_eq_ok_iff_derives _ (by simp) ⟨7, 7⟩ 3 _).1.mpr ⟨3, Nat.le_refl 3, ?_⟩
  have power := Derives.raised (.int 2) (.unsigned (.base (.int 2)))
  have operand := Derives.unjoined (.signed .neg (.unsigned power))
  exact .lone (.item (.operand (.tighter (.tighter (.tighter (.tighter (.tighter
    (.tighter operand))))))))

end Calculator.Grammar
