import Calculator.Proofs.Grammar.Reading

/-
  Whatever a reader accepts is derived. Each rule is sound when the readers of
  the next level are; the levels are then taken one by one.

  What is proved: `read_sound` — if the reader of a phrase gives a tree, then
  the tokens it took form the phrase with that tree, and no more levels of
  nesting are open at once than were allowed.
-/

namespace Calculator.Grammar

/-- What is read is a front part of the tokens that has the form, within the
    depth. -/
def Sound {α : Type} (read : Parse α) (Forms : List Token → α → Nat → Prop) (depth : Nat) : Prop :=
  ∀ ⦃ts : List Lexeme⦄ ⦃a : α⦄ ⦃rest : List Lexeme⦄, read ts = .ok (a, rest) →
    ∃ used n, ts = used ++ rest ∧ n ≤ depth ∧ Forms (tokens used) a n

/-- What the readers of the next level read, the level that they open
    counted. -/
inductive Opens : Nested → List Token → Expr → Nat → Prop where
  | expression {ts : List Token} {e : Expr} {n : Nat} :
    Derives .expression ts e n → Opens .expression ts e n
  | operand {ts : List Token} {e : Expr} {n : Nat} :
    Derives (.joined 0) ts e n → Opens .operand ts e (n + 1)
  | unary {ts : List Token} {e : Expr} {n : Nat} :
    Derives .unary ts e n → Opens .unary ts e (n + 1)

section Rules
variable {input : Input} {deeper : Deeper} {depth : Nat}

/-! ## Places -/

theorem element_sound (hd : ∀ which, Sound (deeper which).read (Opens which) depth) :
    Sound (element deeper).read (Derives (.place .element)) depth := by
  intro ts a rest h
  simp only [element] at h
  split at h
  · next after he =>
    obtain ⟨span, rfl⟩ := eat_eq_some_iff.mp he
    obtain ⟨e, hr, rfl⟩ := building_eq_ok.mp h
    obtain ⟨used, n, rfl, hn, ho⟩ := hd .operand hr
    cases ho with
    | operand ho => exact ⟨⟨.symbol .star, span⟩ :: used, _, rfl, hn, .spreadElements ho⟩
  · obtain ⟨e, hr, rfl⟩ := building_eq_ok.mp h
    obtain ⟨used, n, rfl, hn, ho⟩ := hd .expression hr
    cases ho with
    | expression ho => exact ⟨used, n, rfl, hn, .item ho⟩

theorem entry_sound (hd : ∀ which, Sound (deeper which).read (Opens which) depth) :
    Sound (entry input deeper).read (Derives (.place .entry)) depth := by
  intro ts a rest h
  simp only [entry] at h
  split at h
  · next after he =>
    obtain ⟨span, rfl⟩ := eat_eq_some_iff.mp he
    obtain ⟨e, hr, rfl⟩ := building_eq_ok.mp h
    obtain ⟨used, n, rfl, hn, ho⟩ := hd .operand hr
    cases ho with
    | operand ho => exact ⟨⟨.symbol .doubleStar, span⟩ :: used, _, rfl, hn, .spreadEntries ho⟩
  · obtain ⟨⟨key, after⟩, hk, hrest⟩ := bind_eq_ok.mp h
    obtain ⟨used, n, rfl, hn, hkey⟩ := hd .expression hk
    cases hkey with
    | expression hkey =>
      split at hrest
      · cases hrest
      · next last hc =>
        obtain ⟨span, rfl⟩ := eat_eq_some_iff.mp hc
        obtain ⟨value, hv, rfl⟩ := building_eq_ok.mp hrest
        obtain ⟨more, m, rfl, hm, hvalue⟩ := hd .expression hv
        cases hvalue with
        | expression hvalue =>
          refine ⟨used ++ ⟨.symbol .colon, span⟩ :: more, max n m, by simp, by omega, ?_⟩
          rw [tokens_append]
          exact .pair hkey hvalue

theorem place_sound (hd : ∀ which, Sound (deeper which).read (Opens which) depth) (k : Place) :
    Sound (k.reader input deeper).read (Derives (.place k)) depth := by
  cases k with
  | element => exact element_sound hd
  | entry => exact entry_sound hd

theorem separated_sound {k : Place} {item : Reader k.Tree}
    (hi : Sound item.read (Derives (.place k)) depth) (stop : Option Bracket) :
    Sound (separated item stop) (Derives (.places k)) depth := by
  intro ts as rest h
  -- the rounds of the loop; each takes an item, and a comma if there is one
  fun_induction separated item stop ts generalizing as rest with
  | case1 ts hend =>
    cases h
    exact ⟨[], 0, rfl, Nat.zero_le _, .none⟩
  | case2 ts hend e he => cases h
  | case3 ts hend first after hr hc =>
    cases h
    obtain ⟨used, n, rfl, hn, hx⟩ := hi hr
    exact ⟨used, n, rfl, hn, .last hx⟩
  | case4 ts hend first after hr tail hc _ _ e he => cases h
  | case5 ts hend first after hr tail hc _ _ xs last he ih =>
    cases h
    obtain ⟨used, n, rfl, hn, hx⟩ := hi hr
    obtain ⟨span, rfl⟩ := eat_eq_some_iff.mp hc
    obtain ⟨more, m, rfl, hm, hxs⟩ := ih he
    refine ⟨used ++ ⟨.symbol .comma, span⟩ :: more, max n m, by simp, by omega, ?_⟩
    rw [tokens_append]
    exact .more hx hxs

/-! ## Lists and brackets -/

theorem expressionList_sound (hd : ∀ which, Sound (deeper which).read (Opens which) depth)
    (stop : Option Bracket) :
    Sound (expressionList input deeper stop).read (Derives .list) depth := by
  intro ts e rest h
  simp only [expressionList] at h
  obtain ⟨⟨first, after⟩, hf, hrest⟩ := bind_eq_ok.mp h
  obtain ⟨used, n, rfl, hn, hx⟩ := element_sound hd hf
  dsimp only at hrest
  split at hrest
  · next tail hc =>
    obtain ⟨span, rfl⟩ := eat_eq_some_iff.mp hc
    obtain ⟨xs, hm, rfl⟩ := building_eq_ok.mp hrest
    obtain ⟨more, m, rfl, hm, hxs⟩ := separated_sound (k := .element) (element_sound hd) stop hm
    refine ⟨used ++ ⟨.symbol .comma, span⟩ :: more, max n m, by simp, by omega, ?_⟩
    rw [tokens_append]
    exact .bareTuple hx hxs
  · cases first with
    | item e' =>
      cases hrest
      exact ⟨used, n, rfl, hn, .lone hx⟩
    | spread source => cases hrest

/-- A bracket that has been closed stands after what is in it. -/
theorem close_sound {b : Bracket} {opened : Span} {ts rest : List Lexeme}
    (h : close input b opened ts = .ok rest) :
    ∃ span, ts = ⟨.symbol (.closing b), span⟩ :: rest :=
  eat_eq_some_iff.mp (close_eq_ok_iff.mp h)

/-- What a reader that follows an opening bracket takes, with the bracket, is
    an atom. -/
def SoundAfter (b : Bracket) (reader : Reader Expr) (depth : Nat) : Prop :=
  Sound reader.read (fun ts e n => Derives .atom (.symbol (.opening b) :: ts) e n) depth

theorem afterRound_sound (hd : ∀ which, Sound (deeper which).read (Opens which) depth)
    (opened : Span) : SoundAfter .round (afterRound input deeper opened) depth := by
  intro ts e rest h
  simp only [afterRound] at h
  split at h
  · next he =>
    cases h
    obtain ⟨span, rfl⟩ := eat_eq_some_iff.mp he
    exact ⟨[⟨.symbol (.closing .round), span⟩], 0, rfl, Nat.zero_le _, .emptyTuple⟩
  · obtain ⟨⟨e', after⟩, hl, h⟩ := bind_eq_ok.mp h
    obtain ⟨last, hc, heq⟩ := map_eq_ok.mp h
    cases heq
    obtain ⟨used, n, rfl, hn, hx⟩ := expressionList_sound hd (some .round) hl
    obtain ⟨span, rfl⟩ := close_sound hc
    refine ⟨used ++ [⟨.symbol (.closing .round), span⟩], n, by simp, hn, ?_⟩
    rw [tokens_append]
    exact .round hx

/-- The items up to the closing bracket, and the display they make. -/
theorem closeItems_sound {k : Place} {b : Bracket} {opened : Span} {item : Reader k.Tree}
    (hi : Sound item.read (Derives (.place k)) depth) (display : List k.Tree → Expr) :
    Sound (closeItems input b opened item display).read
      (fun ts e n => ∃ us xs, ts = us ++ [.symbol (.closing b)] ∧ e = display xs ∧
        Derives (.places k) us xs n) depth := by
  intro ts e rest h
  simp only [closeItems] at h
  obtain ⟨⟨xs, after⟩, hs, h⟩ := bind_eq_ok.mp h
  obtain ⟨last, hc, heq⟩ := map_eq_ok.mp h
  cases heq
  obtain ⟨used, n, rfl, hn, hxs⟩ := separated_sound hi (some b) hs
  obtain ⟨span, rfl⟩ := close_sound hc
  exact ⟨used ++ [⟨.symbol (.closing b), span⟩], n, by simp, hn,
    tokens used, xs, by simp, rfl, hxs⟩

/-- What may follow a first item of the form `us`: with it, the items of a
    display. -/
theorem moreItems_sound {k : Place} {opened : Span} {item : Reader k.Tree} {us : List Token}
    {x : k.Tree} {m : Nat} (hi : Sound item.read (Derives (.place k)) depth)
    (hx : Derives (.place k) us x m) (hm : m ≤ depth) (display : List k.Tree → Expr) :
    Sound (moreItems input opened item display).read
      (fun ts e n => ∃ vs xs, us ++ ts = vs ++ [.symbol (.closing .curly)] ∧ e = display xs ∧
        Derives (.places k) vs (x :: xs) n) depth := by
  intro ts e rest h
  simp only [moreItems] at h
  split at h
  · next after he =>
    obtain ⟨span, rfl⟩ := eat_eq_some_iff.mp he
    obtain ⟨used, n, rfl, hn, vs, xs, hvs, rfl, hxs⟩ := closeItems_sound hi display h
    refine ⟨⟨.symbol .comma, span⟩ :: used, max m n, rfl, by omega,
      us ++ .symbol .comma :: vs, xs, ?_, rfl, .more hx hxs⟩
    rw [tokens_cons, hvs, List.append_assoc]
    rfl
  · obtain ⟨last, hc, heq⟩ := map_eq_ok.mp h
    cases heq
    obtain ⟨span, rfl⟩ := close_sound hc
    exact ⟨[⟨.symbol (.closing .curly), span⟩], m, rfl, hm, us, [], rfl, rfl, .last hx⟩

theorem afterCurly_sound (hd : ∀ which, Sound (deeper which).read (Opens which) depth)
    (opened : Span) : SoundAfter .curly (afterCurly input deeper opened) depth := by
  intro ts e rest h
  simp only [afterCurly] at h
  split at h
  · next he =>
    cases h
    obtain ⟨span, rfl⟩ := eat_eq_some_iff.mp he
    exact ⟨[⟨.symbol (.closing .curly), span⟩], 0, rfl, Nat.zero_le _, .dict .none⟩
  · split at h
    · obtain ⟨used, n, rfl, hn, us, xs, hus, rfl, hxs⟩ :=
        closeItems_sound (k := .entry) (entry_sound hd) .dict h
      refine ⟨used, n, rfl, hn, ?_⟩
      rw [hus]
      exact .dict hxs
    · obtain ⟨⟨first, after⟩, hf, hrest⟩ := bind_eq_ok.mp h
      obtain ⟨us, m, rfl, hm, hx⟩ := element_sound hd hf
      dsimp only at hrest
      split at hrest
      · -- an item and a colon: the first entry of a dict
        next key tail hc =>
        obtain ⟨span, rfl⟩ := eat_eq_some_iff.mp hc
        obtain ⟨⟨value, last⟩, hv, hmore⟩ := bind_eq_ok.mp hrest
        obtain ⟨ws, l, rfl, hl, hvalue⟩ := hd .expression hv
        cases hvalue with
        | expression hvalue =>
          obtain ⟨used, n, rfl, hn, vs, xs, hvs, rfl, hxs⟩ :=
            moreItems_sound (k := .entry) (entry_sound hd) (.pair (derives_item hx) hvalue)
              (by omega) (fun more => .dict (.pair key value :: more)) hmore
          refine ⟨us ++ ⟨.symbol .colon, span⟩ :: ws ++ used, n, by simp, hn, ?_⟩
          rw [tokens_append, tokens_append, tokens_cons, hvs]
          exact .dict hxs
      · -- otherwise the first element of a set
        obtain ⟨used, n, rfl, hn, vs, xs, hvs, rfl, hxs⟩ :=
          moreItems_sound (k := .element) (element_sound hd) hx hm _ hrest
        refine ⟨us ++ used, n, by simp, hn, ?_⟩
        rw [tokens_append, hvs]
        exact .set hxs

/-! ## Atoms and powers -/

theorem moreStrings_sound (ts : List Lexeme) :
    ∃ used ss, ts = used ++ (moreStrings ts).2 ∧ tokens used = ss.map .str ∧
      (moreStrings ts).1 = String.join ss := by
  induction ts with
  | nil => exact ⟨[], [], rfl, rfl, rfl⟩
  | cons l ts ih =>
    obtain ⟨token, span⟩ := l
    cases token with
    | str s =>
      obtain ⟨used, ss, hts, hused, hjoin⟩ := ih
      refine ⟨⟨.str s, span⟩ :: used, s :: ss, ?_, by simp [hused], ?_⟩
      · simp only [moreStrings, List.cons_append, ← hts]
      · simp only [moreStrings, hjoin, String.join_cons]
    | _ => exact ⟨[], [], rfl, rfl, rfl⟩

theorem atom_sound (hd : ∀ which, Sound (deeper which).read (Opens which) depth) :
    Sound (atom input deeper).read (Derives .atom) depth := by
  intro ts e rest h
  cases ts with
  | nil => cases h
  | cons l ts =>
    obtain ⟨token, span⟩ := l
    have one {t : Token} {e : Expr} (ht : Derives .atom [t] e 0) :
        ∃ used n, ⟨t, span⟩ :: ts = used ++ ts ∧ n ≤ depth ∧ Derives .atom (tokens used) e n :=
      ⟨[⟨t, span⟩], 0, rfl, Nat.zero_le _, ht⟩
    cases token with
    | int n => cases h; exact one (.int n)
    | float x => cases h; exact one (.float x)
    | bool b => cases h; exact one (.bool b)
    | null => cases h; exact one .null
    | str s =>
      cases h
      obtain ⟨used, ss, hts, hused, hjoin⟩ := moreStrings_sound ts
      refine ⟨⟨.str s, span⟩ :: used, 0, ?_, Nat.zero_le _, ?_⟩
      · rw [List.cons_append, ← hts]
      · rw [hjoin, tokens_cons, hused, ← String.join_cons]
        exact .strings s ss
    | name _ | comparison _ | eof => cases h
    | symbol s =>
      cases s with
      | opening b =>
        cases b with
        | round =>
          obtain ⟨used, n, rfl, hn, ha⟩ := afterRound_sound hd span h
          exact ⟨⟨.symbol (.opening .round), span⟩ :: used, n, rfl, hn, ha⟩
        | square =>
          obtain ⟨used, n, rfl, hn, us, xs, hus, rfl, hxs⟩ :=
            closeItems_sound (k := .element) (element_sound hd) .list h
          refine ⟨⟨.symbol (.opening .square), span⟩ :: used, n, rfl, hn, ?_⟩
          rw [tokens_cons, hus]
          exact .square hxs
        | curly =>
          obtain ⟨used, n, rfl, hn, ha⟩ := afterCurly_sound hd span h
          exact ⟨⟨.symbol (.opening .curly), span⟩ :: used, n, rfl, hn, ha⟩
      | _ => cases h

theorem power_sound (hd : ∀ which, Sound (deeper which).read (Opens which) depth) :
    Sound (power input deeper).read (Derives .power) depth := by
  intro ts e rest h
  simp only [power] at h
  obtain ⟨⟨base, after⟩, hb, hrest⟩ := bind_eq_ok.mp h
  obtain ⟨used, n, rfl, hn, hbase⟩ := atom_sound hd hb
  dsimp only at hrest
  split at hrest
  · cases hrest
    exact ⟨used, n, rfl, hn, .base hbase⟩
  · next tail he =>
    obtain ⟨span, rfl⟩ := eat_eq_some_iff.mp he
    obtain ⟨exponent, hr, rfl⟩ := building_eq_ok.mp hrest
    obtain ⟨more, m, rfl, hm, hx⟩ := hd .unary hr
    cases hx with
    | unary hx =>
      refine ⟨used ++ ⟨.symbol .doubleStar, span⟩ :: more, _, by simp, Nat.max_le.mpr ⟨hn, hm⟩, ?_⟩
      rw [tokens_append]
      exact .raised hbase hx

theorem unary_sound (hd : ∀ which, Sound (deeper which).read (Opens which) depth) :
    Sound (unary input deeper).read (Derives .unary) depth := by
  intro ts e rest h
  simp only [unary] at h
  split at h
  · obtain ⟨used, n, rfl, hn, hx⟩ := power_sound hd h
    exact ⟨used, n, rfl, hn, .unsigned hx⟩
  · next op hop =>
    obtain ⟨s, hs, hsigns⟩ := prefixOp?_eq_some_iff.mp hop
    cases ts with
    | nil => cases hs
    | cons l ts =>
      obtain ⟨token, span⟩ := l
      obtain rfl : token = .symbol s := hs
      obtain ⟨x, hr, rfl⟩ := building_eq_ok.mp h
      obtain ⟨used, n, hts, hn, hx⟩ := hd .unary hr
      obtain rfl : ts = used ++ rest := hts
      cases hx with
      | unary hx => exact ⟨⟨.symbol s, span⟩ :: used, _, rfl, hn, .signed hsigns hx⟩

/-! ## Binary operators -/

/-- The rounds of a level add operands to a left operand of that level. -/
theorem joined_sound {level : Nat} (h : level < levels.length) {reader : Reader Expr}
    (hr : Sound reader.read (Derives (.joined (level + 1))) depth) {left : Expr}
    {us : List Token} {m : Nat} (hl : Derives (.joined level) us left m) (hm : m ≤ depth) :
    Sound (joined reader levels[level] left)
      (fun ts e n => Derives (.joined level) (us ++ ts) e n) depth := by
  intro ts e rest hj
  fun_induction joined reader levels[level] left ts generalizing us m e rest with
  | case1 left =>
    cases hj
    exact ⟨[], m, rfl, hm, by simpa using hl⟩
  | case2 left l ts hop =>
    cases hj
    exact ⟨[], m, rfl, hm, by simpa using hl⟩
  | case3 left l ts op hop err he => cases hj
  | case4 left l ts op hop right after he _ ih =>
    obtain ⟨token, span⟩ := l
    obtain ⟨s, hs, hjoins⟩ := (op?_eq_some_iff h).mp hop
    obtain rfl : token = .symbol s := hs
    obtain ⟨used, n, rfl, hn, hright⟩ := hr he
    obtain ⟨more, l, rfl, hl', hx⟩ := ih (.join hl hjoins hright) (by omega) hj
    refine ⟨⟨.symbol s, span⟩ :: used ++ more, l, by simp, hl', ?_⟩
    simpa using hx

theorem operandFrom_sound (hd : ∀ which, Sound (deeper which).read (Opens which) depth)
    {level : Nat} (hlevel : level ≤ levels.length) :
    Sound (operandFrom input deeper level).read (Derives (.joined level)) depth := by
  -- from the tightest level, where an operand is a unary expression
  obtain ⟨more, hmore⟩ := Nat.exists_eq_add_of_le hlevel
  induction more generalizing level with
  | zero =>
    intro ts e rest h
    rw [operandFrom_of_le (by omega)] at h
    obtain ⟨used, n, rfl, hn, hx⟩ := unary_sound hd h
    obtain rfl : 6 = level := hmore
    exact ⟨used, n, rfl, hn, .unjoined hx⟩
  | succ more ih =>
    have hlt : level < levels.length := by omega
    have ih : Sound (operandFrom input deeper (level + 1)).read (Derives (.joined (level + 1)))
        depth := ih hlt (by omega)
    intro ts e rest h
    rw [operandFrom_of_lt hlt] at h
    simp only [chain] at h
    obtain ⟨⟨left, after⟩, hl, hj⟩ := bind_eq_ok.mp h
    obtain ⟨used, n, rfl, hn, hx⟩ := ih hl
    obtain ⟨more, m, rfl, hm, hxs⟩ := joined_sound hlt ih (.tighter hx) hn hj
    refine ⟨used ++ more, m, by simp, hm, ?_⟩
    rw [tokens_append]
    exact hxs

/-! ## Levels of nesting -/

theorem rule_sound (hd : ∀ which, Sound (deeper which).read (Opens which) depth) (which : Nested) :
    Sound (rule input deeper which).read (Opens which) (depth + 1) := by
  intro ts e rest h
  cases which with
  | expression =>
    simp only [rule, expression] at h
    split at h
    · obtain ⟨used, n, rfl, hn, hx⟩ := operandFrom_sound hd (Nat.zero_le _) h
      exact ⟨used, n + 1, rfl, by omega, .expression (.operand hx)⟩
    · next after he =>
      obtain ⟨span, rfl⟩ := eat_eq_some_iff.mp he
      obtain ⟨x, hr, rfl⟩ := building_eq_ok.mp h
      obtain ⟨used, n, rfl, hn, hx⟩ := hd .expression hr
      cases hx with
      | expression hx =>
        exact ⟨⟨.symbol .not, span⟩ :: used, n + 1, rfl, by omega, .expression (.not hx)⟩
  | operand =>
    obtain ⟨used, n, rfl, hn, hx⟩ := operandFrom_sound hd (Nat.zero_le _) h
    exact ⟨used, n + 1, rfl, by omega, .operand hx⟩
  | unary =>
    obtain ⟨used, n, rfl, hn, hx⟩ := unary_sound hd h
    exact ⟨used, n + 1, rfl, by omega, .unary hx⟩

end Rules

theorem within_sound (input : Input) (depth : Nat) (which : Nested) :
    Sound (within input depth which).read (Opens which) depth := by
  induction depth generalizing which with
  | zero =>
    intro ts e rest h
    cases h
  | succ depth ih => exact rule_sound ih which

/-- Every reader takes tokens that form its phrase, within the depth. -/
theorem read_sound (input : Input) (depth : Nat) (stop : Option Bracket) (p : Phrase)
    (hp : ∀ level, p = .joined level → level ≤ levels.length) :
    Sound (p.read input depth stop) (Derives p) depth := by
  have hd := within_sound input depth
  cases p with
  | list => exact expressionList_sound hd stop
  | expression =>
    intro ts e rest h
    obtain ⟨used, n, rfl, hn, hx⟩ := hd .expression h
    cases hx with
    | expression hx => exact ⟨used, n, rfl, hn, hx⟩
  | joined level => exact operandFrom_sound hd (hp level rfl)
  | unary => exact unary_sound hd
  | power => exact power_sound hd
  | atom => exact atom_sound hd
  | place k => exact place_sound hd k
  | places k => exact separated_sound (place_sound hd k) stop

end Calculator.Grammar
