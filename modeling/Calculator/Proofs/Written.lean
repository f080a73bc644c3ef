import Calculator.Limits
import Calculator.Proofs.Grammar.Completeness
import Calculator.Proofs.Token.Escape
import Calculator.Proofs.Value.Key

/-
  A value is written in the language it comes from. What may be written and
  read back is `Rereadable`: sets and dicts as insertion builds them, no empty
  set, no number without a literal. The text of such a value gives the tokens of
  an expression that evaluates to it, by induction on the value.

  What is proved: `calculate_repr` — the text of a rereadable value, if it is
  within the limits, has that value.
-/

namespace Calculator

open Grammar

/-! ## Values that can be read back -/

/-- The text of a magnitude is a single token with that magnitude. -/
def ReadsBack (a : Magnitude) : Prop :=
  let text := Binary64.text (.signed false a)
  tokenizeFrom 0 text =
    .ok [⟨.float (.signed false a), ⟨0, byteLength text⟩⟩, ⟨.eof, .point (byteLength text)⟩]

inductive Rereadable : Value → Prop where
  | null : Rereadable .null
  | bool (b : Bool) : Rereadable (.bool b)
  | int {n : Int64} : n ≠ Int64.minValue → Rereadable (.int n)
  | float (negative : Bool) {a : Magnitude} :
    a.isFinite = true → ReadsBack a → Rereadable (.float (.signed negative a))
  | str (s : String) : Rereadable (.str s)
  | list {items : List Value} : (∀ x ∈ items, Rereadable x) → Rereadable (.list items)
  | tuple {items : List Value} : (∀ x ∈ items, Rereadable x) → Rereadable (.tuple items)
  | set {items : List Value} :
    items ≠ [] → Value.Keys items → (∀ x ∈ items, Rereadable x) → Rereadable (.set items)
  | dict {entries : List (Value × Value)} :
    Value.Keys (entries.map (·.1)) → (∀ e ∈ entries, Rereadable e.1) →
    (∀ e ∈ entries, Rereadable e.2) → Rereadable (.dict entries)

mutual

/-- The depth of nested containers, the value itself among them. -/
def Value.nesting : Value → Nat
  | .list items | .tuple items | .set items => nestingOf items + 1
  | .dict entries => nestingOfEntries entries + 1
  | _ => 0

def Value.nestingOf : List Value → Nat
  | [] => 0
  | x :: xs => max (nesting x) (nestingOf xs)

def Value.nestingOfEntries : List (Value × Value) → Nat
  | [] => 0
  | (k, v) :: es => max (max (nesting k) (nesting v)) (nestingOfEntries es)

end

/-! ## Phrases of the grammar -/

theorem derives_of_unary {ts : List Token} {e : Expr} {n : Nat} (h : Derives .unary ts e n) :
    Derives .expression ts e (n + 1) :=
  .operand (derives_joined (Nat.zero_le 6) h)

theorem derives_of_atom {ts : List Token} {e : Expr} {n : Nat} (h : Derives .atom ts e n) :
    Derives .expression ts e (n + 1) :=
  derives_of_unary (.unsigned (.base h))

theorem derives_negative {ts : List Token} {e : Expr} {n : Nat} (h : Derives .atom ts e n) :
    Derives .expression (.symbol .minus :: ts) (.unary .neg e) (n + 2) :=
  derives_of_unary (.signed .neg (.unsigned (.base h)))

/-! ## Texts of containers -/

/-- Tokens separated by a sign and a blank. -/
theorem lexes_separated {c : Char} {sign : Symbol} (hc : c ∈ delimiters)
    (hsign : Lexes Anything [c] [.symbol sign]) {s u : List Char} {ts us : List Token}
    (hs : Lexes Delimited s ts) (hu : Lexes Delimited u us) :
    Lexes Delimited (s ++ [c, ' '] ++ u) (ts ++ .symbol sign :: us) := by
  have hblank : Lexes Anything ([c] ++ [' ']) ([.symbol sign] ++ []) :=
    lexes_append hsign (lexes_blank rfl) fun _ _ => trivial
  have hleft : Lexes Anything (s ++ [c, ' ']) (ts ++ [.symbol sign]) :=
    lexes_append hs hblank fun rest _ d hd => by
      cases hd
      exact hc
  have hall := lexes_append hleft hu fun _ _ => trivial
  simpa using hall

theorem lexes_comma {s u : List Char} {ts us : List Token} (hs : Lexes Delimited s ts)
    (hu : Lexes Delimited u us) :
    Lexes Delimited (s ++ [',', ' '] ++ u) (ts ++ .symbol .comma :: us) :=
  lexes_separated (by decide) (lexes_symbol rfl rfl) hs hu

theorem lexes_colon {s u : List Char} {ts us : List Token} (hs : Lexes Delimited s ts)
    (hu : Lexes Delimited u us) :
    Lexes Delimited (s ++ [':', ' '] ++ u) (ts ++ .symbol .colon :: us) :=
  lexes_separated (by decide) (lexes_symbol rfl rfl) hs hu

/-- Tokens between brackets. -/
theorem lexes_bracketed {o c : Char} {b : Bracket} (hc : c ∈ delimiters)
    (hopening : Lexes Anything [o] [.symbol (.opening b)])
    (hclosing : Lexes Anything [c] [.symbol (.closing b)]) {s : List Char} {ts : List Token}
    (h : Lexes Delimited s ts) :
    Lexes Delimited (o :: s ++ [c]) (.symbol (.opening b) :: ts ++ [.symbol (.closing b)]) := by
  have hinside := lexes_append hopening h fun _ _ => trivial
  refine lexes_append hinside (lexes_weaken hclosing) fun rest _ d hd => ?_
  cases hd
  exact hc

section Brackets

variable {s : List Char} {ts : List Token} (h : Lexes Delimited s ts)

include h

theorem lexes_round : Lexes Delimited ('(' :: s ++ [')'])
    (.symbol (.opening .round) :: ts ++ [.symbol (.closing .round)]) :=
  lexes_bracketed (by decide) (lexes_symbol rfl rfl) (lexes_symbol rfl rfl) h

theorem lexes_square : Lexes Delimited ('[' :: s ++ [']'])
    (.symbol (.opening .square) :: ts ++ [.symbol (.closing .square)]) :=
  lexes_bracketed (by decide) (lexes_symbol rfl rfl) (lexes_symbol rfl rfl) h

theorem lexes_curly : Lexes Delimited ('\x7b' :: s ++ ['\x7d'])
    (.symbol (.opening .curly) :: ts ++ [.symbol (.closing .curly)]) :=
  lexes_bracketed (by decide) (lexes_symbol rfl rfl) (lexes_symbol rfl rfl) h

end Brackets

/-! ## Scalars -/

/-- The text of the value gives the tokens of an expression with that value. -/
def Reads (v : Value) : Prop :=
  ∃ ts e n, Lexes Delimited v.written ts ∧ Derives .expression ts e n ∧ n ≤ v.nesting + 2 ∧
    evaluate e = .ok v

theorem reads_atom {v : Value} {ts : List Token} {e : Expr} {n : Nat}
    (hlex : Lexes Delimited v.written ts) (h : Derives .atom ts e n) (hn : n ≤ v.nesting + 1)
    (hv : evaluate e = .ok v) : Reads v :=
  ⟨ts, e, n + 1, hlex, derives_of_atom h, by omega, hv⟩

theorem lexes_minus : Lexes Anything ['-'] [.symbol .minus] := lexes_symbol rfl rfl

theorem lexes_null : Lexes Delimited Value.null.written [.null] := by
  show Lexes Delimited ['N', 'o', 'n', 'e'] _
  exact lexes_of_longest rfl rfl rfl (by simp)

theorem reads_null : Reads .null := reads_atom lexes_null .null (Nat.zero_le _) rfl

theorem lexes_bool (b : Bool) : Lexes Delimited (Value.bool b).written [.bool b] := by
  cases b with
  | true =>
    show Lexes Delimited ['T', 'r', 'u', 'e'] _
    exact lexes_of_longest rfl rfl rfl (by simp)
  | false =>
    show Lexes Delimited ['F', 'a', 'l', 's', 'e'] _
    exact lexes_of_longest rfl rfl rfl (by simp)

theorem reads_bool (b : Bool) : Reads (.bool b) :=
  reads_atom (lexes_bool b) (.bool b) (Nat.zero_le _) rfl

theorem lexes_int {n : Int64} (h : 0 ≤ n.toInt) :
    Lexes Delimited (Value.int n).written [.int n] := by
  have hwritten : (Value.int n).written = Nat.toDigits 10 n.toInt.natAbs := by
    rw [Value.written, decimalInt, if_neg (by omega), List.nil_append]
  rw [hwritten]
  exact lexes_natural (by omega)

/-- The opposite of every integer but the least fits. -/
theorem exists_natAbs {n : Int64} (h : n ≠ Int64.minValue) :
    ∃ i : Int64, i.toInt = n.toInt.natAbs := by
  have hmin : n.toInt ≠ Int64.minValue.toInt := mt Int64.toInt_inj.mp h
  have hlow := Int64.minValue_le_toInt n
  have hhigh := Int64.toInt_le n
  cases hc : checked n.toInt.natAbs with
  | some i => exact ⟨i, checked_eq_some_iff.mp hc⟩
  | none =>
    rw [checked_eq_none_iff] at hc
    rw [Int64.toInt_minValue, Int64.toInt_maxValue] at *
    omega

theorem evaluate_opposite {n i : Int64} (hi : i.toInt = -n.toInt) :
    evaluate (.unary .neg (.literal (.int i))) = .ok (.int n) := by
  have hback : checked (-i.toInt) = some n := by
    rw [checked_eq_some_iff]
    omega
  show UnaryOp.neg.apply (.int i) = .ok (.int n)
  simp [UnaryOp.apply, Value.number?, Value.int?, hback]

theorem reads_int {n : Int64} (h : n ≠ Int64.minValue) : Reads (.int n) := by
  by_cases hneg : n.toInt < 0
  · -- the digits are those of the opposite, which fits
    obtain ⟨i, hi⟩ := exists_natAbs h
    have hwritten : (Value.int n).written = ['-'] ++ Nat.toDigits 10 n.toInt.natAbs := by
      rw [Value.written, decimalInt, if_pos hneg]
    refine ⟨_, _, 2, ?_, derives_negative (.int i), Nat.le_refl 2, evaluate_opposite (by omega)⟩
    rw [hwritten]
    exact lexes_append lexes_minus (lexes_natural hi) fun _ _ => trivial
  · exact reads_atom (lexes_int (by omega)) (.int n) (Nat.zero_le _) rfl

theorem reads_float (negative : Bool) {a : Magnitude} (h : ReadsBack a) :
    Reads (.float (.signed negative a)) := by
  have hlex : Lexes Delimited (Value.float (.signed false a)).written [.float (.signed false a)] :=
    lexes_of_alone (by simp) h
  cases negative with
  | false => exact reads_atom hlex (.float _) (Nat.zero_le _) rfl
  | true =>
    refine ⟨_, _, 2, ?_, derives_negative (.float (.signed false a)), Nat.le_refl 2, rfl⟩
    exact lexes_append lexes_minus hlex fun _ _ => trivial

theorem lexes_str (s : String) : Lexes Delimited (Value.str s).written [.str s] := by
  have hquoted := lexes_quoted s.toList
  rw [String.ofList_toList] at hquoted
  exact lexes_weaken hquoted

theorem reads_str (s : String) : Reads (.str s) := by
  refine reads_atom (lexes_str s) (.strings s []) (Nat.zero_le _) ?_
  simp [evaluate]

/-! ## Containers -/

/-- Values separated by commas are the elements of a display. -/
theorem reads_items {items : List Value} (h : ∀ x ∈ items, Reads x) :
    ∃ ts xs n, Lexes Delimited (Value.writtenItems items) ts ∧ Derives (.places .element) ts xs n ∧
      n ≤ Value.nestingOf items + 2 ∧ evaluateElements xs = .ok items := by
  induction items with
  | nil => exact ⟨[], [], 0, lexes_nil Delimited, .none, Nat.zero_le _, rfl⟩
  | cons x xs ih =>
    obtain ⟨ts, e, n, hlex, hderives, hn, hv⟩ := h x (List.mem_cons_self ..)
    cases xs with
    | nil =>
      refine ⟨ts, [.item e], n, ?_, .last (.item hderives), ?_, ?_⟩
      · rwa [Value.writtenItems]
      · rw [Value.nestingOf]
        omega
      · rw [evaluateElements, hv]
        rfl
    | cons y ys =>
      obtain ⟨us, es, m, hlexes, hplaces, hm, hvs⟩ :=
        ih fun z hz => h z (List.mem_cons_of_mem x hz)
      refine ⟨_, _, _, ?_, .more (.item hderives) hplaces, ?_, ?_⟩
      · rw [Value.writtenItems]
        exact lexes_comma hlex hlexes
      · rw [Value.nestingOf]
        omega
      · rw [evaluateElements, hv, hvs]
        rfl

theorem reads_list {items : List Value} (h : ∀ x ∈ items, Reads x) : Reads (.list items) := by
  obtain ⟨ts, xs, n, hlex, hderives, hn, hvs⟩ := reads_items h
  refine reads_atom ?_ (.square hderives) (by rw [Value.nesting]; omega) ?_
  · rw [Value.written]
    exact lexes_square hlex
  · rw [evaluate, hvs]
    rfl

theorem reads_set {items : List Value} (hne : items ≠ []) (hkeys : Value.Keys items)
    (h : ∀ x ∈ items, Reads x) : Reads (.set items) := by
  obtain ⟨ts, xs, n, hlex, hderives, hn, hvs⟩ := reads_items h
  cases xs with
  | nil =>
    cases hvs
    exact absurd rfl hne
  | cons x xs =>
    refine reads_atom ?_ (.set hderives) (by rw [Value.nesting]; omega) ?_
    · rw [Value.written, if_neg (by simpa using hne)]
      exact lexes_curly hlex
    · rw [evaluate, hvs]
      exact Value.setOf_keys hkeys

/-- A tuple has a comma after its first element, also when that is the only
    one. -/
theorem reads_tuple {items : List Value} (h : ∀ x ∈ items, Reads x) : Reads (.tuple items) := by
  cases items with
  | nil =>
    refine reads_atom ?_ .emptyTuple (Nat.zero_le _) rfl
    exact lexes_round (lexes_nil Delimited)
  | cons x xs =>
    obtain ⟨ts, e, n, hlex, hderives, hn, hv⟩ := h x (List.mem_cons_self ..)
    cases xs with
    | nil =>
      have hcomma : Lexes Delimited ((Value.written x) ++ [',']) (ts ++ [.symbol .comma]) := by
        refine lexes_append hlex (lexes_weaken (lexes_symbol rfl rfl)) fun rest _ d hd => ?_
        cases hd
        decide
      refine reads_atom ?_ (.round (.bareTuple (.item hderives) .none)) ?_ ?_
      · have hall := lexes_round hcomma
        simpa [Value.written, Value.writtenItems] using hall
      · rw [Value.nesting, Value.nestingOf]
        omega
      · rw [evaluate, evaluateElements, hv]
        rfl
    | cons y ys =>
      obtain ⟨us, es, m, hlexes, hplaces, hm, hvs⟩ :=
        reads_items fun z hz => h z (List.mem_cons_of_mem x hz)
      refine reads_atom ?_ (.round (.bareTuple (.item hderives) hplaces)) ?_ ?_
      · have hall := lexes_round (lexes_comma hlex hlexes)
        simpa [Value.written, Value.writtenItems] using hall
      · rw [Value.nesting, Value.nestingOf]
        omega
      · rw [evaluate, evaluateElements, hv, hvs]
        rfl

/-- Keys and values separated by colons and commas are the entries of a dict
    display. -/
theorem reads_entries {entries : List (Value × Value)} (hkey : ∀ e ∈ entries, Reads e.1)
    (hvalue : ∀ e ∈ entries, Reads e.2) :
    ∃ ts xs n, Lexes Delimited (Value.writtenEntries entries) ts ∧
      Derives (.places .entry) ts xs n ∧ n ≤ Value.nestingOfEntries entries + 2 ∧
      ∀ done, Value.Keys ((done ++ entries).map (·.1)) →
        evaluateEntries xs done = .ok (done ++ entries) := by
  induction entries with
  | nil =>
    refine ⟨[], [], 0, lexes_nil Delimited, .none, Nat.zero_le _, fun done _ => ?_⟩
    rw [evaluateEntries, List.append_nil]
  | cons entry es ih =>
    obtain ⟨k, v⟩ := entry
    obtain ⟨ks, ke, n, hklex, hkderives, hn, hk⟩ := hkey _ (List.mem_cons_self ..)
    obtain ⟨vs, ve, m, hvlex, hvderives, hm, hv⟩ := hvalue _ (List.mem_cons_self ..)
    dsimp only at hn hm
    have hpair := Derives.pair hkderives hvderives
    have hlex := lexes_colon hklex hvlex
    -- the key is new, so the entry goes to the end
    have hinsert (done : List (Value × Value)) (hkeys : Value.Keys ((done ++ (k, v) :: es).map (·.1))) :
        Value.insertEntry done (k, v) = .ok (done ++ [(k, v)]) := by
      rw [List.map_append, List.map_cons] at hkeys
      obtain ⟨hhash, hnew⟩ := Value.keys_append_cons hkeys
      exact Value.insertEntry_new hhash hnew
    cases es with
    | nil =>
      refine ⟨_, [.pair ke ve], _, ?_, .last hpair, ?_, fun done hkeys => ?_⟩
      · rw [Value.writtenEntries]
        exact hlex
      · rw [Value.nestingOfEntries]
        omega
      · rw [evaluateEntries, hk, ok_bind, hv, ok_bind, hinsert done hkeys]
        rfl
    | cons e' es =>
      obtain ⟨us, xs, l, hlexes, hplaces, hl, hvs⟩ :=
        ih (fun e he => hkey e (List.mem_cons_of_mem _ he))
          (fun e he => hvalue e (List.mem_cons_of_mem _ he))
      refine ⟨_, .pair ke ve :: xs, _, ?_, .more hpair hplaces, ?_, fun done hkeys => ?_⟩
      · rw [Value.writtenEntries]
        exact lexes_comma hlex hlexes
      · rw [Value.nestingOfEntries]
        omega
      · rw [evaluateEntries, hk, ok_bind, hv, ok_bind, hinsert done hkeys, ok_bind]
        have hmove : done ++ (k, v) :: e' :: es = done ++ [(k, v)] ++ e' :: es :=
          List.append_cons ..
        rw [hmove] at hkeys ⊢
        exact hvs _ hkeys

theorem reads_dict {entries : List (Value × Value)} (hkeys : Value.Keys (entries.map (·.1)))
    (hkey : ∀ e ∈ entries, Reads e.1) (hvalue : ∀ e ∈ entries, Reads e.2) :
    Reads (.dict entries) := by
  obtain ⟨ts, xs, n, hlex, hderives, hn, hvs⟩ := reads_entries hkey hvalue
  refine reads_atom ?_ (.dict hderives) (by rw [Value.nesting]; omega) ?_
  · rw [Value.written]
    exact lexes_curly hlex
  · rw [evaluate, hvs [] (by rwa [List.nil_append])]
    rfl

/-! ## The whole text -/

theorem reads_of_rereadable {v : Value} (h : Rereadable v) : Reads v := by
  induction h with
  | null => exact reads_null
  | bool b => exact reads_bool b
  | int hn => exact reads_int hn
  | float negative _ hback => exact reads_float negative hback
  | str s => exact reads_str s
  | list _ ih => exact reads_list ih
  | tuple _ ih => exact reads_tuple ih
  | set hne hkeys _ ih => exact reads_set hne hkeys ih
  | dict hkeys _ _ ihkey ihvalue => exact reads_dict hkeys ihkey ihvalue

/-- The tokens of a text, with the end of input after them. -/
theorem tokenize_of_lexes {s : List Char} {ts : List Token} (h : Lexes Delimited s ts) :
    ∃ ls span, tokenize (String.ofList s) = .ok (ls ++ [⟨.eof, span⟩]) ∧ tokens ls = ts ∧
      ∀ l ∈ ls, l.token ≠ .eof := by
  obtain ⟨ls, hls, htok⟩ := h 0 [] nofun
  rw [List.append_nil, tokenizeFrom] at htok
  obtain ⟨body, hbody, hne⟩ := tokenizeFrom_end htok
  obtain ⟨rfl, _⟩ := List.append_inj' hbody rfl
  refine ⟨ls, .point (0 + byteLength s), ?_, hls, hne⟩
  rw [tokenize, String.toList_ofList]
  exact htok

/-- A text of the tokens of an expression has that expression in any limits that both
    keep. -/
theorem ofText_of_lexes {limits : Limits} {s : List Char} {ts : List Token} {e : Expr} {n : Nat}
    (hlex : Lexes Delimited s ts) (hderives : Derives .expression ts e n)
    (hn : n ≤ limits.maxDepth) (hlen : byteLength s ≤ limits.maxInputLen) :
    Expr.ofText limits (String.ofList s) = .ok e := by
  obtain ⟨ls, span, htok, hls, hne⟩ := tokenize_of_lexes hlex
  have hsize : (String.ofList s).utf8ByteSize = byteLength s := by
    rw [← byteLength_toList, String.toList_ofList]
  refine ofText_eq_ok_iff.mpr ⟨Nat.le_trans (Nat.le_of_eq hsize) hlen, _, htok, ?_⟩
  rw [parse_eq_ok_iff, takeWhile_end hne, hls]
  exact ⟨n, hn, .lone (.item hderives)⟩

/-- A value is what its text evaluates to, in any limits that the text and the
    nesting of the value keep. -/
theorem calculate_repr {limits : Limits} {v : Value} (h : Rereadable v)
    (hlen : v.repr.utf8ByteSize ≤ limits.maxInputLen)
    (hdepth : v.nesting + 2 ≤ limits.maxDepth) : calculate limits v.repr = .ok v := by
  obtain ⟨ts, e, n, hlex, hderives, hn, hv⟩ := reads_of_rereadable h
  obtain ⟨ls, span, htok, hls, hne⟩ := tokenize_of_lexes hlex
  have hparse : parse (ls ++ [⟨.eof, span⟩]) limits.maxDepth = .ok e := by
    rw [parse_eq_ok_iff, takeWhile_end hne, hls]
    exact ⟨n, by omega, .lone (.item hderives)⟩
  have htokrepr : tokenize v.repr = .ok (ls ++ [⟨.eof, span⟩]) := htok
  simp [calculate, Expr.ofText, Nat.not_lt.mpr hlen, htokrepr, hparse, hv]

/-- One half, `0.5`. -/
def oneHalf : Magnitude := ⟨0x3fe0000000000000, by decide⟩

theorem readsBack_oneHalf : ReadsBack oneHalf := by
  have htext : Binary64.text (.signed false oneHalf) = ['0', '.', '5'] := by decide +kernel
  have hvalue : (decimalOfText ['0', '.', '5']).toMagnitude = oneHalf := by decide +kernel
  have hread : readFloat ['0', '.', '5'] = .ok (.float (.signed false oneHalf)) :=
    congrArg (fun a => Except.ok (Token.float (.signed false a))) hvalue
  have hlongest : Pattern.longest rules (['0', '.', '5'] ++ []) = some (3, readFloat) := rfl
  have hdigit : ∀ c ∈ ['0', '.', '5'].head?, isBlank c = false := by
    intro c hc
    cases hc
    rfl
  have htok := tokenizeFrom_append hlongest hdigit hread 0
  rw [tokenizeFrom] at htok
  unfold ReadsBack
  rw [htext]
  exact htok

/-- A dict of a text with both quotes, and of a set that is no key. -/
theorem calculate_repr_nested :
    let v : Value := .dict [(.str "it's \"", .set [.int (-1), .null]),
      (.tuple [.float (.signed true oneHalf)], .list [])]
    calculate {} v.repr = .ok v := by
  have hset : Rereadable (.set [.int (-1), .null]) := by
    refine .set (by simp) ⟨by decide, by decide⟩ ?_
    intro x hx
    simp only [List.mem_cons, List.not_mem_nil, or_false] at hx
    rcases hx with rfl | rfl
    · exact .int (by decide)
    · exact .null
  have htuple : Rereadable (.tuple [.float (.signed true oneHalf)]) := by
    refine .tuple ?_
    intro x hx
    rw [List.mem_singleton.mp hx]
    exact .float true rfl readsBack_oneHalf
  refine calculate_repr (.dict ⟨by decide, by decide⟩ ?_ ?_) (by decide +kernel) (by decide)
  · intro e he
    simp only [List.mem_cons, List.not_mem_nil, or_false] at he
    rcases he with rfl | rfl
    · exact .str _
    · exact htuple
  · intro e he
    simp only [List.mem_cons, List.not_mem_nil, or_false] at he
    rcases he with rfl | rfl
    · exact hset
    · exact .list nofun

end Calculator
