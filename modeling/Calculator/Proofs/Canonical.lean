import Calculator.Proofs.Grammar.Trees
import Calculator.Proofs.Token.Tiling
import Calculator.Proofs.Written

/-
  The expressions that texts stand for. A literal in a text is `None`, a truth
  value, a text or a number without a sign, and braces with nothing in them are
  a dict. Nothing else limits what can be written: an operand may be any
  expression, in parentheses.

  What is proved:
    1. `built_of_ofText` — the expression of a text has such literals and no
       empty set display, because no integer token is negative
       (`gives_of_tokenize`) and the grammar makes no literals of its own.
    2. `text_of_canonical` — the text of such an expression, with the symbols of
       its operators and parentheses around their operands, is read as it; one
       lemma `text_…` for each form.
    3. `ofText_range` — so these expressions are those that texts stand for.
-/

namespace Calculator

open Grammar

/-! ## Canonical expressions -/

/-- `None`, truth values, texts and integers that are not negative. -/
def Value.isPlain : Value → Bool
  | .null | .bool _ | .str _ => true
  | .int n => 0 ≤ n.toInt
  | _ => false

def Value.isFloat : Value → Bool
  | .float _ => true
  | _ => false

/-- Every literal is plain, and no set display is empty. -/
def Expr.Canonical (e : Expr) : Prop := e.Built (·.isPlain = true) (· ≠ [])

/-! ## What is parsed -/

/-- What a literal of a text can be. -/
def Value.IsLiteral (v : Value) : Prop := v.isPlain = true ∨ v.isFloat = true

theorem gives_of_rule {p : Pattern} {read : Reading} (h : (p, read) ∈ rules) {text : List Char}
    {t : Token} (hr : read text = .ok t) : t.Gives Value.IsLiteral := by
  have natural {n : Nat} (hint : intToken n = .ok t) : t.Gives Value.IsLiteral := by
    obtain ⟨i, hi, rfl⟩ := intToken_eq_ok_iff.mp hint
    have hpos : 0 ≤ i.toInt := by omega
    exact .inl (decide_eq_true hpos)
  cases form_of_mem h with
  | decimal =>
    unfold readDecimal at hr
    split at hr
    · cases hr
    · split at hr
      · cases hr
      · exact natural hr
  | radix _ radix =>
    unfold readRadix at hr
    split at hr
    · cases hr
    · exact natural hr
  | float =>
    obtain ⟨x, rfl⟩ := readFloat_float hr
    exact .inr rfl
  | string =>
    obtain ⟨u, rfl⟩ := readString_str hr
    exact fun _ => .inl rfl
  | bool | null =>
    cases hr
    exact .inl rfl
  | name | comparison | symbol =>
    cases hr
    trivial

/-- No integer token is negative: a sign is a token of its own. -/
theorem gives_of_tokenize {text : String} {ts : List Lexeme} (h : tokenize text = .ok ts) :
    ∀ t ∈ tokens ts, t.Gives Value.IsLiteral := by
  have hzero : byteLength [] = 0 := rfl
  rw [tokenize, ← hzero] at h
  obtain ⟨ls, rfl, hpasses⟩ := passes_of_ok h
  have htiles := tiles_of_passes hpasses
  rw [tokens_append, List.forall_mem_append]
  refine ⟨List.forall_mem_map.mpr fun l hl => ?_, List.forall_mem_singleton.mpr trivial⟩
  obtain ⟨_, _, _, read, _, _, hmatch, hread, _⟩ := htiles.stands l hl
  obtain ⟨p, hmem, _⟩ := rule_of_longestMatch hmatch
  exact gives_of_rule hmem hread

theorem built_of_ofText {limits : Limits} {text : String} {e : Expr}
    (h : Expr.ofText limits text = .ok e) : e.Built Value.IsLiteral (· ≠ []) := by
  obtain ⟨_, ts, htokens, hparse⟩ := ofText_eq_ok_iff.mp h
  obtain ⟨n, _, hderives⟩ := parse_eq_ok_iff.mp hparse
  refine derives_built hderives (fun t ht => ?_) e (List.mem_singleton_self e)
  obtain ⟨l, hl, rfl⟩ := List.mem_map.mp ht
  exact gives_of_tokenize htokens l.token
    (List.mem_map_of_mem ((List.takeWhile_sublist _).subset hl))

theorem canonical_of_built {e : Expr} (h : e.Built Value.IsLiteral (· ≠ []))
    (hfloat : e.Leaves (·.isFloat = false)) : e.Canonical := by
  refine (h.and hfloat).mono (fun v hv => ?_) fun _ hxs => hxs.1
  obtain ⟨hliteral, hnot⟩ := hv
  exact hliteral.resolve_right (by simp [hnot])

/-! ## Texts of expressions -/

/-- A text in parentheses. -/
def grouped (s : List Char) : List Char := '(' :: s ++ [')']

mutual

/-- An expression as a text, its operands in parentheses. -/
def Expr.written : Expr → List Char
  | .literal v => v.written
  | .unary op e => op.symbol.toList ++ ' ' :: grouped (written e)
  | .binary op l r => grouped (written l) ++ ' ' :: op.symbol.toList ++ ' ' :: grouped (written r)
  | .list xs => '[' :: writtenElements xs ++ [']']
  | .tuple xs => '(' :: writtenElements xs ++ [')']
  | .set xs => '\x7b' :: writtenElements xs ++ ['\x7d']
  | .dict xs => '\x7b' :: writtenEntries xs ++ ['\x7d']

/-- A place in a display. -/
def Expr.writtenElement : Element Expr → List Char
  | .item e => written e
  | .spread e => Spread.elements.symbol.toList ++ ' ' :: grouped (written e)

/-- Places, with a comma after each. -/
def Expr.writtenElements : List (Element Expr) → List Char
  | [] => []
  | x :: xs => writtenElement x ++ [',', ' '] ++ writtenElements xs

def Expr.writtenEntry : Entry Expr → List Char
  | .pair key value => written key ++ [':', ' '] ++ written value
  | .spread e => Spread.entries.symbol.toList ++ ' ' :: grouped (written e)

def Expr.writtenEntries : List (Entry Expr) → List Char
  | [] => []
  | x :: xs => writtenEntry x ++ [',', ' '] ++ writtenEntries xs

end

/-! ## Tokens of texts -/

theorem lexes_symbolText (s : Symbol) : Lexes Delimited s.text.toList [.symbol s] := by
  cases s with
  | opening b | closing b => cases b <;> exact lexes_of_longest rfl rfl rfl (by simp)
  | _ => exact lexes_of_longest rfl rfl rfl (by simp)

/-- Tokens with a blank between them. -/
theorem lexes_spaced {s u : List Char} {ts us : List Token} (hs : Lexes Delimited s ts)
    (hu : Lexes Delimited u us) : Lexes Delimited (s ++ ' ' :: u) (ts ++ us) := by
  have hblank := lexes_append (lexes_blank (c := ' ') rfl) hu fun _ _ => trivial
  refine lexes_append hs hblank fun rest _ d hd => ?_
  cases hd
  decide

/-- A sign between two texts, with a blank on either side of it. -/
theorem lexes_infix (sign : Symbol) {s u : List Char} {ts us : List Token}
    (hs : Lexes Delimited s ts) (hu : Lexes Delimited u us) :
    Lexes Delimited (s ++ ' ' :: sign.text.toList ++ ' ' :: u) (ts ++ .symbol sign :: us) := by
  have hlex := lexes_spaced hs (lexes_spaced (lexes_symbolText sign) hu)
  simpa using hlex

/-! ## Texts of phrases -/

/-- The text gives tokens that form the phrase with the tree. -/
def Grammar.Phrase.Text (p : Phrase) (s : List Char) (x : p.Tree) : Prop :=
  ∃ ts n, Lexes Delimited s ts ∧ Derives p ts x n

theorem text_atom {s : List Char} {e : Expr} (h : Phrase.atom.Text s e) :
    Phrase.expression.Text s e := by
  obtain ⟨ts, n, hlex, hderives⟩ := h
  exact ⟨ts, n + 1, hlex, derives_of_atom hderives⟩

theorem text_grouped {s : List Char} {e : Expr} (h : Phrase.expression.Text s e) :
    Phrase.atom.Text (grouped s) e := by
  obtain ⟨ts, n, hlex, hderives⟩ := h
  exact ⟨_, n, lexes_round hlex, .round (.lone (.item hderives))⟩

theorem symbol_of_signs {sign : Symbol} {op : UnaryOp} (h : Signs sign op) :
    op.symbol = sign.text := by
  cases h <;> rfl

theorem symbol_of_joins {level : Nat} {sign : Symbol} {op : BinaryOp} (h : Joins level sign op) :
    op.symbol = sign.text := by
  cases h <;> rfl

theorem text_signed {sign : Symbol} {op : UnaryOp} (hsigns : Signs sign op) {s : List Char}
    {e : Expr} (h : Phrase.atom.Text s e) :
    Phrase.expression.Text (op.symbol.toList ++ ' ' :: s) (.unary op e) := by
  obtain ⟨ts, n, hlex, hderives⟩ := h
  rw [symbol_of_signs hsigns]
  exact ⟨_, n + 2, lexes_spaced (lexes_symbolText sign) hlex,
    derives_of_unary (.signed hsigns (.unsigned (.base hderives)))⟩

theorem text_not {s : List Char} {e : Expr} (h : Phrase.atom.Text s e) :
    Phrase.expression.Text (UnaryOp.not.symbol.toList ++ ' ' :: s) (.unary .not e) := by
  obtain ⟨ts, n, hlex, hderives⟩ := h
  exact ⟨_, n + 2, lexes_spaced (lexes_symbolText .not) hlex, .not (derives_of_atom hderives)⟩

theorem text_unary (op : UnaryOp) {s : List Char} {e : Expr} (h : Phrase.atom.Text s e) :
    Phrase.expression.Text (op.symbol.toList ++ ' ' :: s) (.unary op e) := by
  cases op with
  | pos => exact text_signed .pos h
  | neg => exact text_signed .neg h
  | invert => exact text_signed .invert h
  | not => exact text_not h

section Binary

variable {s u : List Char} {l r : Expr} (hl : Phrase.atom.Text s l) (hr : Phrase.atom.Text u r)

include hl hr

theorem text_join {level : Nat} {sign : Symbol} {op : BinaryOp} (hjoins : Joins level sign op) :
    Phrase.expression.Text (s ++ ' ' :: op.symbol.toList ++ ' ' :: u) (.binary op l r) := by
  obtain ⟨ts, n, hslex, hts⟩ := hl
  obtain ⟨us, m, hulex, hus⟩ := hr
  have hleft : Derives (.joined level) ts l n :=
    derives_joined (Nat.le_of_lt (joins_lt hjoins)) (.unsigned (.base hts))
  have hright : Derives (.joined (level + 1)) us r m :=
    derives_joined (joins_lt hjoins) (.unsigned (.base hus))
  rw [symbol_of_joins hjoins]
  exact ⟨_, _, lexes_infix sign hslex hulex,
    .operand (derives_looser (Nat.zero_le level) (.join hleft hjoins hright))⟩

theorem text_power :
    Phrase.expression.Text (s ++ ' ' :: BinaryOp.pow.symbol.toList ++ ' ' :: u)
      (.binary .pow l r) := by
  obtain ⟨ts, n, hslex, hts⟩ := hl
  obtain ⟨us, m, hulex, hus⟩ := hr
  have hpower := Derives.raised hts (.unsigned (.base hus))
  have hsymbol : BinaryOp.pow.symbol = Symbol.doubleStar.text := rfl
  rw [hsymbol]
  exact ⟨_, _, lexes_infix .doubleStar hslex hulex, derives_of_unary (.unsigned hpower)⟩

theorem text_binary (op : BinaryOp) :
    Phrase.expression.Text (s ++ ' ' :: op.symbol.toList ++ ' ' :: u) (.binary op l r) := by
  cases op with
  | pow => exact text_power hl hr
  | mul => exact text_join hl hr .mul
  | floorDiv => exact text_join hl hr .floorDiv
  | trueDiv => exact text_join hl hr .trueDiv
  | mod => exact text_join hl hr .mod
  | add => exact text_join hl hr .add
  | sub => exact text_join hl hr .sub
  | shiftLeft => exact text_join hl hr .shiftLeft
  | shiftRight => exact text_join hl hr .shiftRight
  | bitAnd => exact text_join hl hr .bitAnd
  | bitXor => exact text_join hl hr .bitXor
  | bitOr => exact text_join hl hr .bitOr

end Binary

theorem text_literal {v : Value} (h : v.isPlain = true) :
    Phrase.atom.Text v.written (.literal v) := by
  cases v with
  | null => exact ⟨_, _, lexes_null, .null⟩
  | bool b => exact ⟨_, _, lexes_bool b, .bool b⟩
  | str s =>
    have hone : String.join [s] = s := by simp
    have hderives := Derives.strings s []
    rw [hone] at hderives
    exact ⟨_, _, lexes_str s, hderives⟩
  | int n => exact ⟨_, _, lexes_int (of_decide_eq_true h), .int n⟩
  | float _ | list _ | tuple _ | set _ | dict _ => cases h

/-! ## Texts of displays -/

/-- An atom can stand after the sign of a spread. -/
theorem text_source {s : List Char} {e : Expr} (h : Phrase.atom.Text s e) :
    (Phrase.joined 0).Text s e := by
  obtain ⟨ts, n, hlex, hderives⟩ := h
  exact ⟨ts, n, hlex, derives_joined (Nat.zero_le 6) (.unsigned (.base hderives))⟩

theorem text_spreadElements {s : List Char} {e : Expr} (h : Phrase.atom.Text s e) :
    (Phrase.place .element).Text (Spread.elements.symbol.toList ++ ' ' :: s) (.spread e) := by
  obtain ⟨ts, n, hlex, hsource⟩ := text_source h
  exact ⟨_, n + 1, lexes_spaced (lexes_symbolText .star) hlex, .spreadElements hsource⟩

theorem text_spreadEntries {s : List Char} {e : Expr} (h : Phrase.atom.Text s e) :
    (Phrase.place .entry).Text (Spread.entries.symbol.toList ++ ' ' :: s) (.spread e) := by
  obtain ⟨ts, n, hlex, hsource⟩ := text_source h
  exact ⟨_, n + 1, lexes_spaced (lexes_symbolText .doubleStar) hlex, .spreadEntries hsource⟩

theorem text_element {x : Element Expr}
    (h : ∀ e ∈ x.parts, Phrase.expression.Text e.written e) :
    (Phrase.place .element).Text (Expr.writtenElement x) x := by
  cases x with
  | item e =>
    obtain ⟨ts, n, hlex, hderives⟩ := h e (List.mem_singleton_self e)
    rw [Expr.writtenElement]
    exact ⟨ts, n, hlex, .item hderives⟩
  | spread e =>
    rw [Expr.writtenElement]
    exact text_spreadElements (text_grouped (h e (List.mem_singleton_self e)))

theorem text_entry {x : Entry Expr} (h : ∀ e ∈ x.parts, Phrase.expression.Text e.written e) :
    (Phrase.place .entry).Text (Expr.writtenEntry x) x := by
  cases x with
  | pair key value =>
    obtain ⟨ts, n, hklex, hkey⟩ := h key (List.mem_cons_self ..)
    obtain ⟨us, m, hvlex, hvalue⟩ := h value (List.mem_cons_of_mem _ (List.mem_singleton_self _))
    rw [Expr.writtenEntry]
    exact ⟨_, _, lexes_colon hklex hvlex, .pair hkey hvalue⟩
  | spread e =>
    rw [Expr.writtenEntry]
    exact text_spreadEntries (text_grouped (h e (List.mem_singleton_self e)))

/-- Places, with a comma after each. -/
theorem text_places {k : Place} {text : k.Tree → List Char} {xs : List k.Tree}
    (h : ∀ x ∈ xs, (Phrase.place k).Text (text x) x) :
    (Phrase.places k).Text (xs.flatMap fun x => text x ++ [',', ' ']) xs := by
  induction xs with
  | nil => exact ⟨[], 0, lexes_nil Delimited, .none⟩
  | cons x xs ih =>
    obtain ⟨⟨ts, n, hlex, hplace⟩, hrest⟩ := List.forall_mem_cons.mp h
    obtain ⟨us, m, hlexes, hplaces⟩ := ih hrest
    exact ⟨_, _, lexes_comma hlex hlexes, .more hplace hplaces⟩

theorem writtenElements_eq (xs : List (Element Expr)) :
    Expr.writtenElements xs = xs.flatMap fun x => Expr.writtenElement x ++ [',', ' '] := by
  induction xs with
  | nil => rfl
  | cons x xs ih => rw [Expr.writtenElements, ih, List.flatMap_cons]

theorem writtenEntries_eq (xs : List (Entry Expr)) :
    Expr.writtenEntries xs = xs.flatMap fun x => Expr.writtenEntry x ++ [',', ' '] := by
  induction xs with
  | nil => rfl
  | cons x xs ih => rw [Expr.writtenEntries, ih, List.flatMap_cons]

/-- A comma after the first place makes it a tuple, also when it is the only
    one. -/
theorem text_tuple {xs : List (Element Expr)}
    (h : ∀ x ∈ xs, (Phrase.place .element).Text (Expr.writtenElement x) x) :
    Phrase.atom.Text ('(' :: Expr.writtenElements xs ++ [')']) (.tuple xs) := by
  cases xs with
  | nil => exact ⟨_, 0, lexes_round (lexes_nil Delimited), .emptyTuple⟩
  | cons x xs =>
    obtain ⟨⟨ts, n, hlex, hplace⟩, hrest⟩ := List.forall_mem_cons.mp h
    obtain ⟨us, m, hlexes, hplaces⟩ := text_places (k := .element) hrest
    rw [writtenElements_eq, List.flatMap_cons]
    exact ⟨_, _, lexes_round (lexes_comma hlex hlexes), .round (.bareTuple hplace hplaces)⟩

/-- The text of a canonical expression gives it back. -/
theorem text_of_canonical {e : Expr} (h : e.Canonical) : Phrase.expression.Text e.written e := by
  induction h with
  | literal hv =>
    rw [Expr.written]
    exact text_atom (text_literal hv)
  | unary _ ih =>
    rw [Expr.written]
    exact text_unary _ (text_grouped ih)
  | binary _ _ ihl ihr =>
    rw [Expr.written]
    exact text_binary (text_grouped ihl) (text_grouped ihr) _
  | list _ ih =>
    obtain ⟨ts, n, hlex, hplaces⟩ := text_places fun x hx => text_element (ih x hx)
    rw [Expr.written, writtenElements_eq]
    exact text_atom ⟨_, n, lexes_square hlex, .square hplaces⟩
  | tuple _ ih =>
    rw [Expr.written]
    exact text_atom (text_tuple fun x hx => text_element (ih x hx))
  | @set xs hne _ ih =>
    obtain ⟨ts, n, hlex, hplaces⟩ := text_places fun x hx => text_element (ih x hx)
    obtain ⟨x, more, rfl⟩ := List.exists_cons_of_ne_nil hne
    rw [Expr.written, writtenElements_eq]
    exact text_atom ⟨_, n, lexes_curly hlex, .set hplaces⟩
  | dict _ ih =>
    obtain ⟨ts, n, hlex, hplaces⟩ := text_places fun x hx => text_entry (ih x hx)
    rw [Expr.written, writtenEntries_eq]
    exact text_atom ⟨_, n, lexes_curly hlex, .dict hplaces⟩

theorem ofText_of_text {s : List Char} {e : Expr} (h : Phrase.expression.Text s e) :
    ∃ limits, Expr.ofText limits (String.ofList s) = .ok e := by
  obtain ⟨ts, n, hlex, hderives⟩ := h
  exact ⟨⟨byteLength s, n⟩, ofText_of_lexes hlex hderives (Nat.le_refl n) (Nat.le_refl _)⟩

/-- Without floating-point literals the expressions of texts are the canonical
    ones, and one text of each is the symbols of its operators with its operands in
    parentheses. -/
theorem ofText_range {e : Expr} (hfloat : e.Leaves (·.isFloat = false)) :
    ((∃ limits text, Expr.ofText limits text = .ok e) ↔ e.Canonical) ∧
      (e.Canonical → ∃ limits, Expr.ofText limits (String.ofList e.written) = .ok e) := by
  have hwritten (h : e.Canonical) : ∃ limits, Expr.ofText limits (String.ofList e.written) = .ok e :=
    ofText_of_text (text_of_canonical h)
  refine ⟨⟨?_, fun h => ?_⟩, hwritten⟩
  · rintro ⟨limits, text, hexpr⟩
    exact canonical_of_built (built_of_ofText hexpr) hfloat
  · obtain ⟨limits, hexpr⟩ := hwritten h
    exact ⟨limits, _, hexpr⟩

/-- A spread of a negated power can be written; an empty set display cannot. -/
theorem ofText_range_spread :
    let e : Expr := .list [.spread (.unary .neg
      (.binary .pow (.literal (.int 2)) (.literal (.str "it's"))))]
    (∃ limits, Expr.ofText limits "[* (- ((2) ** (\"it's\"))), ]" = .ok e) ∧
      ¬ ∃ limits text, Expr.ofText limits text = .ok (.set []) := by
  intro e
  constructor
  · have hfloat : e.Leaves (·.isFloat = false) := by
      refine .list (List.forall_mem_singleton.mpr (List.forall_mem_singleton.mpr ?_))
      exact .unary (.binary (.literal rfl) (.literal rfl))
    have hcanonical : e.Canonical := by
      refine .list (List.forall_mem_singleton.mpr (List.forall_mem_singleton.mpr ?_))
      exact .unary (.binary (.literal rfl) (.literal rfl))
    have hwritten : String.ofList e.written = "[* (- ((2) ** (\"it's\"))), ]" := rfl
    rw [← hwritten]
    exact (ofText_range hfloat).2 hcanonical
  · intro h
    have hfloat : (Expr.set []).Leaves (·.isFloat = false) :=
      .set trivial (List.forall_mem_nil _)
    have hcanonical : Expr.Canonical (.set []) := (ofText_range hfloat).1.mp h
    cases hcanonical with
    | set hne _ => exact hne rfl

end Calculator
