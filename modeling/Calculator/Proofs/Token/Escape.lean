import Calculator.Proofs.Token.Numeral

/-
  Texts in quotes, read back. `Inside q` are the texts that may stand between
  two quotes `q`: a quote among them follows a backslash. So the quote that
  ends a literal is known from the left, and no longer text is a literal.

  What is proved:
    1. `matches_string_iff` — the string rule describes quoted texts.
    2. `longest_string` — a literal ends at its closing quote, whatever comes
       next.
    3. `unescape_quoted` — escapes are undone.
    4. `lexes_quoted` — a text as it is written in quotes is its token.
-/

namespace Calculator

/-! ## Between the quotes -/

inductive Inside (quote : Char) : List Char → Prop where
  | nil : Inside quote []
  | plain {c : Char} {cs : List Char} :
    c ≠ quote → c ≠ '\\' → c ≠ '\n' → Inside quote cs → Inside quote (c :: cs)
  | escape (c : Char) {cs : List Char} : Inside quote cs → Inside quote ('\\' :: c :: cs)

/-- What the string rule repeats between the quotes. -/
def insidePattern (quote : Char) : Pattern :=
  .alt (.one fun c => c != quote && c != '\\' && c != '\n')
    (.seq (.char '\\') (.one fun _ => true))

theorem matches_inside_iff {quote : Char} {s : List Char} :
    Pattern.Matches (.many (insidePattern quote)) s ↔ Inside quote s := by
  constructor
  · intro h
    induction hlen : s.length using Nat.strongRecOn generalizing s with
    | ind n ih =>
      cases s with
      | nil => exact .nil
      | cons c t =>
        obtain ⟨u, v, hu, hv, rfl⟩ := Pattern.matches_many_cons.mp h
        have hrest : Inside quote v := ih v.length (by simp at hlen; omega) hv rfl
        rcases Pattern.matches_alt_iff.mp hu with hone | htwo
        · obtain ⟨d, hd, hcd⟩ := Pattern.matches_one_iff.mp hone
          obtain ⟨rfl, rfl⟩ := List.cons.inj hcd
          simp only [Bool.and_eq_true, bne_iff_ne] at hd
          exact .plain hd.1.1 hd.1.2 hd.2 hrest
        · obtain ⟨a, b, ha, hb, hab⟩ := Pattern.matches_seq_iff.mp htwo
          obtain ⟨d, hd, rfl⟩ := Pattern.matches_one_iff.mp ha
          obtain ⟨e, _, rfl⟩ := Pattern.matches_one_iff.mp hb
          rw [beq_iff_eq] at hd
          cases hab
          rw [hd]
          exact .escape e hrest
  · intro h
    induction h with
    | nil => exact .manyNil
    | @plain c cs hq hb hn _ ih =>
      exact .manyCons (s := [c]) (.left (.one (by simp [hq, hb, hn]))) ih
    | @escape c cs _ ih =>
      exact .manyCons (s := ['\\', c]) (.right (.seq (s := ['\\']) (.one rfl) (.one rfl))) ih

theorem matches_string_iff {quote : Char} {s : List Char} :
    Pattern.Matches (Rule.string quote).1 s ↔
      ∃ body, Inside quote body ∧ s = quote :: body ++ [quote] := by
  constructor
  · intro h
    obtain ⟨u, v, hu, hv, rfl⟩ := Pattern.matches_seq_iff.mp h
    obtain ⟨body, w, hbody, hw, rfl⟩ := Pattern.matches_seq_iff.mp hv
    obtain ⟨x, y, hx, hy, rfl⟩ := Pattern.matches_seq_iff.mp hw
    obtain ⟨c, hc, rfl⟩ := Pattern.matches_one_iff.mp hu
    obtain ⟨d, hd, rfl⟩ := Pattern.matches_one_iff.mp hx
    rw [beq_iff_eq] at hc hd
    rw [Pattern.matches_empty_iff.mp hy, hc, hd]
    exact ⟨body, matches_inside_iff.mp hbody, rfl⟩
  · intro h
    obtain ⟨body, hbody, rfl⟩ := h
    have hclose : Pattern.Matches (.sequence [.char quote]) ([quote] ++ []) :=
      .seq (.one (beq_self_eq_true quote)) .empty
    exact .seq (s := [quote]) (.one (beq_self_eq_true quote))
      (.seq (matches_inside_iff.mpr hbody) hclose)

/-- The first quote that is not escaped is in one place only. -/
theorem inside_unique {quote : Char} (hquote : quote ≠ '\\') {a b x y : List Char}
    (ha : Inside quote a) (hb : Inside quote b) (h : a ++ quote :: x = b ++ quote :: y) : a = b := by
  induction ha generalizing b with
  | nil =>
    cases hb with
    | nil => rfl
    | plain hne _ _ _ => exact absurd (List.cons.inj h).1.symm hne
    | escape c _ => exact absurd (List.cons.inj h).1 hquote
  | plain hne hslash _ _ ih =>
    cases hb with
    | nil => exact absurd (List.cons.inj h).1 hne
    | plain _ _ _ hb =>
      obtain ⟨rfl, htail⟩ := List.cons.inj h
      rw [ih hb htail]
    | escape c _ => exact absurd (List.cons.inj h).1 hslash
  | escape c _ ih =>
    cases hb with
    | nil => exact absurd (List.cons.inj h).1.symm hquote
    | plain _ hslash _ _ => exact absurd (List.cons.inj h).1.symm hslash
    | escape d hb =>
      obtain ⟨rfl, htail⟩ := List.cons.inj (List.cons.inj h).2
      rw [ih hb htail]

/-- The two quotes. -/
def IsQuote (c : Char) : Prop := c = '\'' ∨ c = '"'

theorem string_mem {quote : Char} (hq : IsQuote quote) : Rule.string quote ∈ rules := by
  rcases hq with rfl | rfl
  · simp [rules]
  · simp [rules]

/-- What a text that starts with a quote matches is a literal with that
    quote. -/
theorem rule_of_quote {quote : Char} (hq : IsQuote quote) {p : Pattern} {read : Reading}
    (hmem : (p, read) ∈ rules) {s : List Char} (h : Pattern.Matches p (quote :: s)) :
    (p, read) = Rule.string quote := by
  rcases rule_cases hmem with hrule | hrule | hplain
  · cases hrule
    cases head_of_string h
    rfl
  · cases hrule
    cases head_of_string h
    rfl
  · simp only [isPlain, Bool.and_eq_true, Bool.not_eq_true'] at hplain
    have hmentioned := Pattern.mentions_of_mem h (List.mem_cons_self ..)
    rcases hq with rfl | rfl
    · rw [hplain.1.1] at hmentioned
      cases hmentioned
    · rw [hplain.1.2] at hmentioned
      cases hmentioned

theorem longest_string {quote : Char} (hq : IsQuote quote) {body : List Char}
    (hbody : Inside quote body) (rest : List Char) :
    Pattern.longest rules (quote :: body ++ [quote] ++ rest) =
      some ((quote :: body ++ [quote]).length, readString) := by
  have hslash : quote ≠ '\\' := by rcases hq with rfl | rfl <;> decide
  have hmatch := matches_string_iff.mpr ⟨body, hbody, rfl⟩
  refine Pattern.longest_eq_some_iff.mpr ⟨by simp, by simp, ?_, ?_⟩
  · rw [List.take_left]
    cases hfirst : Pattern.first rules (quote :: body ++ [quote]) with
    | none => exact absurd hmatch (Pattern.first_eq_none_iff.mp hfirst _ _ (string_mem hq))
    | some read =>
      obtain ⟨p, hmem, hp⟩ := Pattern.first_eq_some hfirst
      cases rule_of_quote hq hmem hp
      rfl
  · intro m hm hle
    rw [Pattern.first_eq_none_iff]
    intro p mark hmem hp
    -- a longer literal would have the same closing quote
    have hsplit := List.take_append_drop m (quote :: body ++ [quote] ++ rest)
    have hlength : ((quote :: body ++ [quote] ++ rest).take m).length = m :=
      List.length_take_of_le hle
    obtain ⟨k, rfl⟩ := Nat.exists_eq_add_of_lt hm
    have hrule := rule_of_quote hq hmem (by simpa using hp)
    cases hrule
    obtain ⟨body', hbody', htake⟩ := matches_string_iff.mp hp
    rw [htake] at hsplit hlength
    generalize (quote :: body ++ [quote] ++ rest).drop _ = more at hsplit
    have hopen : body' ++ quote :: more = body ++ quote :: rest := by simpa using hsplit
    rw [inside_unique hslash hbody' hbody hopen] at hlength
    omega

/-! ## Escapes -/

theorem unescape_plain {c : Char} (h : c ≠ '\\') (rest : List Char) :
    unescape (c :: rest) = (unescape rest).map (c :: ·) := by
  rw [unescape]
  · exact fun hc _ => h hc
  · exact fun _ _ hc _ => h hc

theorem unescape_escape {mark : Char} {rest meaning : List Char} {used : Nat}
    (h : readEscape mark rest = .ok (meaning, used)) :
    unescape ('\\' :: mark :: rest) = (unescape (rest.drop used)).map (meaning ++ ·) := by
  rw [unescape, h]

theorem positional_zeros (radix n : Nat) (cs : List Char) :
    positional radix (List.replicate n '0' ++ cs) = positional radix cs := by
  have zeros : positional radix (List.replicate n '0') = 0 := by
    induction n with
    | zero => rfl
    | succ n ih =>
      rw [List.replicate_succ', positional_append, ih]
      simp [digitValue]
  simp only [positional, List.foldl_append] at zeros ⊢
  rw [zeros]

theorem isDigit_of_mem_hexDigits (width n : Nat) :
    ∀ c ∈ hexDigits width n, isDigit 16 c = true := by
  intro c hc
  rcases List.mem_append.mp hc with hc | hc
  · rw [List.eq_of_mem_replicate hc]
    decide
  · exact isDigit_of_mem_toDigits (by decide) n c hc

theorem length_hexDigits {n : Nat} (h : n < 256) : (hexDigits 2 n).length = 2 := by
  have hle : (Nat.toDigits 16 n).length ≤ 2 :=
    (Nat.length_toDigits_le_iff (by decide) (by decide)).mpr h
  simp only [hexDigits, List.length_append, List.length_replicate]
  omega

theorem readHex_hexDigits {c : Char} (h : c.toNat < 256) (mark : Char) (rest : List Char) :
    readHex mark 2 (hexDigits 2 c.toNat ++ rest) = .ok ([c], 2) := by
  have hlength := length_hexDigits h
  have htake : ((hexDigits 2 c.toNat ++ rest).take 2).takeWhile (isDigit 16) =
      hexDigits 2 c.toNat := by
    have hall : (hexDigits 2 c.toNat ++ []).takeWhile (isDigit 16) =
        hexDigits 2 c.toNat ++ [].takeWhile (isDigit 16) :=
      List.takeWhile_append_of_pos (isDigit_of_mem_hexDigits 2 c.toNat)
    rw [List.take_left' hlength]
    simpa using hall
  have hcode : positional 16 (hexDigits 2 c.toNat) = c.toNat := by
    rw [hexDigits, positional_zeros, positional_toDigits (by decide)]
  have hvalid : c.toNat.isValidChar := c.valid
  simp only [readHex, htake, hlength, hcode, charOfCode?, if_pos hvalid, if_true, Char.ofNat_toNat]

/-- A character is written as an escape of two characters, in hexadecimal, or as
    it is. -/
theorem quotedChar_cases {quote : Char} (hq : IsQuote quote) (c : Char) :
    (∃ mark, quotedChar quote c = ['\\', mark] ∧ ∀ rest, readEscape mark rest = .ok ([c], 0)) ∨
      (quotedChar quote c = '\\' :: 'x' :: hexDigits 2 c.toNat ∧ c.toNat < 256) ∨
      (quotedChar quote c = [c] ∧ c ≠ quote ∧ c ≠ '\\' ∧ c ≠ '\n') := by
  unfold quotedChar
  by_cases hslash : c = '\\'
  · rw [if_pos hslash, hslash]
    exact .inl ⟨_, rfl, fun _ => rfl⟩
  rw [if_neg hslash]
  by_cases hnewline : c = '\n'
  · rw [if_pos hnewline, hnewline]
    exact .inl ⟨_, rfl, fun _ => rfl⟩
  rw [if_neg hnewline]
  by_cases hreturn : c = '\r'
  · rw [if_pos hreturn, hreturn]
    exact .inl ⟨_, rfl, fun _ => rfl⟩
  rw [if_neg hreturn]
  by_cases htab : c = '\t'
  · rw [if_pos htab, htab]
    exact .inl ⟨_, rfl, fun _ => rfl⟩
  rw [if_neg htab]
  by_cases hquote : c = quote
  · rw [if_pos hquote, hquote]
    rcases hq with rfl | rfl
    · exact .inl ⟨_, rfl, fun _ => rfl⟩
    · exact .inl ⟨_, rfl, fun _ => rfl⟩
  rw [if_neg hquote]
  by_cases hcontrol : isControl c = true
  · rw [if_pos hcontrol]
    simp [isControl] at hcontrol
    exact .inr (.inl ⟨rfl, by omega⟩)
  · rw [if_neg hcontrol]
    exact .inr (.inr ⟨rfl, hquote, hslash, hnewline⟩)

/-- A character as it is written denotes itself. -/
theorem unescape_quotedChar {quote : Char} (hq : IsQuote quote) (c : Char) (rest : List Char) :
    unescape (quotedChar quote c ++ rest) = (unescape rest).map (c :: ·) := by
  rcases quotedChar_cases hq c with ⟨mark, h, hmark⟩ | ⟨h, hcode⟩ | ⟨h, _, hslash, _⟩
  · rw [h]
    exact unescape_escape (hmark rest)
  · have hhex : readEscape 'x' (hexDigits 2 c.toNat ++ rest) = .ok ([c], 2) :=
      readHex_hexDigits hcode 'x' rest
    have hall := unescape_escape hhex
    rw [List.drop_left' (length_hexDigits hcode)] at hall
    rw [h]
    exact hall
  · rw [h]
    exact unescape_plain hslash rest

theorem unescape_quoted {quote : Char} (hq : IsQuote quote) (s : List Char) :
    unescape (s.flatMap (quotedChar quote)) = .ok s := by
  induction s with
  | nil => rw [List.flatMap_nil, unescape]
  | cons c cs ih =>
    rw [List.flatMap_cons, unescape_quotedChar hq, ih]
    rfl

/-! ## Quoted texts -/

theorem inside_append {quote : Char} {a b : List Char} (ha : Inside quote a)
    (hb : Inside quote b) : Inside quote (a ++ b) := by
  induction ha with
  | nil => exact hb
  | plain hq hslash hn _ ih => exact .plain hq hslash hn ih
  | escape c _ ih => exact .escape c ih

theorem inside_digits {quote : Char} (hq : IsQuote quote) {s : List Char}
    (h : ∀ c ∈ s, isDigit 16 c = true) : Inside quote s := by
  induction s with
  | nil => exact .nil
  | cons c cs ih =>
    have hc := h c (List.mem_cons_self ..)
    have hne (d : Char) (hd : isDigit 16 d = false) : c ≠ d := by
      intro heq
      rw [← heq, hc] at hd
      cases hd
    have hquote : c ≠ quote := by
      rcases hq with rfl | rfl
      · exact hne _ rfl
      · exact hne _ rfl
    exact .plain hquote (hne _ rfl) (hne _ rfl) (ih fun d hd => h d (List.mem_cons_of_mem c hd))

theorem inside_quotedChar {quote : Char} (hq : IsQuote quote) (c : Char) :
    Inside quote (quotedChar quote c) := by
  rcases quotedChar_cases hq c with ⟨mark, h, _⟩ | ⟨h, _⟩ | ⟨h, hquote, hslash, hnewline⟩
  · rw [h]
    exact .escape mark .nil
  · rw [h]
    exact .escape 'x' (inside_digits hq (isDigit_of_mem_hexDigits 2 c.toNat))
  · rw [h]
    exact .plain hquote hslash hnewline .nil

theorem inside_quoted {quote : Char} (hq : IsQuote quote) (s : List Char) :
    Inside quote (s.flatMap (quotedChar quote)) := by
  induction s with
  | nil => exact .nil
  | cons c cs ih =>
    rw [List.flatMap_cons]
    exact inside_append (inside_quotedChar hq c) ih

theorem isBlank_of_isQuote {c : Char} (h : IsQuote c) : isBlank c = false := by
  rcases h with rfl | rfl <;> rfl

theorem readString_quoted (quote : Char) (body : List Char) :
    readString (quote :: body ++ [quote]) =
      (unescape body).map fun s => .str (String.ofList s) := by
  simp only [readString, List.cons_append, List.drop_succ_cons, List.drop_zero,
    List.dropLast_concat]

theorem lexes_quoted (s : List Char) : Lexes Anything (quoted s) [.str (String.ofList s)] := by
  unfold quoted
  dsimp only
  generalize hquote : (if s.contains '\'' && !s.contains '"' then '"' else '\'') = quote
  have hq : IsQuote quote := by
    rw [← hquote]
    split
    · exact .inr rfl
    · exact .inl rfl
  have hread : readString (quote :: s.flatMap (quotedChar quote) ++ [quote]) =
      .ok (.str (String.ofList s)) := by
    rw [readString_quoted, unescape_quoted hq]
    rfl
  refine lexes_one (fun rest _ => longest_string hq (inside_quoted hq s) rest) ?_ hread
  intro c hc
  cases hc
  exact isBlank_of_isQuote hq

end Calculator
