import Calculator.Proofs.Token.Context

/-
  The tokens of a text tile it. Their spans stand side by side, each is the
  longest text at its place that any rule describes, and all that is left between
  them is blank. A text that is no list of tokens is one up to the place of its
  error.

  `Passes rest before text ls` says how the lexer goes over a text: over blanks
  and longest matches, as they are with all that comes after them.

  What is proved:
    1. `passes_of_ok`, `passes_of_error` — tokenizing goes over the whole text,
       or up to a place where no token starts.
    2. `tokenizeFrom_of_passes` — what was gone over has the same tokens when it
       stands alone.
    3. `tiles_of_passes`, `tokenize_tiles` — its tokens tile it.
-/

namespace Calculator

/-! ## The longest match -/

theorem Pattern.first_eq_some_iff {α : Type} {patterns : List (Pattern × α)} {s : List Char}
    {mark : α} : first patterns s = some mark ↔
      ∃ earlier p later, patterns = earlier ++ (p, mark) :: later ∧
        (∀ r ∈ earlier, ¬ Matches r.1 s) ∧ Matches p s := by
  rw [first, Option.map_eq_some_iff]
  constructor
  · rintro ⟨⟨p, mark⟩, hfind, rfl⟩
    obtain ⟨hp, earlier, later, hsplit, hearlier⟩ := List.find?_eq_some_iff_append.mp hfind
    refine ⟨earlier, p, later, hsplit, fun r hr hmatch => ?_, describes_iff.mp hp⟩
    simpa [describes_iff.mpr hmatch] using hearlier r hr
  · rintro ⟨earlier, p, later, hsplit, hearlier, hp⟩
    refine ⟨(p, mark), List.find?_eq_some_iff_append.mpr ⟨describes_iff.mpr hp, ?_⟩, rfl⟩
    refine ⟨earlier, later, hsplit, fun r hr => ?_⟩
    have hnot := mt describes_iff.mp (hearlier r hr)
    simpa using hnot

/-- Some rule describes the text, the first such rule reads it so, and no rule
    describes a longer text at its place. -/
structure LongestMatch (read : Reading) (text rest : List Char) : Prop where
  nonempty : text ≠ []
  first : ∃ earlier p later, rules = earlier ++ (p, read) :: later ∧
    (∀ r ∈ earlier, ¬ r.1.Matches text) ∧ p.Matches text
  longest : ∀ more after, rest = more ++ after → more ≠ [] → ∀ r ∈ rules, ¬ r.1.Matches (text ++ more)

theorem rule_of_longestMatch {read : Reading} {text rest : List Char}
    (h : LongestMatch read text rest) : ∃ p, (p, read) ∈ rules ∧ p.Matches text := by
  obtain ⟨earlier, p, later, hsplit, _, hmatch⟩ := h.first
  exact ⟨p, by simp [hsplit], hmatch⟩

theorem longestMatch_iff {read : Reading} {text rest : List Char} :
    LongestMatch read text rest ↔
      Pattern.longest rules (text ++ rest) = some (text.length, read) := by
  rw [Pattern.longest_eq_some_iff]
  constructor
  · intro h
    refine ⟨List.length_pos_iff.mpr h.nonempty, by simp, ?_, ?_⟩
    · rw [List.take_left]
      exact Pattern.first_eq_some_iff.mpr h.first
    · intro m hm hle
      obtain ⟨k, rfl⟩ := Nat.exists_eq_add_of_lt hm
      rw [Nat.add_assoc, List.take_length_add_append]
      refine Pattern.first_eq_none_iff.mpr fun p mark hmem => ?_
      refine h.longest _ _ (List.take_append_drop (k + 1) rest).symm ?_ (p, mark) hmem
      intro hnil
      rcases List.take_eq_nil_iff.mp hnil with hk | rfl
      · cases hk
      · simp only [List.append_nil] at hle
        omega
  · intro h
    refine ⟨List.ne_nil_of_length_pos h.pos, ?_, ?_⟩
    · have hfirst := h.first_eq
      rw [List.take_left] at hfirst
      exact Pattern.first_eq_some_iff.mp hfirst
    · rintro more after rfl hmore r hr hmatch
      have hpos := List.length_pos_iff.mpr hmore
      have hnone := h.none_longer (text.length + more.length) (by omega) (by simp)
      rw [← List.append_assoc, ← List.length_append, List.take_left] at hnone
      exact Pattern.first_eq_none_iff.mp hnone r.1 r.2 hr hmatch

/-- What comes later than the next characters does not matter to a match. -/
theorem longestMatch_of_append {read : Reading} {text rest more : List Char}
    (h : LongestMatch read text (rest ++ more)) : LongestMatch read text rest where
  nonempty := h.nonempty
  first := h.first
  longest := by
    rintro next after rfl hnext
    exact h.longest next (after ++ more) (by simp) hnext

/-! ## Going over a text -/

/-- The lexer, when it has gone over `before`, goes over `text` by these tokens and
    the blanks around them, with `rest` still to come. -/
inductive Passes (rest : List Char) : (before text : List Char) → List Lexeme → Prop where
  | stay {before : List Char} : Passes rest before [] []
  | blank {before text : List Char} {c : Char} {ls : List Lexeme} :
    isBlank c = true → Passes rest (before ++ [c]) text ls → Passes rest before (c :: text) ls
  | lexeme {before text after : List Char} {read : Reading} {t : Token} {ls : List Lexeme} :
    LongestMatch read text (after ++ rest) → (∀ c ∈ text.head?, isBlank c = false) →
    read text = .ok t → Passes rest (before ++ text) after ls →
    Passes rest before (text ++ after)
      (⟨t, ⟨byteLength before, byteLength (before ++ text)⟩⟩ :: ls)

/-- The longest match at the start of a text, with what comes after it. -/
theorem exists_longestMatch {c : Char} {cs : List Char} {n : Nat} {read : Reading}
    (h : Pattern.longest rules (c :: cs) = some (n, read)) :
    c :: cs = (c :: cs.take (n - 1)) ++ cs.drop (n - 1) ∧
      LongestMatch read (c :: cs.take (n - 1)) (cs.drop (n - 1)) := by
  have hsplit : c :: cs = (c :: cs.take (n - 1)) ++ cs.drop (n - 1) := by simp
  refine ⟨hsplit, longestMatch_iff.mpr ?_⟩
  obtain ⟨hpos, hle⟩ := Pattern.longest_le h
  have hlength : (c :: cs.take (n - 1)).length = n := by
    simp only [List.length_cons, List.length_take] at hle ⊢
    omega
  rw [← hsplit, hlength, h]

/-- Why no token starts at a text, if the error says so: no rule describes a
    prefix of it, or the longest match cannot be read. -/
inductive NoToken (start : Nat) (e : LexError) : List Char → Prop where
  | undescribed {c : Char} {cs : List Char} :
    (∀ text rest, c :: cs = text ++ rest → text ≠ [] → ∀ r ∈ rules, ¬ r.1.Matches text) →
    e = noToken start c cs → NoToken start e (c :: cs)
  | unreadable {text rest : List Char} {read : Reading} :
    LongestMatch read text rest → read text = .error e.cause →
    e.span = ⟨start, start + byteLength text⟩ → NoToken start e (text ++ rest)

theorem start_of_noToken {start : Nat} {e : LexError} {rest : List Char}
    (h : NoToken start e rest) : e.span.start = start := by
  cases h with
  | undescribed _ he =>
    rw [he, noToken]
    split
    · rfl
    · rfl
  | unreadable _ _ hspan => rw [hspan]

theorem cons_of_noToken {start : Nat} {e : LexError} {rest : List Char}
    (h : NoToken start e rest) : ∃ c cs, rest = c :: cs := by
  cases h with
  | undescribed _ _ => exact ⟨_, _, rfl⟩
  | unreadable hmatch _ _ => exact List.exists_cons_of_ne_nil (by simp [hmatch.nonempty])

theorem byteLength_concat (before : List Char) (c : Char) :
    byteLength (before ++ [c]) = byteLength before + c.utf8Size := by
  rw [byteLength_append]
  rfl

theorem passes_of_ok {before text : List Char} {ts : List Lexeme}
    (h : tokenizeFrom (byteLength before) text = .ok ts) :
    ∃ ls, ts = ls ++ [⟨.eof, .point (byteLength (before ++ text))⟩] ∧ Passes [] before text ls := by
  generalize hoffset : byteLength before = offset at h
  fun_induction tokenizeFrom offset text generalizing before ts with
  | case1 offset =>
    cases h
    exact ⟨[], by simp [hoffset], .stay⟩
  | case2 offset c cs hblank ih =>
    obtain ⟨ls, rfl, hpasses⟩ := ih (by rw [byteLength_concat, hoffset]) h
    exact ⟨ls, by simp, .blank hblank hpasses⟩
  | case3 offset c cs hblank hnone => cases h
  | case4 offset c cs hblank n read hl => cases h
  | case5 offset c cs hblank n read hl =>
    rename_i lexeme stop token hr ih
    obtain ⟨us, hus, rfl⟩ := map_eq_ok_iff.mp h
    obtain ⟨hsplit, hmatch⟩ := exists_longestMatch hl
    have hnext : byteLength (before ++ lexeme) = stop := by rw [byteLength_append, hoffset]
    obtain ⟨ls, rfl, hpasses⟩ := ih hnext hus
    rw [← List.append_nil (cs.drop (n - 1))] at hmatch
    have hall := Passes.lexeme hmatch (by simpa using hblank) hr hpasses
    rw [← hsplit, hnext, hoffset] at hall
    refine ⟨_ :: ls, ?_, hall⟩
    rw [List.append_assoc, ← hsplit]
    rfl

theorem passes_of_error {before text : List Char} {e : LexError}
    (h : tokenizeFrom (byteLength before) text = .error e) :
    ∃ used rest ls, text = used ++ rest ∧ Passes rest before used ls ∧
      (∀ c ∈ rest.head?, isBlank c = false) ∧ NoToken (byteLength (before ++ used)) e rest := by
  generalize hoffset : byteLength before = offset at h
  fun_induction tokenizeFrom offset text generalizing before with
  | case1 offset => cases h
  | case2 offset c cs hblank ih =>
    obtain ⟨used, rest, ls, rfl, hpasses, hstart, hnone⟩ :=
      ih (by rw [byteLength_concat, hoffset]) h
    exact ⟨c :: used, rest, ls, rfl, .blank hblank hpasses, hstart, by simpa using hnone⟩
  | case3 offset c cs hblank hnone =>
    cases h
    refine ⟨[], c :: cs, [], rfl, .stay, by simpa using hblank, ?_⟩
    rw [List.append_nil, hoffset]
    refine .undescribed (fun text rest hsplit hne r hr => ?_) rfl
    have hfirst := Pattern.longest_eq_none_iff.mp hnone text.length
      (List.length_pos_iff.mpr hne) (by simp [hsplit])
    rw [hsplit, List.take_left] at hfirst
    exact Pattern.first_eq_none_iff.mp hfirst r.1 r.2 hr
  | case4 offset c cs hblank n read hl =>
    rename_i lexeme stop cause hr
    cases h
    obtain ⟨hsplit, hmatch⟩ := exists_longestMatch hl
    refine ⟨[], c :: cs, [], rfl, .stay, by simpa using hblank, ?_⟩
    rw [List.append_nil, hoffset, hsplit]
    exact .unreadable hmatch hr rfl
  | case5 offset c cs hblank n read hl =>
    rename_i lexeme stop token hr ih
    obtain ⟨hsplit, hmatch⟩ := exists_longestMatch hl
    have hnext : byteLength (before ++ lexeme) = stop := by rw [byteLength_append, hoffset]
    have herror : tokenizeFrom stop (cs.drop (n - 1)) = .error e := by
      cases htail : tokenizeFrom stop (cs.drop (n - 1)) with
      | ok us =>
        rw [htail] at h
        cases h
      | error e' =>
        rw [htail] at h
        exact congrArg _ (Except.error.inj h)
    obtain ⟨used, rest, ls, hused, hpasses, hstart, hnone⟩ := ih hnext herror
    rw [hused] at hmatch hsplit
    have hfirst : ∀ d ∈ lexeme.head?, isBlank d = false := by simpa [lexeme] using hblank
    refine ⟨lexeme ++ used, rest, _, ?_, .lexeme hmatch hfirst hr hpasses, hstart, ?_⟩
    · rw [List.append_assoc]
      exact hsplit
    · rwa [← List.append_assoc]

/-- The lexer goes on after what it has gone over. -/
theorem tokenizeFrom_passes {rest before text : List Char} {ls : List Lexeme}
    (h : Passes rest before text ls) : tokenizeFrom (byteLength before) (text ++ rest) =
      (tokenizeFrom (byteLength (before ++ text)) rest).map (ls ++ ·) := by
  induction h with
  | stay =>
    rw [List.append_nil, List.nil_append]
    cases tokenizeFrom _ rest <;> rfl
  | @blank before text c ls hblank _ ih =>
    rw [List.cons_append, tokenizeFrom, if_pos hblank, ← byteLength_concat, ih]
    simp
  | @lexeme before text after read t ls hmatch hblank hread _ ih =>
    rw [List.append_assoc, tokenizeFrom_append (longestMatch_iff.mp hmatch) hblank hread,
      ← byteLength_append, ih, List.append_assoc]
    cases tokenizeFrom _ rest <;> rfl

theorem passes_alone {rest before text : List Char} {ls : List Lexeme}
    (h : Passes rest before text ls) : Passes [] before text ls := by
  induction h with
  | stay => exact .stay
  | blank hblank _ ih => exact .blank hblank ih
  | lexeme hmatch hblank hread _ ih =>
    refine .lexeme ?_ hblank hread ih
    rw [List.append_nil]
    exact longestMatch_of_append hmatch

/-- What was gone over has the same tokens when nothing comes after it. -/
theorem tokenizeFrom_of_passes {rest before text : List Char} {ls : List Lexeme}
    (h : Passes rest before text ls) : tokenizeFrom (byteLength before) text =
      .ok (ls ++ [⟨.eof, .point (byteLength (before ++ text))⟩]) := by
  have halone := tokenizeFrom_passes (passes_alone h)
  rwa [List.append_nil, tokenizeFrom] at halone

/-! ## What a token says of its text -/

/-- The words of the language, which the rule of names describes too. -/
def words : List (String × Token) :=
  [("True", .bool true), ("False", .bool false), ("None", .null), ("not", .symbol .not)]

/-- The token is one of the text, with the text as its payload if it is a name or a
    comparison, and it is no name if the text is a word. -/
structure Spells (t : Token) (text : List Char) : Prop where
  not_end : t ≠ .eof
  payload : ∀ s, t = .name s ∨ t = .comparison s → s.toList = text
  word : ∀ w u, (w, u) ∈ words → text = w.toList → t = u

theorem Pattern.matches_text_iff {w s : List Char} : Matches (.text w) s ↔ s = w := by
  induction w generalizing s with
  | nil => exact matches_empty_iff
  | cons c cs ih =>
    rw [text, matches_seq_iff]
    constructor
    · rintro ⟨u, v, hu, hv, rfl⟩
      obtain ⟨d, hd, rfl⟩ := matches_one_iff.mp hu
      rw [ih.mp hv, eq_of_beq hd]
      rfl
    · rintro rfl
      exact ⟨[c], cs, .one (beq_self_eq_true c), ih.mpr rfl, rfl⟩

theorem payload_of_rule {p : Pattern} {read : Reading} (h : (p, read) ∈ rules) {text : List Char}
    (hmatch : p.Matches text) {t : Token} (hr : read text = .ok t) {s : String}
    (hs : t = .name s ∨ t = .comparison s) : s.toList = text := by
  cases form_of_mem h with
  | decimal =>
    obtain ⟨i, rfl⟩ := readDecimal_int hr
    rcases hs with hs | hs <;> cases hs
  | radix _ radix =>
    obtain ⟨i, rfl⟩ := readRadix_int hr
    rcases hs with hs | hs <;> cases hs
  | float =>
    obtain ⟨x, rfl⟩ := readFloat_float hr
    rcases hs with hs | hs <;> cases hs
  | string =>
    obtain ⟨u, rfl⟩ := readString_str hr
    rcases hs with hs | hs <;> cases hs
  | bool | null | symbol =>
    cases hr
    rcases hs with hs | hs <;> cases hs
  | name =>
    cases hr
    rcases hs with hs | hs
    · cases hs
      exact String.toList_ofList
    · cases hs
  | comparison w =>
    cases hr
    rcases hs with hs | hs
    · cases hs
    · cases hs
      exact (Pattern.matches_text_iff.mp hmatch).symm

theorem spells_of_longestMatch {read : Reading} {text rest : List Char} {t : Token}
    (h : LongestMatch read text rest) (hr : read text = .ok t) : Spells t text := by
  obtain ⟨p, hmem, hmatch⟩ := rule_of_longestMatch h
  refine ⟨reading_ne_eof hmem hr, fun s hs => payload_of_rule hmem hmatch hr hs, ?_⟩
  -- a word is described by a rule of its own, which comes first
  intro w u hword htext
  have hfirst := Pattern.first_eq_some_iff.mpr h.first
  have hread : Pattern.first rules w.toList = some fun _ => .ok u := by
    simp only [words, List.mem_cons, List.not_mem_nil, or_false, Prod.mk.injEq] at hword
    rcases hword with ⟨rfl, rfl⟩ | ⟨rfl, rfl⟩ | ⟨rfl, rfl⟩ | ⟨rfl, rfl⟩ <;> rfl
  rw [htext, hread] at hfirst
  rw [← Option.some.inj hfirst] at hr
  exact (Except.ok.inj hr).symm

/-! ## Tiling -/

/-- The lexeme stands in the text: its span is that of the longest match at its
    start, and its token is read from there. -/
def Lexeme.Stands (l : Lexeme) (source : List Char) : Prop :=
  ∃ before text rest read, source = before ++ text ++ rest ∧
    l.span = ⟨byteLength before, byteLength (before ++ text)⟩ ∧
    LongestMatch read text rest ∧ read text = .ok l.token ∧ Spells l.token text

/-- The lexemes tile the text between two offsets: they stand in it, in their order
    and without overlap, and a character in none of them is blank. -/
structure Tiles (source : List Char) (ls : List Lexeme) (start stop : Nat) : Prop where
  stands : ∀ l ∈ ls, l.Stands source
  within : ∀ l ∈ ls, start ≤ l.span.start ∧ l.span.start < l.span.stop ∧ l.span.stop ≤ stop
  ordered : ls.Pairwise fun l m => l.span.stop ≤ m.span.start
  gaps : ∀ before c after, source = before ++ c :: after →
    start ≤ byteLength before → byteLength before < stop →
    (∀ l ∈ ls, ¬ (l.span.start ≤ byteLength before ∧ byteLength before < l.span.stop)) →
    isBlank c = true

/-- At an offset there starts one character at most. -/
theorem eq_of_offset {before rest b after : List Char} {c d : Char}
    (h : before ++ c :: rest = b ++ d :: after) (hle : byteLength before ≤ byteLength b)
    (hlt : byteLength b < byteLength (before ++ [c])) : d = c := by
  rw [byteLength_concat] at hlt
  rcases List.append_eq_append_iff.mp h with ⟨more, rfl, hmore⟩ | ⟨more, rfl, hmore⟩
  · cases more with
    | nil => exact (List.cons.inj hmore).1.symm
    | cons x xs =>
      obtain ⟨rfl, _⟩ := List.cons.inj hmore
      rw [byteLength_append, byteLength] at hlt
      omega
  · cases more with
    | nil => exact (List.cons.inj hmore).1
    | cons x xs =>
      have := Char.utf8Size_pos x
      rw [byteLength_append, byteLength] at hle
      omega

theorem tiles_of_passes {rest before text : List Char} {ls : List Lexeme}
    (h : Passes rest before text ls) :
    Tiles (before ++ text ++ rest) ls (byteLength before) (byteLength (before ++ text)) := by
  induction h with
  | @stay before =>
    refine ⟨nofun, nofun, .nil, fun _ _ _ _ hstart hstop _ => ?_⟩
    rw [List.append_nil] at hstop
    omega
  | @blank before text c ls hblank _ ih =>
    rw [List.append_assoc before, List.singleton_append] at ih
    have hlength := byteLength_concat before c
    refine ⟨ih.stands, fun l hl => ?_, ih.ordered, fun b d after hsplit hstart hstop hnone => ?_⟩
    · have := ih.within l hl
      omega
    · by_cases hlater : byteLength (before ++ [c]) ≤ byteLength b
      · exact ih.gaps b d after hsplit hlater hstop hnone
      · rw [List.append_assoc, List.cons_append] at hsplit
        rw [eq_of_offset hsplit hstart (Nat.lt_of_not_le hlater)]
        exact hblank
  | @lexeme before text after read t ls hmatch hblank hread _ ih =>
    rw [List.append_assoc before text after] at ih
    have htext := byteLength_append before text
    have hafter := byteLength_append (before ++ text) after
    rw [List.append_assoc before text after] at hafter
    have hpos : 0 < byteLength text :=
      Nat.lt_of_lt_of_le (List.length_pos_iff.mpr hmatch.nonempty) (length_le_byteLength text)
    refine ⟨List.forall_mem_cons.mpr ⟨?_, ih.stands⟩, List.forall_mem_cons.mpr ⟨?_, ?_⟩,
      List.pairwise_cons.mpr ⟨fun l hl => (ih.within l hl).1, ih.ordered⟩, ?_⟩
    · exact ⟨before, text, after ++ rest, read, by simp, rfl, hmatch, hread,
        spells_of_longestMatch hmatch hread⟩
    · dsimp only
      omega
    · intro l hl
      have := ih.within l hl
      omega
    · intro b d more hsplit hstart hstop hnone
      obtain ⟨hfirst, hothers⟩ := List.forall_mem_cons.mp hnone
      -- what starts before the end of this lexeme is in it
      have hlater : byteLength (before ++ text) ≤ byteLength b := by
        dsimp only at hfirst
        omega
      exact ih.gaps b d more hsplit hlater hstop hothers

/-! ## The whole text -/

/-- The tokens of a text tile it up to its end. A text that is no list of tokens is
    one up to the place of its error, where the next token would have to start. -/
theorem tokenize_tiles (source : String) :
    (∀ ts, tokenize source = .ok ts →
      ∃ ls, ts = ls ++ [⟨.eof, .point source.utf8ByteSize⟩] ∧
        Tiles source.toList ls 0 source.utf8ByteSize) ∧
    ∀ e, tokenize source = .error e →
      ∃ before rest ls, source.toList = before ++ rest ∧ e.span.start = byteLength before ∧
        tokenize (String.ofList before) = .ok (ls ++ [⟨.eof, .point e.span.start⟩]) ∧
        Tiles source.toList ls 0 e.span.start ∧ (∃ c cs, rest = c :: cs ∧ isBlank c = false) ∧
        NoToken e.span.start e rest := by
  have hzero : byteLength [] = 0 := rfl
  rw [tokenize, ← hzero]
  constructor
  · intro ts h
    obtain ⟨ls, rfl, hpasses⟩ := passes_of_ok h
    have htiles := tiles_of_passes hpasses
    rw [List.nil_append, byteLength_toList] at htiles ⊢
    rw [List.append_nil] at htiles
    exact ⟨ls, rfl, htiles⟩
  · intro e h
    obtain ⟨before, rest, ls, hsplit, hpasses, hblank, hnone⟩ := passes_of_error h
    have hstart := start_of_noToken hnone
    obtain ⟨c, cs, hrest⟩ := cons_of_noToken hnone
    have htokens := tokenizeFrom_of_passes hpasses
    have htiles := tiles_of_passes hpasses
    rw [List.nil_append] at hstart htokens htiles hnone
    rw [← hsplit] at htiles
    refine ⟨before, rest, ls, hsplit, hstart, ?_, ?_, ⟨c, cs, hrest, ?_⟩, ?_⟩
    · rw [tokenize, String.toList_ofList, hstart]
      exact htokens
    · rwa [hstart]
    · exact hblank c (by rw [hrest]; rfl)
    · rwa [hstart]

end Calculator
