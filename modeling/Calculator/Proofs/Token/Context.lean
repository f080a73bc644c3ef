import Calculator.Proofs.Grammar.Derivation
import Calculator.Proofs.Token.Lexer

/-
  Lexing a text in front of another. `Lexes s ts` says that the text `s` gives
  the tokens `ts` wherever it stands, if nothing or a delimiter comes next: a
  blank, a bracket, a comma or a colon. Apart from string literals no token of
  two or more characters holds a delimiter, so none reaches over one.

  What is proved:
    1. `longest_append` — a delimiter ends the longest match.
    2. `lexes_of_alone` — a text that is one token when it stands alone is that
       token in front of a delimiter.
    3. `tokenizeFrom_alone` — a text that a rule describes as a whole.
    4. `lexes_symbol`, `lexes_blank`, `lexes_append` — tokens side by side.
-/

namespace Calculator

namespace Pattern

/-- Whether the character is in some text that the pattern describes, so far as
    its classes tell. -/
def mentions (c : Char) : Pattern → Bool
  | .never | .empty => false
  | .one accepts => accepts c
  | .seq p q | .alt p q => p.mentions c || q.mentions c
  | .many p => p.mentions c

theorem mentions_of_mem {p : Pattern} {s : List Char} {c : Char} (h : Matches p s) (hc : c ∈ s) :
    p.mentions c = true := by
  induction h with
  | empty | manyNil => cases hc
  | one ha =>
    obtain rfl := List.mem_singleton.mp hc
    exact ha
  | seq _ _ ihs iht | manyCons _ _ ihs iht =>
    rcases List.mem_append.mp hc with hc | hc
    · simp [mentions] at ihs ⊢
      simp [ihs hc]
    · simp [mentions] at iht ⊢
      simp [iht hc]
  | left _ ih | right _ ih => simp [mentions, ih hc]

/-- A pattern of one character. -/
def isSingle : Pattern → Bool
  | .seq (.one _) .empty => true
  | _ => false

theorem length_of_isSingle {p : Pattern} {s : List Char} (hp : p.isSingle = true)
    (h : Matches p s) : s.length = 1 := by
  unfold isSingle at hp
  split at hp
  · obtain ⟨u, v, hu, hv, rfl⟩ := matches_seq_iff.mp h
    obtain ⟨c, _, rfl⟩ := matches_one_iff.mp hu
    rw [matches_empty_iff.mp hv]
    rfl
  · cases hp

end Pattern

/-! ## Delimiters -/

def delimiters : List Char :=
  [' ', '\t', '\r', '\n', '\x0c', '(', ')', '[', ']', '\x7b', '\x7d', ',', ':']

/-- A pattern that describes no string literal, and nothing with a delimiter
    but a single character. -/
def isPlain (p : Pattern) : Bool :=
  !p.mentions '\'' && !p.mentions '"' && (p.isSingle || delimiters.all (!p.mentions ·))

theorem rule_cases {p : Pattern} {read : Reading} (h : (p, read) ∈ rules) :
    (p, read) = Rule.string '\'' ∨ (p, read) = Rule.string '"' ∨ isPlain p = true := by
  have hrules : rules = rules.take 7 ++ [Rule.string '\'', Rule.string '"'] ++ rules.drop 9 := rfl
  have hplain : (rules.take 7 ++ rules.drop 9).all (fun r => isPlain r.1) = true := by decide
  rw [hrules, List.mem_append, List.mem_append] at h
  rw [List.all_append, Bool.and_eq_true, List.all_eq_true, List.all_eq_true] at hplain
  rcases h with (h | h) | h
  · exact .inr (.inr (hplain.1 _ h))
  · simp only [List.mem_cons, List.not_mem_nil, or_false] at h
    rcases h with h | h
    · exact .inl h
    · exact .inr (.inl h)
  · exact .inr (.inr (hplain.2 _ h))

/-- Nothing, or a delimiter first. -/
def Delimited (rest : List Char) : Prop := ∀ c ∈ rest.head?, c ∈ delimiters

theorem head_of_string {q : Char} {s : List Char} (h : Pattern.Matches (Rule.string q).1 s) :
    s.head? = some q := by
  obtain ⟨u, v, hu, _, rfl⟩ := Pattern.matches_seq_iff.mp h
  obtain ⟨c, hc, rfl⟩ := Pattern.matches_one_iff.mp hu
  rw [beq_iff_eq] at hc
  rw [hc]
  rfl

/-- Where no quote stands first, no token goes beyond a delimiter. -/
theorem not_matches_beyond {p : Pattern} {read : Reading} (hmem : (p, read) ∈ rules)
    {c d : Char} {cs more : List Char} (hquote : c ≠ '\'' ∧ c ≠ '"') (hd : d ∈ delimiters) :
    ¬ Pattern.Matches p (c :: cs ++ d :: more) := by
  intro hmatch
  rcases rule_cases hmem with hstring | hstring | hplain
  · cases hstring
    exact hquote.1 (Option.some.inj (head_of_string hmatch))
  · cases hstring
    exact hquote.2 (Option.some.inj (head_of_string hmatch))
  · simp only [isPlain, Bool.and_eq_true, Bool.or_eq_true, List.all_eq_true] at hplain
    rcases hplain.2 with hsingle | hnone
    · have hlength := Pattern.length_of_isSingle hsingle hmatch
      simp only [List.length_append, List.length_cons] at hlength
      omega
    · have hmentions := hnone d hd
      simp [Pattern.mentions_of_mem hmatch (c := d) (by simp)] at hmentions

theorem longest_append {s rest : List Char} {read : Reading}
    (h : Pattern.longest rules s = some (s.length, read))
    (hquote : ∀ c ∈ s.head?, c ≠ '\'' ∧ c ≠ '"') (hrest : Delimited rest) :
    Pattern.longest rules (s ++ rest) = some (s.length, read) := by
  obtain ⟨hpos, _, hfirst, _⟩ := Pattern.longest_eq_some_iff.mp h
  refine Pattern.longest_eq_some_iff.mpr ⟨hpos, by simp, ?_, ?_⟩
  · rw [List.take_left]
    rwa [List.take_length] at hfirst
  · intro m hm hle
    obtain ⟨k, rfl⟩ := Nat.exists_eq_add_of_lt hm
    cases rest with
    | nil =>
      rw [List.append_nil] at hle
      omega
    | cons d more =>
      -- a longer prefix holds the delimiter
      have hsplit : (s ++ d :: more).take (s.length + k + 1) = s ++ d :: more.take k := by
        rw [Nat.add_assoc, List.take_length_add_append, List.take_succ_cons]
      rw [hsplit, Pattern.first_eq_none_iff]
      intro p mark hmem
      cases s with
      | nil => exact absurd hpos (Nat.lt_irrefl 0)
      | cons c cs => exact not_matches_beyond hmem (hquote c rfl) (hrest d rfl)

/-- A text and what comes after it, as the tokens of the two. -/
theorem tokenizeFrom_append {s : List Char} {rest : List Char} {read : Reading} {t : Token}
    (hlongest : Pattern.longest rules (s ++ rest) = some (s.length, read))
    (hblank : ∀ c ∈ s.head?, isBlank c = false) (hread : read s = .ok t) (offset : Nat) :
    tokenizeFrom offset (s ++ rest) =
      (tokenizeFrom (offset + byteLength s) rest).map
        (⟨t, ⟨offset, offset + byteLength s⟩⟩ :: ·) := by
  cases s with
  | nil => exact absurd (Pattern.longest_le hlongest).1 (Nat.lt_irrefl 0)
  | cons c cs =>
    rw [List.cons_append] at hlongest ⊢
    rw [tokenizeFrom]
    simp [hblank c rfl, hlongest, hread]

/-- The tokens of a text that is one token, and all of which is in the span. -/
def onlyToken (t : Token) (span : Span) : List Lexeme := [⟨t, span⟩, ⟨.eof, .point span.stop⟩]

/-- A text that a rule describes as a whole is one token, or an error at all of it. -/
theorem tokenizeFrom_alone {s : List Char} {read : Reading}
    (hlongest : Pattern.longest rules s = some (s.length, read))
    (hblank : ∀ c ∈ s.head?, isBlank c = false) (offset : Nat) :
    (∀ t, read s = .ok t →
      tokenizeFrom offset s = .ok (onlyToken t ⟨offset, offset + byteLength s⟩)) ∧
      ∀ cause, read s = .error cause →
        tokenizeFrom offset s = .error ⟨⟨offset, offset + byteLength s⟩, cause⟩ := by
  constructor
  · intro t hread
    have hall : Pattern.longest rules (s ++ []) = some (s.length, read) := by
      rwa [List.append_nil]
    have htokens := tokenizeFrom_append hall hblank hread offset
    rw [List.append_nil, tokenizeFrom] at htokens
    exact htokens
  · intro cause hread
    cases s with
    | nil => cases hlongest
    | cons c cs =>
      rw [tokenizeFrom]
      simp [hblank c rfl, hlongest, hread]

/-! ## Texts of several tokens -/

open Grammar

/-- The text gives the tokens wherever it stands, if what comes next is as
    told. -/
def Lexes (Next : List Char → Prop) (s : List Char) (ts : List Token) : Prop :=
  ∀ offset rest, Next rest → ∃ ls, tokens ls = ts ∧
    tokenizeFrom offset (s ++ rest) =
      (tokenizeFrom (offset + byteLength s) rest).map (ls ++ ·)

/-- Whatever comes next. -/
def Anything (_ : List Char) : Prop := True

theorem lexes_weaken {Next : List Char → Prop} {s : List Char} {ts : List Token}
    (h : Lexes Anything s ts) : Lexes Next s ts :=
  fun offset rest _ => h offset rest trivial

theorem lexes_append {Next Last : List Char → Prop} {s u : List Char} {ts us : List Token}
    (hs : Lexes Next s ts) (hu : Lexes Last u us) (hnext : ∀ rest, Last rest → Next (u ++ rest)) :
    Lexes Last (s ++ u) (ts ++ us) := by
  intro offset rest hrest
  obtain ⟨ls, hls, hleft⟩ := hs offset (u ++ rest) (hnext rest hrest)
  obtain ⟨ms, hms, hright⟩ := hu (offset + byteLength s) rest hrest
  refine ⟨ls ++ ms, by rw [tokens_append, hls, hms], ?_⟩
  have hmap (x : Except LexError (List Lexeme)) :
      (x.map (ms ++ ·)).map (ls ++ ·) = x.map (ls ++ ms ++ ·) := by
    cases x with
    | error e => rfl
    | ok ks => simp [Except.map]
  calc tokenizeFrom offset (s ++ u ++ rest)
      = (tokenizeFrom (offset + byteLength s) (u ++ rest)).map (ls ++ ·) := by
        rw [List.append_assoc, hleft]
    _ = (tokenizeFrom (offset + byteLength s + byteLength u) rest).map (ls ++ ms ++ ·) := by
        rw [hright, hmap]
    _ = (tokenizeFrom (offset + byteLength (s ++ u)) rest).map (ls ++ ms ++ ·) := by
        rw [byteLength_append, Nat.add_assoc]

theorem lexes_nil (Next : List Char → Prop) : Lexes Next [] [] := by
  intro offset rest _
  refine ⟨[], rfl, ?_⟩
  show tokenizeFrom offset rest = (tokenizeFrom offset rest).map ([] ++ ·)
  cases tokenizeFrom offset rest with
  | error e => rfl
  | ok ls => rfl

theorem lexes_blank {c : Char} (h : isBlank c = true) : Lexes Anything [c] [] := by
  intro offset rest _
  obtain ⟨ls, hls, htok⟩ := lexes_nil Anything (offset + byteLength [c]) rest trivial
  refine ⟨ls, hls, ?_⟩
  rw [List.cons_append, tokenizeFrom, if_pos h]
  exact htok

theorem lexes_one {Next : List Char → Prop} {s : List Char} {read : Reading} {t : Token}
    (hlongest : ∀ rest, Next rest → Pattern.longest rules (s ++ rest) = some (s.length, read))
    (hblank : ∀ c ∈ s.head?, isBlank c = false) (hread : read s = .ok t) : Lexes Next s [t] :=
  fun offset rest hrest =>
    ⟨[_], rfl, tokenizeFrom_append (hlongest rest hrest) hblank hread offset⟩

/-- A character with which a single rule starts, and that no rule continues. -/
theorem longest_single {c : Char} {read : Reading}
    (h : Pattern.advance c rules = [(.empty, read)]) (rest : List Char) :
    Pattern.longest rules (c :: rest) = some (1, read) := by
  have hrest : Pattern.longest [(Pattern.empty, read)] rest = none := by
    cases rest with
    | nil => rfl
    | cons d rest => rfl
  simp only [Pattern.longest, h, hrest]
  rfl

theorem lexes_symbol {c : Char} {s : Symbol} (hblank : isBlank c = false)
    (h : Pattern.advance c rules = [(.empty, fun _ => .ok (.symbol s))]) :
    Lexes Anything [c] [.symbol s] :=
  lexes_one (fun rest _ => longest_single h rest) (by simp [hblank]) rfl

/-- Only string literals start with a quote. -/
theorem not_quote {s : List Char} {n : Nat} {read : Reading} {t : Token}
    (hlongest : Pattern.longest rules s = some (n, read)) (hread : read (s.take n) = .ok t)
    (hstr : ∀ u, t ≠ .str u) : ∀ c ∈ s.head?, c ≠ '\'' ∧ c ≠ '"' := by
  obtain ⟨p, hmem, hmatch⟩ := Pattern.longest_eq_some hlongest
  have hstring (h : read = readString) : False := by
    rw [h] at hread
    obtain ⟨u, hu⟩ := readString_str hread
    exact hstr u hu
  rcases rule_cases hmem with h | h | hplain
  · exact absurd (congrArg Prod.snd h) hstring
  · exact absurd (congrArg Prod.snd h) hstring
  · intro c hc
    have hin : c ∈ s.take n := by
      obtain ⟨m, rfl⟩ := Nat.exists_eq_add_of_lt (Pattern.longest_le hlongest).1
      cases s with
      | nil => cases hc
      | cons d cs =>
        cases hc
        simp
    simp only [isPlain, Bool.and_eq_true, Bool.not_eq_true'] at hplain
    have hmentioned := Pattern.mentions_of_mem hmatch hin
    constructor
    · intro heq
      rw [heq, hplain.1.1] at hmentioned
      cases hmentioned
    · intro heq
      rw [heq, hplain.1.2] at hmentioned
      cases hmentioned

/-- A text that one rule reads as a whole, and no string literal. -/
theorem lexes_of_longest {c : Char} {cs : List Char} {read : Reading} {t : Token}
    (hlongest : Pattern.longest rules (c :: cs) = some ((c :: cs).length, read))
    (hblank : isBlank c = false) (hread : read (c :: cs) = .ok t) (hstr : ∀ u, t ≠ .str u) :
    Lexes Delimited (c :: cs) [t] := by
  have hquote := not_quote hlongest (by rwa [List.take_length]) hstr
  apply lexes_one
  · intro rest hrest
    exact longest_append hlongest hquote hrest
  · simp [hblank]
  · exact hread

theorem take_eq_self {cs : List Char} {n : Nat} (h : byteLength (cs.take n) = byteLength cs) :
    cs.take n = cs := by
  have hsplit := byteLength_append (cs.take n) (cs.drop n)
  rw [List.take_append_drop] at hsplit
  have hdrop := length_le_byteLength (cs.drop n)
  have hnil : cs.drop n = [] := List.eq_nil_of_length_eq_zero (by omega)
  have hwhole := List.take_append_drop n cs
  rwa [hnil, List.append_nil] at hwhole

/-- A text that is one token when it stands alone, and no string literal. -/
theorem lexes_of_alone {s : List Char} {t : Token} (hstr : ∀ u, t ≠ .str u)
    (h : tokenizeFrom 0 s = .ok [⟨t, ⟨0, byteLength s⟩⟩, ⟨.eof, .point (byteLength s)⟩]) :
    Lexes Delimited s [t] := by
  cases s with
  | nil =>
    rw [tokenizeFrom] at h
    cases h
  | cons c cs =>
    cases hblank : isBlank c with
    | true =>
      -- then the token would start after the blank
      rw [tokenizeFrom, if_pos hblank] at h
      have hstart := ((tokenizeFrom_ordered h).2 _ (List.mem_cons_self ..)).1
      have := Char.utf8Size_pos c
      simp only at hstart
      omega
    | false =>
      obtain ⟨n, read, hlongest, hread, hstop⟩ := tokenizeFrom_first hblank h
      have htake : (c :: cs).take n = c :: cs := by
        apply take_eq_self
        simpa using hstop.symm
      have hn : n = (c :: cs).length := by
        have hlength := congrArg List.length htake
        rw [List.length_take] at hlength
        have := (Pattern.longest_le hlongest).2
        omega
      rw [htake] at hread
      rw [hn] at hlongest
      exact lexes_of_longest hlongest hblank hread hstr

end Calculator
