import Calculator.Limits
import Calculator.Proofs.Grammar.Completeness
import Calculator.Proofs.Grammar.Trees
import Calculator.Proofs.Token.Lexer
import Mathlib.Algebra.Order.Ring.Nat

/-
  Evaluation does not amplify its text. A value has one unit of size for every
  scalar and every container in it, and a text one for each character. From the
  bytes of a text to its tokens, from these to the expression and from there to
  the value, no step adds to the weight: an escape is no shorter than what it
  denotes, every node of a display has a bracket or a comma, and what is spread
  or inserted was there before.

  What is proved:
    1. `unescape_length` — escapes do not lengthen a text.
    2. `tokenizeFrom_weight` — the tokens weigh no more than the text.
    3. `derives_weight` — the expression weighs no more than its tokens.
    4. `evaluate_size` — the value is no larger than the expression.
    5. `calculate_size` — the value is no larger than the text has bytes.
-/

namespace Calculator

/-! ## Measures -/

mutual

/-- Scalars count one, a text one for each character but at least one, and a
    container one more than all that is in it. -/
def Value.size : Value → Nat
  | .str s => max 1 s.length
  | .list items | .tuple items | .set items => sizeOfItems items + 1
  | .dict entries => sizeOfEntries entries + 1
  | _ => 1

def Value.sizeOfItems : List Value → Nat
  | [] => 0
  | x :: xs => size x + sizeOfItems xs

def Value.sizeOfEntries : List (Value × Value) → Nat
  | [] => 0
  | (k, v) :: es => size k + size v + sizeOfEntries es

end

mutual

/-- A bound on the size of what the expression evaluates to. -/
def Expr.weight : Expr → Nat
  | .literal v => v.size
  | .unary _ e => weight e
  | .binary _ l r => weight l + weight r
  | .list xs | .tuple xs | .set xs => weightOfElements xs + 1
  | .dict xs => weightOfEntries xs + 1

def Expr.weightOfElements : List (Element Expr) → Nat
  | [] => 0
  | .item e :: xs | .spread e :: xs => weight e + weightOfElements xs

def Expr.weightOfEntries : List (Entry Expr) → Nat
  | [] => 0
  | .pair k v :: xs => weight k + weight v + weightOfEntries xs
  | .spread e :: xs => weight e + weightOfEntries xs

end

/-- A literal counts as its value, and any other token but the end of input as
    one. -/
def Token.weight : Token → Nat
  | .str s => max 1 s.length
  | .eof => 0
  | _ => 1

def weightOf (ts : List Token) : Nat := (ts.map Token.weight).sum

/-! ## Values -/

namespace Value

theorem size_pos (v : Value) : 0 < v.size := by
  cases v <;> simp only [size] <;> omega

theorem sizeOfItems_append (xs ys : List Value) :
    sizeOfItems (xs ++ ys) = sizeOfItems xs + sizeOfItems ys := by
  induction xs with
  | nil => simp [sizeOfItems]
  | cons x xs ih => simp only [List.cons_append, sizeOfItems, ih, Nat.add_assoc]

theorem sizeOfItems_sublist {xs ys : List Value} (h : xs.Sublist ys) :
    sizeOfItems xs ≤ sizeOfItems ys := by
  induction h with
  | slnil => exact Nat.le_refl 0
  | cons y _ ih => exact Nat.le_trans ih (Nat.le_add_left ..)
  | cons_cons y _ ih => exact Nat.add_le_add_left ih y.size

theorem size_of_number {v : Value} (h : v.number?.isSome = true) : v.size = 1 := by
  cases v with
  | bool _ | int _ | float _ => rfl
  | _ => cases h

/-- The keys of a dict are no larger than its entries. -/
theorem sizeOfItems_keys (entries : List (Value × Value)) :
    sizeOfItems (entries.map (·.1)) ≤ sizeOfEntries entries := by
  induction entries with
  | nil => exact Nat.le_refl 0
  | cons e es ih =>
    obtain ⟨k, v⟩ := e
    simp only [List.map_cons, sizeOfItems, sizeOfEntries]
    omega

/-- Each character of a text is a text of size one. -/
theorem sizeOfItems_chars (cs : List Char) :
    sizeOfItems (cs.map fun c => .str (String.singleton c)) = cs.length := by
  induction cs with
  | nil => rfl
  | cons c cs ih =>
    simp only [List.map_cons, sizeOfItems, ih, size, String.length_singleton, List.length_cons]
    omega

/-- What a spread inlines is no larger than its source. -/
theorem sizeOfItems_items {source : Value} {items : List Value}
    (h : source.items? = some items) : sizeOfItems items ≤ source.size := by
  cases source with
  | null | bool _ | int _ | float _ => cases h
  | str s =>
    cases h
    rw [sizeOfItems_chars, size, String.length_toList]
    exact Nat.le_max_right ..
  | list xs | tuple xs | set xs =>
    cases h
    simp only [size]
    omega
  | dict entries =>
    cases h
    have := sizeOfItems_keys entries
    rw [size]
    omega

/-- A value that replaces another takes its room. -/
theorem sizeOfEntries_setEntry (key value : Value) (entries : List (Value × Value)) :
    sizeOfEntries (setEntry key value entries) ≤ sizeOfEntries entries + key.size + value.size := by
  induction entries with
  | nil => simp [setEntry, sizeOfEntries]
  | cons e es ih =>
    obtain ⟨k, v⟩ := e
    rw [setEntry]
    split <;> simp only [sizeOfEntries] <;> omega

theorem sizeOfEntries_foldlM {source done next : List (Value × Value)}
    (h : source.foldlM insertEntry done = .ok next) :
    sizeOfEntries next ≤ sizeOfEntries done + sizeOfEntries source := by
  induction source generalizing done with
  | nil =>
    cases h
    exact Nat.le_refl _
  | cons e es ih =>
    have hrest := ih (foldlM_insertEntry_cons_ok.mp h).2
    have hset := sizeOfEntries_setEntry e.1 e.2 done
    simp only [sizeOfEntries]
    omega

end Value

/-! ## Evaluation -/

open Value Grammar

theorem Expr.weight_pos (e : Expr) : 0 < e.weight := by
  induction e using Expr.induction with
  | literal v => exact v.size_pos
  | unary op e ih => exact ih
  | binary op l r ihl ihr =>
    rw [weight]
    omega
  | list xs _ | tuple xs _ | set xs _ | dict xs _ => exact Nat.succ_pos _

/-- The value of the expression, if it has one, is no larger than its
    weight. -/
def Expr.Bounded (e : Expr) : Prop := ∀ v, evaluate e = .ok v → v.size ≤ e.weight

theorem evaluateElements_size {xs : List (Element Expr)}
    (hxs : ∀ x ∈ xs, ∀ e ∈ x.parts, e.Bounded) {vs : List Value}
    (h : evaluateElements xs = .ok vs) : sizeOfItems vs ≤ Expr.weightOfElements xs := by
  induction xs generalizing vs with
  | nil =>
    cases h
    exact Nat.le_refl 0
  | cons x xs ih =>
    obtain ⟨hx, hrest⟩ := List.forall_mem_cons.mp hxs
    cases x with
    | item e =>
      obtain ⟨v, hv, us, hus, rfl⟩ := evaluateElements_item_ok.mp h
      exact Nat.add_le_add (hx e (List.mem_singleton_self e) v hv) (ih hrest hus)
    | spread e =>
      obtain ⟨source, hsource, items, hitems, us, hus, rfl⟩ := evaluateElements_spread_ok.mp h
      have hinlined := sizeOfItems_items hitems
      rw [sizeOfItems_append]
      exact Nat.add_le_add (Nat.le_trans hinlined (hx e (List.mem_singleton_self e) source hsource))
        (ih hrest hus)

theorem evaluateEntries_size {xs : List (Entry Expr)}
    (hxs : ∀ x ∈ xs, ∀ e ∈ x.parts, e.Bounded) {done entries : List (Value × Value)}
    (h : evaluateEntries xs done = .ok entries) :
    sizeOfEntries entries ≤ sizeOfEntries done + Expr.weightOfEntries xs := by
  induction xs generalizing done with
  | nil =>
    cases h
    exact Nat.le_refl _
  | cons x xs ih =>
    obtain ⟨hx, hrest⟩ := List.forall_mem_cons.mp hxs
    cases x with
    | pair key value =>
      obtain ⟨k, hk, v, hv, next, hinsert, hnext⟩ := evaluateEntries_pair_ok.mp h
      obtain ⟨_, rfl⟩ : _ ∧ setEntry k v done = next := insertEntry_ok_iff.mp hinsert
      have hkey : k.size ≤ key.weight := hx key (by simp [Entry.parts]) k hk
      have hvalue : v.size ≤ value.weight := hx value (by simp [Entry.parts]) v hv
      have hset := sizeOfEntries_setEntry k v done
      have hnext := ih hrest hnext
      rw [Expr.weightOfEntries]
      omega
    | spread e =>
      obtain ⟨source, hsource, next, hinsert, hnext⟩ := evaluateEntries_spread_ok.mp h
      have hdict : (Value.dict source).size ≤ e.weight :=
        hx e (List.mem_singleton_self e) _ hsource
      have hinserted := sizeOfEntries_foldlM hinsert
      have hnext := ih hrest hnext
      rw [size] at hdict
      rw [Expr.weightOfEntries]
      omega

theorem evaluate_size (e : Expr) : e.Bounded := by
  induction e using Expr.induction with
  | literal v =>
    intro w h
    cases h
    exact Nat.le_refl _
  | unary op e _ =>
    intro v h
    obtain ⟨w, _, hv⟩ := bind_eq_ok.mp h
    rw [size_of_number (numeric_unary op w v hv)]
    exact e.weight_pos
  | binary op l r _ _ =>
    intro v h
    obtain ⟨a, _, h⟩ := bind_eq_ok.mp h
    obtain ⟨b, _, hv⟩ := bind_eq_ok.mp h
    rw [size_of_number (numeric_binary op a b v hv)]
    exact Nat.le_trans l.weight_pos (Nat.le_add_right ..)
  | list xs ih | tuple xs ih =>
    intro v h
    obtain ⟨items, hitems, rfl⟩ := map_eq_ok.mp h
    exact Nat.succ_le_succ (evaluateElements_size ih hitems)
  | set xs ih =>
    intro v h
    obtain ⟨items, hitems, kept, hkept, rfl⟩ := evaluate_set_ok.mp h
    have hsub := sizeOfItems_sublist (foldlM_insertElement_sublist hkept)
    exact Nat.succ_le_succ (Nat.le_trans hsub (evaluateElements_size ih hitems))
  | dict xs ih =>
    intro v h
    obtain ⟨entries, hentries, rfl⟩ := map_eq_ok.mp h
    have hsize := evaluateEntries_size ih hentries
    simp only [sizeOfEntries, Nat.zero_add] at hsize
    exact Nat.succ_le_succ hsize

/-! ## Tokens -/

theorem weightOfElements_eq (xs : List (Element Expr)) :
    Expr.weightOfElements xs = ((xs.flatMap Element.parts).map Expr.weight).sum := by
  induction xs with
  | nil => rfl
  | cons x xs ih => cases x <;> simp [Expr.weightOfElements, Element.parts, ih]

theorem weightOfEntries_eq (xs : List (Entry Expr)) :
    Expr.weightOfEntries xs = ((xs.flatMap Entry.parts).map Expr.weight).sum := by
  induction xs with
  | nil => rfl
  | cons x xs ih => cases x <;> simp [Expr.weightOfEntries, Entry.parts, ih, Nat.add_assoc]

theorem weightOf_cons (t : Token) (ts : List Token) :
    weightOf (t :: ts) = t.weight + weightOf ts := by
  simp [weightOf]

theorem weightOf_append (ts us : List Token) : weightOf (ts ++ us) = weightOf ts + weightOf us := by
  simp [weightOf]

/-- A text joined from literals is no heavier than they are. -/
theorem length_join_le (ss : List String) : (String.join ss).length ≤ weightOf (ss.map .str) := by
  induction ss with
  | nil => exact Nat.le_refl 0
  | cons s ss ih =>
    rw [String.join_cons, String.length_append, List.map_cons, weightOf_cons]
    exact Nat.add_le_add (Nat.le_max_right ..) ih

/-- Every node of the expression has a token of its own, the comma of a bare
    tuple and a bracket of any other display among them. -/
theorem derives_weight {p : Phrase} {ts : List Token} {x : p.Tree} {n : Nat}
    (h : Derives p ts x n) : ((p.parts x).map Expr.weight).sum ≤ weightOf ts := by
  induction h with
  | lone _ ih | operand _ ih | tighter _ ih | unjoined _ ih | unsigned _ ih | base _ ih
  | item _ ih => exact ih
  | spreadElements _ ih | spreadEntries _ ih | not _ ih | signed _ _ ih =>
    exact Nat.le_trans ih (by rw [weightOf_cons]; exact Nat.le_add_left ..)
  | int _ | float _ | bool _ | null => exact Nat.le_refl 1
  | emptyTuple => decide
  | none => exact Nat.le_refl 0
  | strings s ss =>
    have hjoin := length_join_le (s :: ss)
    have hpos : 0 < weightOf ((s :: ss).map .str) := by
      rw [List.map_cons, weightOf_cons, Token.weight]
      omega
    exact Nat.max_le.mpr ⟨hpos, hjoin⟩
  | bareTuple | join | raised | round | square | set | dict | pair | last | more =>
    -- the weights of the parts are added, and those of the tokens between them
    simp only [Phrase.parts, Place.parts, Entry.parts, List.flatMap_cons, List.flatMap_nil,
      List.map_cons, List.map_nil, List.map_append, List.sum_cons, List.sum_nil, List.sum_append,
      Expr.weight, weightOfElements_eq, weightOfEntries_eq, weightOf_append, weightOf_cons,
      Token.weight] at *
    omega

/-! ## Texts -/

theorem readHex_length {mark : Char} {width : Nat} {rest meaning : List Char} {used : Nat}
    (h : readHex mark width rest = .ok (meaning, used)) : meaning.length = 1 := by
  unfold readHex at h
  dsimp only at h
  split at h <;> cases h
  rfl

/-- An escape denotes at most two characters, a backslash and the one after
    it where it is none. -/
theorem readEscape_length {mark : Char} {rest meaning : List Char} {used : Nat}
    (h : readEscape mark rest = .ok (meaning, used)) : meaning.length ≤ 2 := by
  unfold readEscape at h
  split at h
  -- the three hexadecimal escapes, and the octal ones
  case h_12 | h_13 | h_14 => exact Nat.le_succ_of_le (Nat.le_of_eq (readHex_length h))
  case h_15 =>
    split at h <;> cases h
    · exact Nat.le_succ 1
    · exact Nat.le_refl 2
  all_goals
    cases h
    simp

theorem unescape_length {body meaning : List Char} (h : unescape body = .ok meaning) :
    meaning.length ≤ body.length := by
  fun_induction unescape body generalizing meaning with
  | case1 =>
    cases h
    exact Nat.le_refl 0
  | case2 =>
    cases h
    exact Nat.le_refl 1
  | case3 mark rest cause he => cases h
  | case4 mark rest first used he ih =>
    obtain ⟨more, hmore, rfl⟩ := map_eq_ok_iff.mp h
    have hfirst := readEscape_length he
    have hmore := ih hmore
    simp only [List.length_append, List.length_cons, List.length_drop] at hmore ⊢
    omega
  | case5 c rest _ _ ih =>
    obtain ⟨more, hmore, rfl⟩ := map_eq_ok_iff.mp h
    exact Nat.succ_le_succ (ih hmore)

theorem reading_weight {p : Pattern} {read : Reading} (hp : (p, read) ∈ rules) {s : List Char}
    {t : Token} (h : read s = .ok t) : t.weight ≤ max 1 s.length := by
  rcases reading_cases hp h with hstring | ⟨hnone, _⟩
  · obtain ⟨body, hbody, rfl⟩ := map_eq_ok_iff.mp hstring
    have hlength := unescape_length hbody
    simp only [List.length_dropLast, List.length_drop] at hlength
    simp only [Token.weight, String.length_ofList]
    omega
  · refine Nat.le_trans ?_ (Nat.le_max_left ..)
    cases t with
    | str u => exact absurd rfl (hnone u)
    | eof => exact Nat.zero_le 1
    | _ => exact Nat.le_refl 1

theorem tokenizeFrom_weight {offset : Nat} {text : List Char} {ts : List Lexeme}
    (h : tokenizeFrom offset text = .ok ts) : weightOf (tokens ts) ≤ byteLength text := by
  fun_induction tokenizeFrom offset text generalizing ts with
  | case1 offset =>
    cases h
    exact Nat.le_refl 0
  | case2 offset c cs hblank ih => exact Nat.le_trans (ih h) (Nat.le_add_left ..)
  | case3 offset c cs hblank hnone => cases h
  | case4 offset c cs hblank n read hl lexeme cause hr => cases h
  | case5 offset c cs hblank n read hl lexeme stop token hr =>
    rename_i ih
    obtain ⟨us, hus, rfl⟩ := map_eq_ok_iff.mp h
    obtain ⟨p, hp, _⟩ := Pattern.longest_eq_some hl
    have htext : byteLength lexeme + byteLength (cs.drop (n - 1)) = byteLength (c :: cs) := by
      rw [← byteLength_append]
      simp [lexeme]
    have hrest := ih hus
    have htoken := reading_weight hp hr
    have hbytes := length_le_byteLength lexeme
    have hpos : 0 < lexeme.length := Nat.succ_pos _
    show weightOf (token :: tokens us) ≤ _
    rw [weightOf_cons]
    omega

theorem weightOf_takeWhile_le (keep : Lexeme → Bool) (ts : List Lexeme) :
    weightOf (tokens (ts.takeWhile keep)) ≤ weightOf (tokens ts) := by
  have hsplit : tokens ts = tokens (ts.takeWhile keep) ++ tokens (ts.dropWhile keep) := by
    rw [← tokens_append, List.takeWhile_append_dropWhile]
  rw [hsplit, weightOf_append]
  exact Nat.le_add_right ..

/-- The value of a text is no larger than the text has bytes. -/
theorem calculate_size {limits : Limits} {text : String} {v : Value}
    (h : calculate limits text = .ok v) : v.size ≤ text.utf8ByteSize := by
  obtain ⟨e, he, hv⟩ := calculate_eq_ok_iff.mp h
  obtain ⟨_, ts, hlex, hparse⟩ := ofText_eq_ok_iff.mp he
  obtain ⟨n, _, hderives⟩ := parse_eq_ok_iff.mp hparse
  calc v.size
    _ ≤ e.weight := evaluate_size e v hv
    _ ≤ weightOf (tokens (ts.takeWhile (·.token ≠ .eof))) := derives_weight hderives
    _ ≤ weightOf (tokens ts) := weightOf_takeWhile_le _ ts
    _ ≤ byteLength text.toList := tokenizeFrom_weight hlex
    _ = text.utf8ByteSize := byteLength_toList text

/-- A spread text, an escape, literals side by side and a key written twice. -/
theorem calculate_size_spread :
    ∃ v, calculate {} "[*'a\\x62', 'c' 'd', *\x7b1: 2, 1.0: 3\x7d]" = .ok v ∧ v.size ≤ 36 := by
  cases h : calculate {} "[*'a\\x62', 'c' 'd', *\x7b1: 2, 1.0: 3\x7d]" with
  | error e =>
    have hok : (calculate {} "[*'a\\x62', 'c' 'd', *\x7b1: 2, 1.0: 3\x7d]").isOk = true := by
      decide +kernel
    rw [h] at hok
    cases hok
  | ok v => exact ⟨v, rfl, calculate_size h⟩

end Calculator
