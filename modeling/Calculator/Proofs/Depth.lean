import Calculator.Proofs.Grammar.Completeness
import Calculator.Proofs.Grammar.Trees
import Mathlib.Data.List.Chain

/-
  The depth limit bounds trees and values. What the parser counts are levels
  that are open at once; `Expr.cost` is what they leave in the tree, where
  brackets for grouping are gone. A value is as deep as the longest chain of
  values each of which stands in the one before; spreads take levels away, and
  only a display adds one.

  What is proved:
    1. `derives_cost` — an expression costs no more than the levels that its
       tokens open.
    2. `evaluate_within` — no chain in the value is longer than the cost of the
       expression.
    3. `parse_bounds_depth` — so the limit bounds both.
-/

namespace Calculator

/-! ## Cost of an expression -/

mutual

/-- Prefix operators, exponents and the places of a display stand a level deeper
    than what holds them. -/
def Expr.cost : Expr → Nat
  | .literal _ => 0
  | .unary _ e => cost e + 1
  | .binary .pow l r => max (cost l) (cost r + 1)
  | .binary _ l r => max (cost l) (cost r)
  | .list xs | .tuple xs | .set xs => costOfElements xs
  | .dict xs => costOfEntries xs

def Expr.costOfElements : List (Element Expr) → Nat
  | [] => 0
  | .item e :: xs | .spread e :: xs => max (cost e + 1) (costOfElements xs)

def Expr.costOfEntries : List (Entry Expr) → Nat
  | [] => 0
  | .pair k v :: xs => max (max (cost k + 1) (cost v + 1)) (costOfEntries xs)
  | .spread e :: xs => max (cost e + 1) (costOfEntries xs)

end

theorem costOfElements_le_iff {xs : List (Element Expr)} {n : Nat} :
    Expr.costOfElements xs ≤ n ↔ ∀ x ∈ xs, ∀ e ∈ x.parts, e.cost + 1 ≤ n := by
  induction xs with
  | nil => simp [Expr.costOfElements]
  | cons x xs ih =>
    rw [List.forall_mem_cons, ← ih]
    cases x with
    | item e | spread e =>
      rw [Expr.costOfElements, Nat.max_le, Element.parts, List.forall_mem_singleton]

theorem costOfEntries_le_iff {xs : List (Entry Expr)} {n : Nat} :
    Expr.costOfEntries xs ≤ n ↔ ∀ x ∈ xs, ∀ e ∈ x.parts, e.cost + 1 ≤ n := by
  induction xs with
  | nil => simp [Expr.costOfEntries]
  | cons x xs ih =>
    rw [List.forall_mem_cons, ← ih]
    cases x with
    | pair k v =>
      rw [Expr.costOfEntries, Nat.max_le, Nat.max_le, Entry.parts, List.forall_mem_cons,
        List.forall_mem_singleton]
    | spread e => rw [Expr.costOfEntries, Nat.max_le, Entry.parts, List.forall_mem_singleton]

theorem cost_of_joins {level : Nat} {s : Symbol} {op : BinaryOp} (h : Grammar.Joins level s op)
    (l r : Expr) : (Expr.binary op l r).cost = max l.cost r.cost := by
  cases h <;> rfl

namespace Grammar

/-- The levels that a phrase opens around each of its parts. -/
def Phrase.opens : Phrase → Nat
  | .expression | .place _ | .places _ => 1
  | _ => 0

theorem forall_left {es : List Expr} {k n : Nat} (h : ∀ e ∈ es, e.cost + k ≤ n) (m : Nat) :
    ∀ e ∈ es, e.cost + k ≤ max n m :=
  fun e he => Nat.le_trans (h e he) (Nat.le_max_left n m)

theorem forall_right {es : List Expr} {k m : Nat} (h : ∀ e ∈ es, e.cost + k ≤ m) (n : Nat) :
    ∀ e ∈ es, e.cost + k ≤ max n m :=
  fun e he => Nat.le_trans (h e he) (Nat.le_max_right n m)

/-- The levels open around a part, and those the part itself needs, are among
    the levels of the derivation. -/
theorem derives_cost {p : Phrase} {ts : List Token} {x : p.Tree} {n : Nat}
    (h : Derives p ts x n) : ∀ e ∈ p.parts x, e.cost + p.opens ≤ n := by
  have one {P : Expr → Prop} {e : Expr} : (∀ e' ∈ [e], P e') ↔ P e := List.forall_mem_singleton
  induction h with
  | tighter _ ih | unjoined _ ih | unsigned _ ih | base _ ih | round _ ih | item _ ih => exact ih
  | lone _ ih => exact one.mpr (Nat.le_of_succ_le (one.mp ih))
  | not _ ih | operand _ ih | signed _ _ ih | spreadElements _ ih | spreadEntries _ ih =>
    exact one.mpr (Nat.succ_le_succ (one.mp ih))
  | join _ hjoins _ ihl ihr =>
    have hl := one.mp ihl
    have hr := one.mp ihr
    refine one.mpr ?_
    rw [cost_of_joins hjoins]
    exact Nat.max_le.mpr
      ⟨Nat.le_trans hl (Nat.le_max_left ..), Nat.le_trans hr (Nat.le_max_right ..)⟩
  | raised _ _ ihl ihr =>
    have hl := one.mp ihl
    have hr := Nat.succ_le_succ (one.mp ihr)
    exact one.mpr (Nat.max_le.mpr
      ⟨Nat.le_trans hl (Nat.le_max_left ..), Nat.le_trans hr (Nat.le_max_right ..)⟩)
  | int _ | float _ | bool _ | null | strings _ _ | emptyTuple => exact one.mpr (Nat.le_refl 0)
  | bareTuple _ _ ih ihs =>
    exact one.mpr (costOfElements_le_iff.mpr (List.forall_mem_cons.mpr
      ⟨forall_left ih _, forall_parts_places.mp (forall_right ihs _)⟩))
  | square _ ih | set _ ih => exact one.mpr (costOfElements_le_iff.mpr (forall_parts_places.mp ih))
  | dict _ ih => exact one.mpr (costOfEntries_le_iff.mpr (forall_parts_places.mp ih))
  | pair _ _ ihk ihv =>
    exact List.forall_mem_cons.mpr ⟨one.mp (forall_left ihk _), forall_right ihv _⟩
  | none => exact nofun
  | last _ ih => exact forall_parts_places.mpr (List.forall_mem_singleton.mpr ih)
  | more _ _ ih ihs =>
    exact forall_parts_places.mpr (List.forall_mem_cons.mpr
      ⟨forall_left ih _, forall_parts_places.mp (forall_right ihs _)⟩)

end Grammar

/-! ## Depth of a value -/

/-- The second value stands directly in the first. -/
inductive Value.Holds : Value → Value → Prop where
  | list {items : List Value} {x : Value} : x ∈ items → Holds (.list items) x
  | tuple {items : List Value} {x : Value} : x ∈ items → Holds (.tuple items) x
  | set {items : List Value} {x : Value} : x ∈ items → Holds (.set items) x
  | key {entries : List (Value × Value)} {e : Value × Value} :
    e ∈ entries → Holds (.dict entries) e.1
  | value {entries : List (Value × Value)} {e : Value × Value} :
    e ∈ entries → Holds (.dict entries) e.2

namespace Value

/-- No chain of values from this one, each in the one before, has more than so
    many links. -/
def Within (v : Value) (n : Nat) : Prop :=
  ∀ chain, List.IsChain Holds (v :: chain) → chain.length ≤ n

theorem within_mono {v : Value} {m n : Nat} (h : v.Within m) (hmn : m ≤ n) : v.Within n :=
  fun chain hchain => Nat.le_trans (h chain hchain) hmn

theorem within_of_scalar {v : Value} (h : v.isScalar = true) (n : Nat) : v.Within n := by
  intro chain hchain
  cases chain with
  | nil => exact Nat.zero_le n
  | cons x chain =>
    have hx := (List.isChain_cons_cons.mp hchain).1
    cases hx <;> cases h

/-- A container is one link deeper than what it holds. -/
theorem within_iff {v : Value} {n : Nat} :
    v.Within n ↔ ∀ x, v.Holds x → ∃ m < n, x.Within m := by
  constructor
  · intro h x hx
    have hlong (chain : List Value) (hchain : List.IsChain Holds (x :: chain)) :
        chain.length + 1 ≤ n := h (x :: chain) (List.isChain_cons_cons.mpr ⟨hx, hchain⟩)
    have hpos : 0 < n := hlong [] (.singleton x)
    exact ⟨n - 1, by omega, fun chain hchain => Nat.le_sub_one_of_lt (hlong chain hchain)⟩
  · intro h chain hchain
    cases chain with
    | nil => exact Nat.zero_le n
    | cons x chain =>
      obtain ⟨hx, hrest⟩ := List.isChain_cons_cons.mp hchain
      obtain ⟨m, hm, hwithin⟩ := h x hx
      exact Nat.lt_of_le_of_lt (hwithin chain hrest) hm

theorem within_of_holds {v x : Value} {n : Nat} (hx : v.Holds x) (h : v.Within n) :
    ∃ m < n, x.Within m :=
  within_iff.mp h x hx

/-- What a spread inlines is no deeper than its source. -/
theorem within_items {source : Value} {items : List Value} {n : Nat}
    (h : source.items? = some items) (hsource : source.Within n) : ∀ v ∈ items, v.Within n := by
  have held {v : Value} (hv : source.Holds v) : v.Within n := by
    obtain ⟨m, hm, hwithin⟩ := within_of_holds hv hsource
    exact within_mono hwithin (Nat.le_of_lt hm)
  intro v hv
  cases source with
  | null | bool _ | int _ | float _ => cases h
  | str s =>
    cases h
    obtain ⟨c, _, rfl⟩ := List.mem_map.mp hv
    exact within_of_scalar rfl n
  | list xs =>
    cases h
    exact held (.list hv)
  | tuple xs =>
    cases h
    exact held (.tuple hv)
  | set xs =>
    cases h
    exact held (.set hv)
  | dict entries =>
    cases h
    obtain ⟨e, he, rfl⟩ := List.mem_map.mp hv
    exact held (.key he)

end Value

/-! ## Evaluation -/

open Value

theorem within_of_numeric {r : Except EvalError Value} {v : Value} (hr : Numeric r)
    (h : r = .ok v) (n : Nat) : v.Within n := by
  have hnumber := hr v h
  cases v with
  | bool _ | int _ | float _ => exact within_of_scalar rfl n
  | _ => cases hnumber

/-- The value of the expression, if it has one, is no deeper than its cost. -/
def Expr.Shallow (e : Expr) : Prop := ∀ v, evaluate e = .ok v → v.Within e.cost

theorem evaluateElements_within {xs : List (Element Expr)}
    (hxs : ∀ x ∈ xs, ∀ e ∈ x.parts, e.Shallow) {vs : List Value}
    (h : evaluateElements xs = .ok vs) : ∀ v ∈ vs, ∃ m < Expr.costOfElements xs, v.Within m := by
  have hcost := costOfElements_le_iff.mp (Nat.le_refl (Expr.costOfElements xs))
  refine forall_evaluateElements h ?_ ?_
  · intro e v he hv
    have hpart : e ∈ (Element.item e).parts := List.mem_singleton_self e
    exact ⟨e.cost, hcost _ he e hpart, hxs _ he e hpart v hv⟩
  · intro e source items he hsource hitems v hv
    have hpart : e ∈ (Element.spread e).parts := List.mem_singleton_self e
    exact ⟨e.cost, hcost _ he e hpart, within_items hitems (hxs _ he e hpart source hsource) v hv⟩

theorem evaluateEntries_within {xs : List (Entry Expr)}
    (hxs : ∀ x ∈ xs, ∀ e ∈ x.parts, e.Shallow) {entries : List (Value × Value)}
    (h : evaluateEntries xs [] = .ok entries) :
    ∀ entry ∈ entries, (∃ m < Expr.costOfEntries xs, entry.1.Within m) ∧
      ∃ m < Expr.costOfEntries xs, entry.2.Within m := by
  have hcost := costOfEntries_le_iff.mp (Nat.le_refl (Expr.costOfEntries xs))
  refine forall_evaluateEntries (P := fun v => ∃ m < Expr.costOfEntries xs, v.Within m) h
    ?_ ?_ nofun
  · intro key value he k v hk hv
    have hkey : key ∈ (Entry.pair key value).parts := List.mem_cons_self ..
    have hvalue : value ∈ (Entry.pair key value).parts := by simp [Entry.parts]
    exact ⟨⟨key.cost, hcost _ he key hkey, hxs _ he key hkey k hk⟩,
      ⟨value.cost, hcost _ he value hvalue, hxs _ he value hvalue v hv⟩⟩
  · intro e source he hsource entry hentry
    have hpart : e ∈ (Entry.spread e).parts := List.mem_singleton_self e
    have hlt := hcost _ he e hpart
    have hdict := hxs _ he e hpart _ hsource
    -- a spread entry has left the dict in which it was
    obtain ⟨m, hm, hkey⟩ := within_of_holds (.key hentry) hdict
    obtain ⟨l, hl, hvalue⟩ := within_of_holds (.value hentry) hdict
    exact ⟨⟨m, by omega, hkey⟩, ⟨l, by omega, hvalue⟩⟩

theorem evaluate_within {e : Expr} (h : e.Leaves (·.isScalar = true)) : e.Shallow := by
  induction h with
  | literal hv =>
    intro w hw
    cases hw
    exact within_of_scalar hv 0
  | @unary op e _ _ =>
    intro v hv
    obtain ⟨a, _, hv⟩ := bind_eq_ok.mp hv
    exact within_of_numeric (numeric_unary op a) hv _
  | @binary op l r _ _ _ _ =>
    intro v hv
    obtain ⟨a, _, hv⟩ := bind_eq_ok.mp hv
    obtain ⟨b, _, hv⟩ := bind_eq_ok.mp hv
    exact within_of_numeric (numeric_binary op a b) hv _
  | list _ ih =>
    intro v hv
    obtain ⟨items, hitems, rfl⟩ := map_eq_ok.mp hv
    refine within_iff.mpr fun x hx => ?_
    cases hx with
    | list hmem => exact evaluateElements_within ih hitems x hmem
  | tuple _ ih =>
    intro v hv
    obtain ⟨items, hitems, rfl⟩ := map_eq_ok.mp hv
    refine within_iff.mpr fun x hx => ?_
    cases hx with
    | tuple hmem => exact evaluateElements_within ih hitems x hmem
  | set _ _ ih =>
    intro v hv
    obtain ⟨items, hitems, kept, hkept, rfl⟩ := evaluate_set_ok.mp hv
    refine within_iff.mpr fun x hx => ?_
    cases hx with
    | set hmem =>
      exact evaluateElements_within ih hitems x ((foldlM_insertElement_sublist hkept).subset hmem)
  | dict _ ih =>
    intro v hv
    obtain ⟨entries, hentries, rfl⟩ := map_eq_ok.mp hv
    refine within_iff.mpr fun x hx => ?_
    cases hx with
    | key hmem => exact (evaluateEntries_within ih hentries _ hmem).1
    | value hmem => exact (evaluateEntries_within ih hentries _ hmem).2

/-- The limit bounds the cost of what is parsed, and the chains of values, each
    in the one before, in what it evaluates to. -/
theorem parse_bounds_depth {ts : List Lexeme} {maxDepth : Nat} {e : Expr}
    (h : parse ts maxDepth = .ok e) :
    e.cost ≤ maxDepth ∧ ∀ v, evaluate e = .ok v →
      ∀ chain, List.IsChain Value.Holds (v :: chain) → chain.length ≤ maxDepth := by
  obtain ⟨n, hn, hderives⟩ := Grammar.parse_eq_ok_iff.mp h
  have hcost : e.cost ≤ n := Grammar.derives_cost hderives e (List.mem_singleton_self e)
  have hleaves := Grammar.derives_leaves hderives e (List.mem_singleton_self e)
  refine ⟨Nat.le_trans hcost hn, fun v hv => ?_⟩
  exact within_mono (evaluate_within hleaves v hv) (Nat.le_trans hcost hn)

/-- The tokens of `-1, *[[2]]`, which open three levels. -/
def spreadTokens : List Lexeme :=
  [⟨.symbol .minus, ⟨0, 1⟩⟩, ⟨.int 1, ⟨1, 2⟩⟩, ⟨.symbol .comma, ⟨2, 3⟩⟩, ⟨.symbol .star, ⟨4, 5⟩⟩,
    ⟨.symbol (.opening .square), ⟨5, 6⟩⟩, ⟨.symbol (.opening .square), ⟨6, 7⟩⟩, ⟨.int 2, ⟨7, 8⟩⟩,
    ⟨.symbol (.closing .square), ⟨8, 9⟩⟩, ⟨.symbol (.closing .square), ⟨9, 10⟩⟩, ⟨.eof, ⟨10, 10⟩⟩]

theorem parse_bounds_depth_spread :
    ∃ e, parse spreadTokens 3 = .ok e ∧ e.cost ≤ 3 ∧ ∀ v, evaluate e = .ok v →
      ∀ chain, List.IsChain Value.Holds (v :: chain) → chain.length ≤ 3 := by
  cases h : parse spreadTokens 3 with
  | error e =>
    have hok : (parse spreadTokens 3).isOk = true := by decide +kernel
    rw [h] at hok
    cases hok
  | ok e => exact ⟨e, rfl, parse_bounds_depth h⟩

end Calculator
