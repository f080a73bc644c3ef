import Calculator.Proofs.Displays
import Calculator.Proofs.Grammar.Completeness
import Calculator.Proofs.Grammar.Trees

/-
  What holds of every container that evaluation makes. The elements of a set and
  the keys of a dict are hashable and no two of them are equal, at every depth.
  Values pass from one container to another through spreads, so the invariant is
  one of whole values: what a spread inlines is well formed if its source is.

  What is proved:
    1. `unique_union` — insertion keeps no two equal keys, whichever of them is
       compared with the other.
    2. `evaluate_wellFormed` — an expression with well-formed literals has a
       well-formed value, and the parser gives only such expressions.
-/

namespace Calculator

open Value

/-! ## Well-formed values -/

/-- Hashable values of which no two are equal, in either direction. -/
structure Value.Unique (keys : List Value) : Prop where
  hashable : ∀ k ∈ keys, k.ensureHashable = .ok ()
  distinct : keys.Pairwise fun k l => k.sameKey l = false ∧ l.sameKey k = false

/-- Every set in the value has unique elements and every dict unique keys. -/
inductive Value.WellFormed : Value → Prop where
  | scalar {v : Value} : v.isScalar = true → WellFormed v
  | list {items : List Value} : (∀ x ∈ items, WellFormed x) → WellFormed (.list items)
  | tuple {items : List Value} : (∀ x ∈ items, WellFormed x) → WellFormed (.tuple items)
  | set {items : List Value} :
    Unique items → (∀ x ∈ items, WellFormed x) → WellFormed (.set items)
  | dict {entries : List (Value × Value)} :
    Unique (entries.map (·.1)) → (∀ e ∈ entries, WellFormed e.1) →
    (∀ e ∈ entries, WellFormed e.2) → WellFormed (.dict entries)

theorem unique_of_keys {keys : List Value} (h : Keys keys) : Unique keys where
  hashable k hk := ensureHashable_ok_iff.mpr (h.hashable k hk)
  distinct := h.distinct.imp fun {k l} hkl => ⟨hkl, sameKey_comm k l ▸ hkl⟩

theorem unique_union {items : List Value} (h : ∀ x ∈ items, x.unhashable? = none) :
    Unique (union [] items) :=
  unique_of_keys (keys_union keys_nil h)

theorem unique_of_inserted {items kept : List Value}
    (h : items.foldlM insertElement [] = .ok kept) : Unique kept := by
  rw [foldlM_insertElement_eq] at h
  obtain ⟨_, hhash, rfl⟩ := map_eq_ok.mp h
  exact unique_union (ensureAll_ok_iff.mp hhash)

theorem unique_merge {entries : List (Value × Value)}
    (h : ∀ e ∈ entries, e.1.unhashable? = none) : Unique ((merge [] entries).map (·.1)) := by
  rw [map_merge]
  exact unique_union (List.forall_mem_map.mpr h)

/-- What a spread inlines is as well formed as its source. -/
theorem wellFormed_items {source : Value} {items : List Value} (h : source.items? = some items)
    (hsource : source.WellFormed) : ∀ v ∈ items, v.WellFormed := by
  cases hsource with
  | scalar hscalar =>
    cases source with
    | str s =>
      cases h
      intro v hv
      obtain ⟨c, _, rfl⟩ := List.mem_map.mp hv
      exact .scalar rfl
    | null | bool _ | int _ | float _ => cases h
    | list _ | tuple _ | set _ | dict _ => cases hscalar
  | list hitems | tuple hitems | set _ hitems =>
    cases h
    exact hitems
  | dict _ hkey _ =>
    cases h
    exact List.forall_mem_map.mpr hkey

theorem wellFormed_of_numeric {r : Except EvalError Value} {v : Value} (hr : Numeric r)
    (h : r = .ok v) : v.WellFormed := by
  have hnumber := hr v h
  cases v with
  | bool _ | int _ | float _ => exact .scalar rfl
  | _ => cases hnumber

/-! ## Evaluation -/

/-- The value of the expression, if it has one, is well formed. -/
def Expr.Sound (e : Expr) : Prop := ∀ v, evaluate e = .ok v → v.WellFormed

theorem evaluateElements_wellFormed {xs : List (Element Expr)}
    (hxs : ∀ x ∈ xs, ∀ e ∈ x.parts, e.Sound) {vs : List Value}
    (h : evaluateElements xs = .ok vs) : ∀ v ∈ vs, v.WellFormed := by
  refine forall_evaluateElements h ?_ ?_
  · intro e v he hv
    exact hxs _ he e (List.mem_singleton_self e) v hv
  · intro e source items he hsource hitems
    exact wellFormed_items hitems (hxs _ he e (List.mem_singleton_self e) source hsource)

theorem evaluateEntries_wellFormed {xs : List (Entry Expr)}
    (hxs : ∀ x ∈ xs, ∀ e ∈ x.parts, e.Sound) {entries : List (Value × Value)}
    (h : evaluateEntries xs [] = .ok entries) :
    ∀ entry ∈ entries, entry.1.WellFormed ∧ entry.2.WellFormed := by
  refine forall_evaluateEntries (P := WellFormed) h ?_ ?_ nofun
  · intro key value he k v hk hv
    have hparts := List.forall_mem_cons.mp (hxs _ he)
    exact ⟨hparts.1 k hk, List.forall_mem_singleton.mp hparts.2 v hv⟩
  · intro e source he hsource entry hentry
    have hdict := hxs _ he e (List.mem_singleton_self e) _ hsource
    cases hdict with
    | scalar hscalar => cases hscalar
    | dict _ hkey hvalue => exact ⟨hkey entry hentry, hvalue entry hentry⟩

theorem sound_of_leaves {e : Expr} (h : e.Leaves WellFormed) : e.Sound := by
  induction h with
  | literal hv =>
    intro w hw
    cases hw
    exact hv
  | @unary op e _ _ =>
    intro v hv
    obtain ⟨a, _, hv⟩ := bind_eq_ok.mp hv
    exact wellFormed_of_numeric (numeric_unary op a) hv
  | @binary op l r _ _ _ _ =>
    intro v hv
    obtain ⟨a, _, hv⟩ := bind_eq_ok.mp hv
    obtain ⟨b, _, hv⟩ := bind_eq_ok.mp hv
    exact wellFormed_of_numeric (numeric_binary op a b) hv
  | list _ ih =>
    intro v hv
    obtain ⟨items, hitems, rfl⟩ := map_eq_ok.mp hv
    exact .list (evaluateElements_wellFormed ih hitems)
  | tuple _ ih =>
    intro v hv
    obtain ⟨items, hitems, rfl⟩ := map_eq_ok.mp hv
    exact .tuple (evaluateElements_wellFormed ih hitems)
  | set _ _ ih =>
    intro v hv
    obtain ⟨items, hitems, kept, hkept, rfl⟩ := evaluate_set_ok.mp hv
    have hall := evaluateElements_wellFormed ih hitems
    refine .set (unique_of_inserted hkept) fun x hx => ?_
    exact hall x ((foldlM_insertElement_sublist hkept).subset hx)
  | dict _ ih =>
    intro v hv
    obtain ⟨entries, hentries, rfl⟩ := map_eq_ok.mp hv
    have hall := evaluateEntries_wellFormed ih hentries
    rw [evaluateEntries_eq] at hentries
    obtain ⟨given, hgiven, rfl⟩ := map_eq_ok.mp hentries
    exact .dict (unique_merge (hashable_of_given hgiven)) (fun e he => (hall e he).1)
      fun e he => (hall e he).2

theorem parse_leaves {ts : List Lexeme} {maxDepth : Nat} {e : Expr}
    (h : parse ts maxDepth = .ok e) : e.Leaves WellFormed := by
  obtain ⟨n, _, hderives⟩ := Grammar.parse_eq_ok_iff.mp h
  have hleaves := Grammar.derives_leaves hderives e (List.mem_singleton_self e)
  exact hleaves.mono (fun _ => .scalar) fun _ h => h

/-- Evaluation makes well-formed values of well-formed literals, and those that
    the parser gives are. -/
theorem evaluate_wellFormed :
    (∀ {e : Expr} {v : Value}, e.Leaves WellFormed → evaluate e = .ok v → v.WellFormed) ∧
      ∀ {ts : List Lexeme} {maxDepth : Nat} {e : Expr},
        parse ts maxDepth = .ok e → e.Leaves WellFormed :=
  ⟨fun hleaves h => sound_of_leaves hleaves _ h, parse_leaves⟩

/-- The tokens of `{*{1: None, True: None}, 2}`, whose two keys are one. -/
def spreadDictTokens : List Lexeme :=
  [⟨.symbol (.opening .curly), ⟨0, 1⟩⟩, ⟨.symbol .star, ⟨1, 2⟩⟩,
    ⟨.symbol (.opening .curly), ⟨2, 3⟩⟩, ⟨.int 1, ⟨3, 4⟩⟩, ⟨.symbol .colon, ⟨4, 5⟩⟩,
    ⟨.null, ⟨6, 10⟩⟩, ⟨.symbol .comma, ⟨10, 11⟩⟩, ⟨.bool true, ⟨12, 16⟩⟩,
    ⟨.symbol .colon, ⟨16, 17⟩⟩, ⟨.null, ⟨18, 22⟩⟩, ⟨.symbol (.closing .curly), ⟨22, 23⟩⟩,
    ⟨.symbol .comma, ⟨23, 24⟩⟩, ⟨.int 2, ⟨25, 26⟩⟩, ⟨.symbol (.closing .curly), ⟨26, 27⟩⟩,
    ⟨.eof, ⟨27, 27⟩⟩]

theorem evaluate_wellFormed_spread :
    ∃ e v, parse spreadDictTokens 4 = .ok e ∧ evaluate e = .ok v ∧ v.WellFormed := by
  have hok : (match parse spreadDictTokens 4 with
      | .ok e => (evaluate e).isOk
      | .error _ => false) = true := by decide +kernel
  cases hparse : parse spreadDictTokens 4 with
  | error cause =>
    rw [hparse] at hok
    cases hok
  | ok e =>
    rw [hparse] at hok
    cases hv : evaluate e with
    | error cause =>
      simp only [hv] at hok
      cases hok
    | ok v =>
      have hleaves : e.Leaves WellFormed := evaluate_wellFormed.2 hparse
      exact ⟨e, v, rfl, hv, evaluate_wellFormed.1 hleaves hv⟩

end Calculator
