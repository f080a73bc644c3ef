import Calculator.Proofs.Evaluation
import Calculator.Proofs.Value.Merging

/-
  Displays place by place. What a display holds is made of what its places give,
  one after the other; sets and dicts are then made of all of it at once. So a
  spread of a display is the places of that display, written in place of it.

  What is proved:
    1. `evaluateElements_append`, `givenEntries_append` — places side by side.
    2. `evaluateEntries_eq` — a dict display evaluates its places, checking each
       key where it stands, and merges what they give.
    3. `spread_fusion` — a spread of a display in a display of its kind.
-/

namespace Calculator

open Value

/-! ## Elements -/

theorem evaluateElements_append (xs ys : List (Element Expr)) :
    evaluateElements (xs ++ ys) = do
      let vs ← evaluateElements xs
      let ws ← evaluateElements ys
      return vs ++ ws := by
  induction xs with
  | nil => exact (bind_pure (evaluateElements ys)).symm
  | cons x xs ih =>
    cases x <;> simp only [List.cons_append, evaluateElements, ih, bind_assoc, pure_bind,
      List.append_assoc]

theorem evaluate_set (xs : List (Element Expr)) :
    evaluate (.set xs) = do
      let items ← evaluateElements xs
      ensureAll items
      return .set (union [] items) := by
  rw [evaluate]
  simp only [Value.setOf, foldlM_insertElement_eq]
  simp

/-! ## Entries -/

/-- What the places of a dict display give, one after the other. The key of a
    place is checked before the places after it are evaluated. -/
def givenEntries : List (Entry Expr) → Except EvalError (List (Value × Value))
  | [] => .ok []
  | .pair key value :: rest => do
    let k ← evaluate key
    let v ← evaluate value
    k.ensureHashable
    let more ← givenEntries rest
    return (k, v) :: more
  | .spread e :: rest => do
    let source ← evaluate e
    let entries ← spreadEntries source
    ensureAll (entries.map (·.1))
    let more ← givenEntries rest
    return entries ++ more

theorem givenEntries_append (xs ys : List (Entry Expr)) :
    givenEntries (xs ++ ys) = do
      let es ← givenEntries xs
      let fs ← givenEntries ys
      return es ++ fs := by
  induction xs with
  | nil => exact (bind_pure (givenEntries ys)).symm
  | cons x xs ih =>
    cases x <;> simp only [List.cons_append, givenEntries, ih, bind_assoc, pure_bind,
      List.append_assoc]

theorem evaluateEntries_eq (xs : List (Entry Expr)) (done : List (Value × Value)) :
    evaluateEntries xs done = merge done <$> givenEntries xs := by
  induction xs generalizing done with
  | nil => rfl
  | cons x xs ih =>
    cases x with
    | pair key value =>
      simp only [evaluateEntries, givenEntries, insertEntry, ih]
      simp [merge_cons]
    | spread e =>
      simp only [evaluateEntries, givenEntries, foldlM_insertEntry_eq, ih]
      simp [merge_append]

/-- Keys that are given have been checked. -/
theorem hashable_of_given {xs : List (Entry Expr)} {es : List (Value × Value)}
    (h : givenEntries xs = .ok es) : ∀ e ∈ es, e.1.unhashable? = none := by
  induction xs generalizing es with
  | nil =>
    cases h
    exact nofun
  | cons x xs ih =>
    cases x with
    | pair key value =>
      simp only [givenEntries, bind_eq_ok, ensureHashable_ok_iff] at h
      obtain ⟨k, _, v, _, _, hk, more, hmore, h⟩ := h
      cases h
      exact List.forall_mem_cons.mpr ⟨hk, ih hmore⟩
    | spread e =>
      simp only [givenEntries, bind_eq_ok, ensureAll_ok_iff] at h
      obtain ⟨_, _, entries, _, _, hkeys, more, hmore, h⟩ := h
      cases h
      refine List.forall_mem_append.mpr ⟨fun e he => ?_, ih hmore⟩
      exact hkeys e.1 (List.mem_map_of_mem he)

/-- What a spread of a dict display gives: its entries, merged. -/
theorem givenEntries_spread_dict (es rest : List (Entry Expr)) :
    givenEntries (.spread (.dict es) :: rest) = do
      let inner ← givenEntries es
      let more ← givenEntries rest
      return merge [] inner ++ more := by
  rw [givenEntries, evaluate, evaluateEntries_eq]
  cases hinner : givenEntries es with
  | error e => rfl
  | ok inner =>
    have hkeys : ensureAll ((merge [] inner).map (·.1)) = .ok () := by
      rw [ensureAll_ok_iff, map_merge]
      have hgiven : ∀ k ∈ inner.map (·.1), k.unhashable? = none :=
        List.forall_mem_map.mpr (hashable_of_given hinner)
      exact (keys_union keys_nil hgiven).hashable
    show (ensureAll ((merge [] inner).map (·.1)) >>= fun _ => do
      let more ← givenEntries rest
      return merge [] inner ++ more) = _
    rw [hkeys]
    rfl

/-! ## Fusion -/

theorem evaluateElements_spread_display (es rest : List (Element Expr)) {source : Expr}
    (h : source = .list es ∨ source = .tuple es) :
    evaluateElements (.spread source :: rest) = evaluateElements (es ++ rest) := by
  rw [evaluateElements_append, evaluateElements]
  rcases h with rfl | rfl
  · rw [evaluate]
    cases evaluateElements es with
    | error e => rfl
    | ok vs => rfl
  · rw [evaluate]
    cases evaluateElements es with
    | error e => rfl
    | ok vs => rfl

theorem evaluateElements_fused (before es after : List (Element Expr)) {source : Expr}
    (h : source = .list es ∨ source = .tuple es) :
    evaluateElements (before ++ .spread source :: after) =
      evaluateElements (before ++ es ++ after) := by
  rw [List.append_assoc, evaluateElements_append before, evaluateElements_append before,
    evaluateElements_spread_display es after h]

theorem evaluateEntries_fused (before es after : List (Entry Expr)) :
    evaluateEntries (before ++ .spread (.dict es) :: after) [] =
      evaluateEntries (before ++ es ++ after) [] := by
  simp only [evaluateEntries_eq, List.append_assoc, givenEntries_append, givenEntries_spread_dict]
  cases givenEntries before with
  | error e => rfl
  | ok front =>
    cases hinner : givenEntries es with
    | error e => rfl
    | ok inner =>
      cases givenEntries after with
      | error e => rfl
      | ok back =>
        show Except.ok (merge [] (front ++ (merge [] inner ++ back))) =
          Except.ok (merge [] (front ++ (inner ++ back)))
        have hnil : Keys (([] : List (Value × Value)).map (·.1)) := keys_nil
        simp only [merge_append]
        rw [merge_assoc hnil (hashable_of_given hinner)]
        rfl

theorem evaluate_set_union {xs : List (Element Expr)} {v : Value} :
    evaluate (.set xs) = .ok v ↔ ∃ items, evaluateElements xs = .ok items ∧
      (∀ x ∈ items, x.unhashable? = none) ∧ .set (union [] items) = v := by
  simp only [evaluate_set, bind_eq_ok, ensureAll_ok_iff, pure, Except.pure, Except.ok.injEq,
    exists_and_left, exists_const]

theorem evaluateElements_append_ok {xs ys : List (Element Expr)} {vs : List Value} :
    evaluateElements (xs ++ ys) = .ok vs ↔ ∃ us, evaluateElements xs = .ok us ∧
      ∃ ws, evaluateElements ys = .ok ws ∧ us ++ ws = vs := by
  simp only [evaluateElements_append, bind_eq_ok, pure, Except.pure, Except.ok.injEq]

theorem evaluateElements_spread_set_ok {es rest : List (Element Expr)} {vs : List Value} :
    evaluateElements (.spread (.set es) :: rest) = .ok vs ↔
      ∃ inner, evaluateElements es = .ok inner ∧ (∀ x ∈ inner, x.unhashable? = none) ∧
        ∃ ws, evaluateElements rest = .ok ws ∧ union [] inner ++ ws = vs := by
  rw [evaluateElements_spread_ok]
  constructor
  · rintro ⟨source, hsource, items, hitems, hrest⟩
    obtain ⟨inner, hinner, hhash, rfl⟩ := evaluate_set_union.mp hsource
    cases hitems
    exact ⟨inner, hinner, hhash, hrest⟩
  · rintro ⟨inner, hinner, hhash, hrest⟩
    exact ⟨_, evaluate_set_union.mpr ⟨inner, hinner, hhash, rfl⟩, _, rfl, hrest⟩

theorem evaluate_set_fused (before es after : List (Element Expr)) (v : Value) :
    evaluate (.set (before ++ .spread (.set es) :: after)) = .ok v ↔
      evaluate (.set (before ++ es ++ after)) = .ok v := by
  -- in two stages or in one, the same elements are left
  have two (front inner back : List Value) :
      union [] (front ++ (union [] inner ++ back)) = union [] (front ++ (inner ++ back)) := by
    rw [union_append, union_append, union_assoc, union_append, union_append]
    rfl
  rw [evaluate_set_union, evaluate_set_union, List.append_assoc]
  simp only [evaluateElements_append_ok, evaluateElements_spread_set_ok]
  constructor
  · rintro ⟨_, ⟨front, hfront, _, ⟨inner, hinner, hkeys, back, hback, rfl⟩, rfl⟩, hhash, rfl⟩
    refine ⟨_, ⟨front, hfront, _, ⟨inner, hinner, back, hback, rfl⟩, rfl⟩, ?_, ?_⟩
    · simp only [List.forall_mem_append] at hhash ⊢
      exact ⟨hhash.1, hkeys, hhash.2.2⟩
    · rw [two]
  · rintro ⟨_, ⟨front, hfront, _, ⟨inner, hinner, back, hback, rfl⟩, rfl⟩, hhash, rfl⟩
    simp only [List.forall_mem_append] at hhash
    refine ⟨_, ⟨front, hfront, _, ⟨inner, hinner, hhash.2.1, back, hback, rfl⟩, rfl⟩, ?_, ?_⟩
    · simp only [List.forall_mem_append]
      exact ⟨hhash.1, (keys_union keys_nil hhash.2.1).hashable, hhash.2.2⟩
    · rw [two]

/-- A spread of a display may be written as the places of that display: of a
    list or tuple in any display, of a dict in a dict, and of a set in a set, there
    up to which of several errors comes first. -/
theorem spread_fusion (before es after : List (Element Expr))
    (front entries back : List (Entry Expr)) :
    (∀ display ∈ [Expr.list, .tuple, .set], ∀ source ∈ [Expr.list es, .tuple es],
      evaluate (display (before ++ .spread source :: after)) =
        evaluate (display (before ++ es ++ after))) ∧
    evaluate (.dict (front ++ .spread (.dict entries) :: back)) =
      evaluate (.dict (front ++ entries ++ back)) ∧
    ∀ v, evaluate (.set (before ++ .spread (.set es) :: after)) = .ok v ↔
      evaluate (.set (before ++ es ++ after)) = .ok v := by
  refine ⟨?_, ?_, evaluate_set_fused before es after⟩
  · intro display hdisplay source hsource
    have hsource : source = .list es ∨ source = .tuple es := by simpa using hsource
    have hfused := evaluateElements_fused before es after hsource
    simp only [List.mem_cons, List.not_mem_nil, or_false] at hdisplay
    rcases hdisplay with rfl | rfl | rfl
    · rw [evaluate, evaluate, hfused]
    · rw [evaluate, evaluate, hfused]
    · rw [evaluate, evaluate, hfused]
  · rw [evaluate, evaluate, evaluateEntries_fused]

/-- The keys `1` and `True` are one, in its first spelling and with the value
    given last, and so they are when they come from a spread dict. -/
example :
    let first : Entry Expr := .pair (.literal (.int 1)) (.literal .null)
    let second : Entry Expr := .pair (.literal (.bool true)) (.literal (.str "a"))
    evaluate (.dict [first, second]) = .ok (.dict [(.int 1, .str "a")]) ∧
      evaluate (.dict [first, .spread (.dict [second])]) = .ok (.dict [(.int 1, .str "a")]) :=
  ⟨rfl, rfl⟩

end Calculator
