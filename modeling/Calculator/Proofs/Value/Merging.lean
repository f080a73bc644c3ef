import Calculator.Proofs.Value.Equality
import Calculator.Proofs.Value.Key

/-
  Sets and dicts without their errors. Inserting values one after the other
  fails on the first that is not hashable, whatever is there already; apart from
  that it is a function, `union` for sets and `merge` for dicts. The keys of a
  merged dict are the union of the keys.

  What is proved:
    1. `foldlM_insertElement_eq`, `foldlM_insertEntry_eq` — insertion is a check
       of the keys and then a union or a merge.
    2. `keys_union` — a union of keys has no two equal ones.
    3. `union_assoc`, `merge_assoc` — what is put in may be put together first.
-/

namespace Calculator.Value

/-! ## The check -/

/-- Whether all values are hashable; the error is that of the first that is not. -/
def ensureAll (items : List Value) : Except EvalError Unit :=
  match firstUnhashable? items with
  | some kind => .error (.unhashable kind)
  | none => .ok ()

theorem ensureAll_cons (x : Value) (xs : List Value) :
    ensureAll (x :: xs) = x.ensureHashable >>= fun _ => ensureAll xs := by
  rw [ensureAll, firstUnhashable?, ensureHashable]
  cases x.unhashable? with
  | some kind => rfl
  | none => rfl

theorem ensureHashable_ok_iff {v : Value} {u : Unit} :
    v.ensureHashable = .ok u ↔ v.unhashable? = none := by
  unfold ensureHashable
  cases v.unhashable? with
  | some kind => exact ⟨nofun, nofun⟩
  | none => exact ⟨fun _ => rfl, fun _ => rfl⟩

theorem ensureAll_ok_iff {items : List Value} {u : Unit} :
    ensureAll items = .ok u ↔ ∀ x ∈ items, x.unhashable? = none := by
  induction items with
  | nil => exact ⟨fun _ => nofun, fun _ => rfl⟩
  | cons x xs ih =>
    rw [ensureAll_cons, List.forall_mem_cons, ← ih, ← ensureHashable_ok_iff (u := u)]
    cases x.ensureHashable with
    | error e => exact ⟨nofun, fun h => nomatch h.1⟩
    | ok u => exact ⟨fun h => ⟨rfl, h⟩, fun h => h.2⟩

/-! ## Sets -/

/-- The elements with one more, unless an equal one is there. -/
def addElement (items : List Value) (item : Value) : List Value :=
  if items.any (·.sameKey item) then items else items ++ [item]

/-- The elements with those of a second list that are new. -/
def union (items more : List Value) : List Value := more.foldl addElement items

theorem union_cons (items : List Value) (x : Value) (xs : List Value) :
    union items (x :: xs) = union (addElement items x) xs := rfl

theorem union_append (items xs ys : List Value) :
    union items (xs ++ ys) = union (union items xs) ys :=
  List.foldl_append

theorem foldlM_insertElement_eq (items done : List Value) :
    items.foldlM insertElement done = (fun _ => union done items) <$> ensureAll items := by
  induction items generalizing done with
  | nil => rfl
  | cons x xs ih =>
    rw [List.foldlM_cons, ensureAll_cons, insertElement]
    cases x.ensureHashable with
    | error e => rfl
    | ok u => exact ih (addElement done x)

section

variable {items done acc : List Value} {item key : Value}

/-- A key is among the elements if it was before or is the one added. -/
theorem any_addElement : (addElement items item).any (·.sameKey key) =
    (items.any (·.sameKey key) || item.sameKey key) := by
  unfold addElement
  split
  · next h =>
    obtain ⟨x, hx, hsame⟩ := List.any_eq_true.mp h
    cases hkey : item.sameKey key with
    | false => rw [Bool.or_false]
    | true =>
      rw [Bool.or_true, List.any_eq_true]
      exact ⟨x, hx, sameKey_trans hsame hkey⟩
  · simp

theorem any_union : (union done items).any (·.sameKey key) =
    (done.any (·.sameKey key) || items.any (·.sameKey key)) := by
  induction items generalizing done with
  | nil => simp [union]
  | cons x xs ih => rw [union_cons, ih, any_addElement, List.any_cons, Bool.or_assoc]

theorem union_addElement : union done (addElement acc item) = addElement (union done acc) item := by
  by_cases h : acc.any (·.sameKey item) = true
  · have hunion : (union done acc).any (·.sameKey item) = true := by
      rw [any_union, h, Bool.or_true]
    rw [addElement, addElement, if_pos h, if_pos hunion]
  · rw [addElement, if_neg h, union, List.foldl_append]
    rfl

theorem union_assoc : union done (union acc items) = union (union done acc) items := by
  induction items generalizing acc with
  | nil => rfl
  | cons x xs ih => rw [union_cons, union_cons, ih, union_addElement]

theorem keys_nil : Keys [] := ⟨by simp, .nil⟩

theorem keys_addElement (h : Keys items) (hitem : item.unhashable? = none) :
    Keys (addElement items item) := by
  unfold addElement
  split
  · exact h
  · next hnew =>
    refine ⟨?_, List.pairwise_append.mpr ⟨h.distinct, List.pairwise_singleton .., ?_⟩⟩
    · exact List.forall_mem_append.mpr ⟨h.hashable, List.forall_mem_singleton.mpr hitem⟩
    · intro x hx y hy
      rw [List.mem_singleton.mp hy]
      exact Bool.eq_false_iff.mpr fun hsame => hnew (List.any_eq_true.mpr ⟨x, hx, hsame⟩)

theorem keys_union (hdone : Keys done) (hitems : ∀ x ∈ items, x.unhashable? = none) :
    Keys (union done items) := by
  induction items generalizing done with
  | nil => exact hdone
  | cons x xs ih =>
    obtain ⟨hx, hxs⟩ := List.forall_mem_cons.mp hitems
    exact ih (keys_addElement hdone hx) hxs

end

/-! ## Dicts -/

/-- The entries with those of a second list put in. -/
def merge (entries more : List (Value × Value)) : List (Value × Value) :=
  more.foldl (fun done entry => setEntry entry.1 entry.2 done) entries

theorem merge_cons (entries : List (Value × Value)) (entry : Value × Value)
    (more : List (Value × Value)) :
    merge entries (entry :: more) = merge (setEntry entry.1 entry.2 entries) more := rfl

theorem merge_append (entries es fs : List (Value × Value)) :
    merge entries (es ++ fs) = merge (merge entries es) fs :=
  List.foldl_append

theorem foldlM_insertEntry_eq (source done : List (Value × Value)) :
    source.foldlM insertEntry done =
      (fun _ => merge done source) <$> ensureAll (source.map (·.1)) := by
  induction source generalizing done with
  | nil => rfl
  | cons entry more ih =>
    rw [List.foldlM_cons, List.map_cons, ensureAll_cons, insertEntry]
    cases entry.1.ensureHashable with
    | error e => rfl
    | ok u => exact ih (setEntry entry.1 entry.2 done)

section

variable {done acc source entries : List (Value × Value)} {j k u v : Value}

theorem map_setEntry : (setEntry k v entries).map (·.1) = addElement (entries.map (·.1)) k := by
  induction entries with
  | nil => rfl
  | cons e es ih =>
    obtain ⟨i, w⟩ := e
    cases h : i.sameKey k with
    | true => simp [setEntry, addElement, h]
    | false =>
      simp only [setEntry, h, Bool.false_eq_true, if_false, List.map_cons, ih, addElement,
        List.any_cons, Bool.false_or]
      split
      · rfl
      · rfl

theorem map_merge : (merge done source).map (·.1) = union (done.map (·.1)) (source.map (·.1)) := by
  induction source generalizing done with
  | nil => rfl
  | cons e es ih => rw [merge_cons, ih, map_setEntry, List.map_cons, union_cons]

/-- A value given again replaces the one given before. -/
theorem setEntry_setEntry (h : j.sameKey k = true) :
    setEntry k v (setEntry j u entries) = setEntry j v entries := by
  induction entries with
  | nil => simp [setEntry, h]
  | cons e es ih =>
    obtain ⟨i, w⟩ := e
    have hcongr := sameKey_congr h i
    cases hi : i.sameKey k with
    | true => simp [setEntry, hcongr, hi]
    | false => simp [setEntry, hcongr, hi, ih]

/-- Different keys, of which one is there, may be given in either order. -/
theorem setEntry_comm (hjk : j.sameKey k = false)
    (hk : (entries.map (·.1)).any (·.sameKey k) = true) :
    setEntry k v (setEntry j u entries) = setEntry j u (setEntry k v entries) := by
  induction entries with
  | nil => cases hk
  | cons e es ih =>
    obtain ⟨i, w⟩ := e
    cases hij : i.sameKey j with
    | true =>
      have hik : i.sameKey k = false := by
        rw [← hjk, sameKey_comm i k, sameKey_comm j k]
        exact sameKey_congr hij k
      simp [setEntry, hij, hik]
    | false =>
      cases hik : i.sameKey k with
      | true => simp [setEntry, hij, hik]
      | false =>
        rw [List.map_cons, List.any_cons, hik, Bool.false_or] at hk
        simp [setEntry, hij, hik, ih hk]

/-- A key that is there already may be given before others that differ from it. -/
theorem setEntry_merge (hk : (done.map (·.1)).any (·.sameKey k) = true)
    (hnew : ∀ e ∈ acc, e.1.sameKey k = false) :
    setEntry k v (merge done acc) = merge (setEntry k v done) acc := by
  induction acc generalizing done with
  | nil => rfl
  | cons e es ih =>
    obtain ⟨he, hes⟩ := List.forall_mem_cons.mp hnew
    have hthere : ((setEntry e.1 e.2 done).map (·.1)).any (·.sameKey k) = true := by
      rw [map_setEntry, any_addElement, hk, Bool.true_or]
    rw [merge_cons, merge_cons, ih hthere hes, setEntry_comm he hk]

theorem merge_setEntry (hacc : Keys (acc.map (·.1))) :
    merge done (setEntry k v acc) = setEntry k v (merge done acc) := by
  induction acc generalizing done with
  | nil => rfl
  | cons e es ih =>
    obtain ⟨j, u⟩ := e
    obtain ⟨hfirst, hrest⟩ := List.pairwise_cons.mp hacc.distinct
    cases hjk : j.sameKey k with
    | true =>
      have hnew : ∀ e ∈ es, e.1.sameKey k = false := fun e he => by
        rw [← sameKey_congr hjk, sameKey_comm]
        exact hfirst e.1 (List.mem_map_of_mem he)
      have hthere : ((setEntry j u done).map (·.1)).any (·.sameKey k) = true := by
        rw [map_setEntry, any_addElement, hjk, Bool.or_true]
      rw [setEntry, hjk, if_pos rfl, merge_cons, merge_cons, setEntry_merge hthere hnew,
        setEntry_setEntry hjk]
    | false =>
      have hkeys : Keys (es.map (·.1)) :=
        ⟨fun x hx => hacc.hashable x (List.mem_cons_of_mem _ hx), hrest⟩
      rw [setEntry, hjk, if_neg Bool.false_ne_true, merge_cons, merge_cons, ih hkeys]

theorem merge_assoc (hacc : Keys (acc.map (·.1)))
    (hsource : ∀ e ∈ source, e.1.unhashable? = none) :
    merge done (merge acc source) = merge (merge done acc) source := by
  induction source generalizing acc with
  | nil => rfl
  | cons e es ih =>
    obtain ⟨he, hes⟩ := List.forall_mem_cons.mp hsource
    have hkeys : Keys ((setEntry e.1 e.2 acc).map (·.1)) := by
      rw [map_setEntry]
      exact keys_addElement hacc he
    rw [merge_cons, merge_cons, ih hkeys hes, merge_setEntry hacc]

end

end Calculator.Value
