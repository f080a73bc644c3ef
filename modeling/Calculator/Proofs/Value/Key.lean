import Calculator.Value.Key

/-
  Insertion into sets and dicts.

  What is proved:
    1. `setOf_keys` and `insertEntry_new` — keys that are not there yet are put
       at the end, in the order in which they come.
    2. `foldlM_insertElement_sublist` — a set holds what was put into it, in
       that order, and nothing else.
    3. `forall_foldlM_insertEntry` — a dict holds keys and values that were put
       into it, and no others.
-/

namespace Calculator.Value

/-- What the elements of a set and the keys of a dict are. -/
structure Keys (keys : List Value) : Prop where
  hashable : ∀ k ∈ keys, k.unhashable? = none
  distinct : keys.Pairwise fun k l => k.sameKey l = false

theorem keys_append_cons {before after : List Value} {key : Value}
    (h : Keys (before ++ key :: after)) :
    key.unhashable? = none ∧ ∀ k ∈ before, k.sameKey key = false :=
  ⟨h.hashable key (by simp),
    fun k hk => (List.pairwise_append.mp h.distinct).2.2 k hk key (List.mem_cons_self ..)⟩

theorem insertElement_new {items : List Value} {item : Value} (hhash : item.unhashable? = none)
    (hnew : ∀ x ∈ items, x.sameKey item = false) :
    insertElement items item = .ok (items ++ [item]) := by
  have hany : items.any (·.sameKey item) = false := by
    rw [List.any_eq_false]
    intro x hx
    simp [hnew x hx]
  rw [insertElement_ok_iff]
  exact ⟨hhash, by simp [hany]⟩

theorem foldlM_insertElement {items done : List Value} (h : Keys (done ++ items)) :
    items.foldlM insertElement done = .ok (done ++ items) := by
  induction items generalizing done with
  | nil =>
    rw [List.append_nil]
    rfl
  | cons x xs ih =>
    obtain ⟨hhash, hnew⟩ := keys_append_cons h
    rw [List.append_cons] at h ⊢
    rw [List.foldlM_cons, insertElement_new hhash hnew]
    exact ih h

theorem setOf_keys {items : List Value} (h : Keys items) : setOf items = .ok (.set items) := by
  rw [setOf, foldlM_insertElement (by rwa [List.nil_append])]
  rfl

theorem setEntry_new {entries : List (Value × Value)} {key value : Value}
    (hnew : ∀ k ∈ entries.map (·.1), k.sameKey key = false) :
    setEntry key value entries = entries ++ [(key, value)] := by
  induction entries with
  | nil => rfl
  | cons e es ih =>
    obtain ⟨k, v⟩ := e
    have hk : k.sameKey key = false := hnew k (List.mem_cons_self ..)
    rw [setEntry, hk, ih fun l hl => hnew l (List.mem_cons_of_mem k hl)]
    rfl

theorem insertEntry_new {entries : List (Value × Value)} {key value : Value}
    (hhash : key.unhashable? = none) (hnew : ∀ k ∈ entries.map (·.1), k.sameKey key = false) :
    insertEntry entries (key, value) = .ok (entries ++ [(key, value)]) := by
  rw [insertEntry, ensureHashable, hhash, setEntry_new hnew]
  rfl

/-! ## What is kept -/

theorem foldlM_insertElement_sublist {items done kept : List Value}
    (h : items.foldlM insertElement done = .ok kept) : kept.Sublist (done ++ items) := by
  induction items generalizing done with
  | nil =>
    cases h
    exact List.sublist_append_left _ []
  | cons x xs ih =>
    rw [List.foldlM_cons] at h
    cases hinsert : insertElement done x with
    | error e =>
      rw [hinsert] at h
      cases h
    | ok next =>
      rw [hinsert] at h
      have hnext : next.Sublist (done ++ [x]) := by
        rw [(insertElement_ok_iff.mp hinsert).2]
        split
        · exact List.sublist_append_left done [x]
        · exact List.Sublist.refl _
      rw [List.append_cons]
      exact (ih h).trans (hnext.append_right xs)

theorem insertEntry_ok_iff {entries next : List (Value × Value)} {entry : Value × Value} :
    insertEntry entries entry = .ok next ↔
      entry.1.unhashable? = none ∧ setEntry entry.1 entry.2 entries = next := by
  unfold insertEntry ensureHashable
  cases entry.1.unhashable? with
  | none => exact ⟨fun h => ⟨rfl, Except.ok.inj h⟩, fun h => congrArg Except.ok h.2⟩
  | some kind => exact ⟨nofun, nofun⟩

theorem foldlM_insertEntry_cons_ok {entry : Value × Value}
    {source done next : List (Value × Value)} :
    (entry :: source).foldlM insertEntry done = .ok next ↔ entry.1.unhashable? = none ∧
      source.foldlM insertEntry (setEntry entry.1 entry.2 done) = .ok next := by
  rw [List.foldlM_cons]
  constructor
  · intro h
    cases hinsert : insertEntry done entry with
    | error e =>
      rw [hinsert] at h
      cases h
    | ok mid =>
      rw [hinsert] at h
      obtain ⟨hhash, rfl⟩ := insertEntry_ok_iff.mp hinsert
      exact ⟨hhash, h⟩
  · intro h
    rw [insertEntry_ok_iff.mpr ⟨h.1, rfl⟩]
    exact h.2

theorem forall_setEntry {P : Value → Prop} {key value : Value} {entries : List (Value × Value)}
    (hkey : P key) (hvalue : P value) (h : ∀ e ∈ entries, P e.1 ∧ P e.2) :
    ∀ e ∈ setEntry key value entries, P e.1 ∧ P e.2 := by
  induction entries with
  | nil => exact List.forall_mem_singleton.mpr ⟨hkey, hvalue⟩
  | cons head tail ih =>
    obtain ⟨k, v⟩ := head
    obtain ⟨hhead, htail⟩ := List.forall_mem_cons.mp h
    rw [setEntry]
    split
    · exact List.forall_mem_cons.mpr ⟨⟨hhead.1, hvalue⟩, htail⟩
    · exact List.forall_mem_cons.mpr ⟨hhead, ih htail⟩

theorem forall_foldlM_insertEntry {P : Value → Prop} {source done next : List (Value × Value)}
    (h : source.foldlM insertEntry done = .ok next) (hsource : ∀ e ∈ source, P e.1 ∧ P e.2)
    (hdone : ∀ e ∈ done, P e.1 ∧ P e.2) : ∀ e ∈ next, P e.1 ∧ P e.2 := by
  induction source generalizing done with
  | nil =>
    cases h
    exact hdone
  | cons entry source ih =>
    obtain ⟨hentry, hsource⟩ := List.forall_mem_cons.mp hsource
    exact ih (foldlM_insertEntry_cons_ok.mp h).2 hsource
      (forall_setEntry hentry.1 hentry.2 hdone)

end Calculator.Value
