import Calculator.Proofs.Displays
import Mathlib.Data.List.Induction

/-
  Set and dict displays by the whole of what is put into them. The evaluator looks
  only at what it has kept and replaces values in place; here a value is compared
  with all that came before it, kept or not, and takes the value that is given last.

  What is proved:
    1. `unhashable?_eq` — what makes a value unhashable is its first part that is a
       list, set or dict.
    2. `union_eq_firsts` — a set keeps the values that are no repetition of one before.
    3. `merge_eq_latest` — a dict keeps the same of its keys, each with its last value.
    4. `evaluate_displays` — the same of the displays.
-/

namespace Calculator

namespace Value

/-! ## Parts that are not hashable -/

mutual

/-- The parts of a value that are no tuples, in the order in which they are written. -/
def leaves : Value → List Value
  | .tuple items => leavesOf items
  | v => [v]

def leavesOf : List Value → List Value
  | [] => []
  | x :: xs => leaves x ++ leavesOf xs

end

/-- The kind of a list, set or dict. -/
def container? (v : Value) : Option Kind :=
  if v.kind ∈ [.list, .set, .dict] then some v.kind else none

mutual

theorem unhashable?_eq (v : Value) : v.unhashable? = v.leaves.findSome? container? := by
  cases v with
  | tuple items => exact firstUnhashable?_eq items
  | _ => rfl

theorem firstUnhashable?_eq (vs : List Value) :
    firstUnhashable? vs = (leavesOf vs).findSome? container? := by
  cases vs with
  | nil => rfl
  | cons x xs =>
    have hx := unhashable?_eq x
    have hxs := firstUnhashable?_eq xs
    rw [firstUnhashable?, leavesOf, List.findSome?_append, hx, hxs]

end

theorem firstUnhashable?_eq_findSome? (vs : List Value) :
    firstUnhashable? vs = vs.findSome? unhashable? := by
  induction vs with
  | nil => rfl
  | cons x xs ih =>
    rw [firstUnhashable?, ih, List.findSome?_cons]
    cases x.unhashable? with
    | some kind => rfl
    | none => rfl

/-! ## First occurrences -/

section

variable {α : Type} {key : α → Value} {xs : List α} {x : α}

/-- The parts of a sequence, with their indices, that have a key which no part before
    them has. -/
def firstsBy (key : α → Value) (xs : List α) : List (α × Nat) :=
  xs.zipIdx.filter fun (x, i) => !(xs.take i).any fun y => (key y).sameKey (key x)

theorem lt_of_mem_firstsBy {i : Nat} (h : (x, i) ∈ firstsBy key xs) : i < xs.length :=
  List.snd_lt_of_mem_zipIdx (List.mem_filter.mp h).1

theorem firstsBy_concat : firstsBy key (xs ++ [x]) = firstsBy key xs ++
    if xs.any fun y => (key y).sameKey (key x) then [] else [(x, xs.length)] := by
  have hbefore : xs.zipIdx.filter
        (fun (y, i) => !((xs ++ [x]).take i).any fun z => (key z).sameKey (key y)) =
      firstsBy key xs := by
    refine List.filter_congr fun (y, i) hy => ?_
    have hi : i < xs.length := List.snd_lt_of_mem_zipIdx hy
    simp only [List.take_append_of_le_length (Nat.le_of_lt hi)]
  rw [firstsBy, List.zipIdx_append, List.filter_append, hbefore]
  congr 1
  cases h : xs.any fun y => (key y).sameKey (key x) <;> simp [h]

end

/-- The values that no value before them is the same key as, in their order. -/
def firsts (xs : List Value) : List Value := (firstsBy id xs).map (·.1)

theorem firsts_concat (xs : List Value) (x : Value) :
    firsts (xs ++ [x]) = firsts xs ++ if xs.any (·.sameKey x) then [] else [x] := by
  rw [firsts, firstsBy_concat, List.map_append]
  congr 1
  simp only [id]
  split <;> rfl

theorem union_eq_firsts (xs : List Value) : union [] xs = firsts xs := by
  induction xs using List.reverseRecOn with
  | nil => rfl
  | append_singleton xs x ih =>
    -- what has been kept has the key if and only if what came before has it
    have hkept : (firsts xs).any (·.sameKey x) = xs.any (·.sameKey x) := by
      rw [← ih, any_union, List.any_nil, Bool.false_or]
    rw [union_append, ih, firsts_concat]
    show addElement (firsts xs) x = _
    rw [addElement, hkept]
    split
    · rw [List.append_nil]
    · rfl

/-! ## Last values -/

/-- The value of the last pair that is the one at the index or has the same key. -/
def lastValue (ps : List (Value × Value)) (p : Value × Value) (i : Nat) : Value :=
  ((ps.zipIdx.filter fun (q, j) => j = i || q.1.sameKey p.1).getLastD (p, i)).1.2

/-- The keys of the pairs in the order in which they come first, as they are written
    there, each with its last value. -/
def latest (ps : List (Value × Value)) : List (Value × Value) :=
  (firstsBy (·.1) ps).map fun (p, i) => (p.1, lastValue ps p i)

theorem lastValue_concat {ps : List (Value × Value)} {p : Value × Value} {i : Nat}
    (hi : i < ps.length) (q : Value × Value) :
    lastValue (ps ++ [q]) p i = if q.1.sameKey p.1 then q.2 else lastValue ps p i := by
  have hother : ps.length ≠ i := by omega
  rw [lastValue, List.zipIdx_append, List.filter_append]
  cases h : q.1.sameKey p.1 with
  | true => simp [h]
  | false => simp [h, hother, lastValue]

theorem lastValue_length (ps : List (Value × Value)) (p : Value × Value) :
    lastValue (ps ++ [p]) p ps.length = p.2 := by
  rw [lastValue, List.zipIdx_append, List.filter_append]
  simp

theorem latest_concat (ps : List (Value × Value)) (p : Value × Value) :
    latest (ps ++ [p]) =
      (latest ps).map (fun e => if p.1.sameKey e.1 then (e.1, p.2) else e) ++
        if ps.any (·.1.sameKey p.1) then [] else [p] := by
  have hbefore : (firstsBy (·.1) ps).map (fun (q, i) => (q.1, lastValue (ps ++ [p]) q i)) =
      (latest ps).map fun e => if p.1.sameKey e.1 then (e.1, p.2) else e := by
    rw [latest, List.map_map]
    refine List.map_congr_left fun (q, i) hq => ?_
    simp only [Function.comp, lastValue_concat (lt_of_mem_firstsBy hq) p]
    split <;> rfl
  rw [latest, firstsBy_concat, List.map_append, hbefore]
  congr 1
  split
  · rfl
  · exact congrArg (fun v => [(p.1, v)]) (lastValue_length ps p)

/-- With different keys there is only one that can get the value. -/
theorem setEntry_eq_map {entries : List (Value × Value)} (k v : Value)
    (hdistinct : (entries.map (·.1)).Pairwise fun i j => i.sameKey j = false) :
    setEntry k v entries =
      entries.map (fun e => if k.sameKey e.1 then (e.1, v) else e) ++
        if (entries.map (·.1)).any (·.sameKey k) then [] else [(k, v)] := by
  induction entries with
  | nil => rfl
  | cons e es ih =>
    obtain ⟨i, w⟩ := e
    obtain ⟨hfirst, hrest⟩ := List.pairwise_cons.mp hdistinct
    cases hi : i.sameKey k with
    | true =>
      have hothers : es.map (fun e => if k.sameKey e.1 then (e.1, v) else e) = es := by
        refine (List.map_congr_left fun e he => ?_).trans (List.map_id es)
        have hdiffers : k.sameKey e.1 = false := by
          rw [sameKey_comm, ← sameKey_congr hi, sameKey_comm]
          exact hfirst e.1 (List.mem_map_of_mem he)
        simp [hdiffers]
      simp [setEntry, hi, sameKey_comm k i, hothers]
    | false =>
      have hany : (((i, w) :: es).map (·.1)).any (·.sameKey k) =
          (es.map (·.1)).any (·.sameKey k) := by
        rw [List.map_cons, List.any_cons, hi, Bool.false_or]
      rw [hany]
      simp [setEntry, hi, sameKey_comm k i, ih hrest]

theorem merge_eq_latest {ps : List (Value × Value)} (h : ∀ p ∈ ps, p.1.unhashable? = none) :
    merge [] ps = latest ps := by
  induction ps using List.reverseRecOn with
  | nil => rfl
  | append_singleton ps p ih =>
    obtain ⟨hps, -⟩ := List.forall_mem_append.mp h
    have hkeys : (merge [] ps).map (·.1) = union [] (ps.map (·.1)) := map_merge
    have hdistinct : ((merge [] ps).map (·.1)).Pairwise fun i j => i.sameKey j = false := by
      rw [hkeys]
      exact (keys_union keys_nil (List.forall_mem_map.mpr hps)).distinct
    have hthere : ((merge [] ps).map (·.1)).any (·.sameKey p.1) = ps.any (·.1.sameKey p.1) := by
      rw [hkeys, any_union, List.any_nil, Bool.false_or, List.any_map]
      rfl
    rw [merge_append, latest_concat, ← ih hps, ← hthere]
    exact setEntry_eq_map p.1 p.2 hdistinct

end Value

/-! ## Displays -/

open Value

/-- All elements of a display evaluate and, with spreads inlined, give the values. -/
inductive Gives : List (Element Expr) → List Value → Prop where
  | nil : Gives [] []
  | item {e : Expr} {rest : List (Element Expr)} {v : Value} {vs : List Value} :
    evaluate e = .ok v → Gives rest vs → Gives (.item e :: rest) (v :: vs)
  | spread {e : Expr} {rest : List (Element Expr)} {source : Value} {items vs : List Value} :
    evaluate e = .ok source → source.items? = some items → Gives rest vs →
      Gives (.spread e :: rest) (items ++ vs)

/-- The same for the entries of a dict display. -/
inductive GivesEntries : List (Entry Expr) → List (Value × Value) → Prop where
  | nil : GivesEntries [] []
  | pair {key value : Expr} {rest : List (Entry Expr)} {k v : Value}
    {ps : List (Value × Value)} :
    evaluate key = .ok k → evaluate value = .ok v → GivesEntries rest ps →
      GivesEntries (.pair key value :: rest) ((k, v) :: ps)
  | spread {e : Expr} {rest : List (Entry Expr)} {source ps : List (Value × Value)} :
    evaluate e = .ok (.dict source) → GivesEntries rest ps →
      GivesEntries (.spread e :: rest) (source ++ ps)

theorem Gives.evaluated {elements : List (Element Expr)} {xs : List Value}
    (h : Gives elements xs) : evaluateElements elements = .ok xs := by
  induction h with
  | nil => rfl
  | item hv _ ih => exact evaluateElements_item_ok.mpr ⟨_, hv, _, ih, rfl⟩
  | spread hsource hitems _ ih =>
    exact evaluateElements_spread_ok.mpr ⟨_, hsource, _, hitems, _, ih, rfl⟩

theorem GivesEntries.given {entries : List (Entry Expr)} {ps : List (Value × Value)}
    (h : GivesEntries entries ps) (hkeys : ∀ p ∈ ps, p.1.unhashable? = none) :
    givenEntries entries = .ok ps := by
  induction h with
  | nil => rfl
  | @pair key value rest k v ps hk hv _ ih =>
    obtain ⟨hhash, hrest⟩ := List.forall_mem_cons.mp hkeys
    have hok : k.ensureHashable = .ok () := ensureHashable_ok_iff.mpr hhash
    simp only [givenEntries, bind_eq_ok]
    exact ⟨k, hk, v, hv, (), hok, ps, ih hrest, rfl⟩
  | @spread e rest source ps hsource _ ih =>
    obtain ⟨hhash, hrest⟩ := List.forall_mem_append.mp hkeys
    have hok : ensureAll (source.map (·.1)) = .ok () :=
      ensureAll_ok_iff.mpr (List.forall_mem_map.mpr hhash)
    simp only [givenEntries, bind_eq_ok]
    exact ⟨_, hsource, source, rfl, (), hok, ps, ih hrest, rfl⟩

/-- A set display has all values that no value before them is equal to; an unhashable
    one is an error, named by the first list, set or dict in it. A dict display has
    the keys that no key before them is equal to, each with its last value. -/
theorem evaluate_displays :
    (∀ elements xs, Gives elements xs →
      evaluate (.set elements) =
        match xs.findSome? fun x => x.leaves.findSome? container? with
        | some kind => .error (.unhashable kind)
        | none => .ok (.set (firsts xs))) ∧
    ∀ entries ps, GivesEntries entries ps →
      (∀ p ∈ ps, p.1.leaves.findSome? container? = none) →
      evaluate (.dict entries) = .ok (.dict (latest ps)) := by
  constructor
  · intro elements xs h
    have hhash : (fun x : Value => x.leaves.findSome? container?) = unhashable? :=
      funext fun x => (unhashable?_eq x).symm
    rw [evaluate_set, h.evaluated, hhash]
    show (ensureAll xs >>= fun _ => Except.ok (Value.set (union [] xs))) = _
    rw [ensureAll, firstUnhashable?_eq_findSome?, union_eq_firsts]
    cases xs.findSome? unhashable? with
    | some kind => rfl
    | none => rfl
  · intro entries ps h hkeys
    have hhash : ∀ p ∈ ps, p.1.unhashable? = none := fun p hp =>
      (unhashable?_eq p.1).trans (hkeys p hp)
    rw [evaluate, evaluateEntries_eq, h.given hhash]
    exact congrArg (fun entries => Except.ok (Value.dict entries)) (merge_eq_latest hhash)

/-- In `{1, *(True, 'a'), 1.0}` there is one number, and in `{1: 'a', **{True: 'b'}}`
    one key. -/
theorem evaluate_displays_spread :
    let one : Expr := .literal (.int 1)
    let yes : Expr := .literal (.bool true)
    let a : Expr := .literal (.str "a")
    let b : Expr := .literal (.str "b")
    evaluate (.set [.item one, .spread (.tuple [.item yes, .item a]),
        .item (.literal (.float .one))]) = .ok (.set [.int 1, .str "a"]) ∧
      evaluate (.dict [.pair one a, .spread (.dict [.pair yes b])]) =
        .ok (.dict [(.int 1, .str "b")]) := by
  intro one yes a b
  have hset : Gives [.item one, .spread (.tuple [.item yes, .item a]),
      .item (.literal (.float .one))] (.int 1 :: ([.bool true, .str "a"] ++ [.float .one])) :=
    .item rfl (.spread rfl rfl (.item rfl .nil))
  have hdict : GivesEntries [.pair one a, .spread (.dict [.pair yes b])]
      ((.int 1, .str "a") :: ([(.bool true, .str "b")] ++ [])) :=
    .pair rfl rfl (.spread rfl .nil)
  exact ⟨evaluate_displays.1 _ _ hset, evaluate_displays.2 _ _ hdict (by decide)⟩

end Calculator
