import Calculator.Evaluation
import Calculator.Grammar
import Calculator.Proofs.Value.Key

/-
  Evaluation, one step at a time. Each form of expression has a lemma that says
  what a successful evaluation of it has done, so that no later proof opens the
  evaluator. A display is a list of places, and an induction over expressions
  reaches the expressions in every place of it.

  What is proved:
    1. `Expr.induction` — what holds of an expression when it holds of all its
       parts holds of every expression.
    2. `Expr.Built.mono`, `Expr.Built.and` — what is known of the literals and of
       the set displays of an expression can be weakened and put together.
    3. `forall_evaluateElements`, `forall_evaluateEntries` — a property of all
       that the places of a display give is one of all that the display holds.
    4. `numeric_unary`, `numeric_binary` — operators give numbers.
-/

namespace Calculator

/-! ## Expressions as trees -/

/-- The expressions in a place. -/
def Element.parts {α : Type} : Element α → List α
  | .item e | .spread e => [e]

def Entry.parts {α : Type} : Entry α → List α
  | .pair key value => [key, value]
  | .spread e => [e]

theorem Expr.induction {P : Expr → Prop} (literal : ∀ v, P (.literal v))
    (unary : ∀ op e, P e → P (.unary op e))
    (binary : ∀ op l r, P l → P r → P (.binary op l r))
    (list : ∀ xs, (∀ x ∈ xs, ∀ e ∈ x.parts, P e) → P (.list xs))
    (tuple : ∀ xs, (∀ x ∈ xs, ∀ e ∈ x.parts, P e) → P (.tuple xs))
    (set : ∀ xs, (∀ x ∈ xs, ∀ e ∈ x.parts, P e) → P (.set xs))
    (dict : ∀ xs, (∀ x ∈ xs, ∀ e ∈ x.parts, P e) → P (.dict xs)) (e : Expr) : P e := by
  refine @Expr.rec P (fun xs => ∀ x ∈ xs, ∀ e ∈ x.parts, P e)
    (fun xs => ∀ x ∈ xs, ∀ e ∈ x.parts, P e) (fun x => ∀ e ∈ x.parts, P e)
    (fun x => ∀ e ∈ x.parts, P e) literal unary binary list tuple set dict ?_ ?_ ?_ ?_ ?_ ?_ ?_ ?_ e
  · exact nofun
  · exact fun x xs hx hxs => List.forall_mem_cons.mpr ⟨hx, hxs⟩
  · exact nofun
  · exact fun x xs hx hxs => List.forall_mem_cons.mpr ⟨hx, hxs⟩
  · exact fun e he => List.forall_mem_singleton.mpr he
  · exact fun e he => List.forall_mem_singleton.mpr he
  · exact fun k v hk hv => List.forall_mem_cons.mpr ⟨hk, List.forall_mem_singleton.mpr hv⟩
  · exact fun e he => List.forall_mem_singleton.mpr he

/-- All literals of the expression have one property, and the places of all its set
    displays another. -/
inductive Expr.Built (P : Value → Prop) (Q : List (Element Expr) → Prop) : Expr → Prop where
  | literal {v : Value} : P v → Built P Q (.literal v)
  | unary {op : UnaryOp} {e : Expr} : Built P Q e → Built P Q (.unary op e)
  | binary {op : BinaryOp} {l r : Expr} : Built P Q l → Built P Q r → Built P Q (.binary op l r)
  | list {xs : List (Element Expr)} :
    (∀ x ∈ xs, ∀ e ∈ x.parts, Built P Q e) → Built P Q (.list xs)
  | tuple {xs : List (Element Expr)} :
    (∀ x ∈ xs, ∀ e ∈ x.parts, Built P Q e) → Built P Q (.tuple xs)
  | set {xs : List (Element Expr)} :
    Q xs → (∀ x ∈ xs, ∀ e ∈ x.parts, Built P Q e) → Built P Q (.set xs)
  | dict {xs : List (Entry Expr)} :
    (∀ x ∈ xs, ∀ e ∈ x.parts, Built P Q e) → Built P Q (.dict xs)

/-- All literals of the expression have the property. -/
def Expr.Leaves (P : Value → Prop) (e : Expr) : Prop := e.Built P fun _ => True

namespace Expr.Built

variable {P P' : Value → Prop} {Q Q' : List (Element Expr) → Prop} {e : Expr}

theorem mono (h : e.Built P Q) (hP : ∀ v, P v → P' v) (hQ : ∀ xs, Q xs → Q' xs) :
    e.Built P' Q' := by
  induction h with
  | literal hv => exact .literal (hP _ hv)
  | unary _ ih => exact .unary ih
  | binary _ _ ihl ihr => exact .binary ihl ihr
  | list _ ih => exact .list ih
  | tuple _ ih => exact .tuple ih
  | set hxs _ ih => exact .set (hQ _ hxs) ih
  | dict _ ih => exact .dict ih

theorem and (h : e.Built P Q) (h' : e.Built P' Q') :
    e.Built (fun v => P v ∧ P' v) (fun xs => Q xs ∧ Q' xs) := by
  induction h with
  | literal hv =>
    cases h' with
    | literal hv' => exact .literal ⟨hv, hv'⟩
  | unary _ ih =>
    cases h' with
    | unary he => exact .unary (ih he)
  | binary _ _ ihl ihr =>
    cases h' with
    | binary hl hr => exact .binary (ihl hl) (ihr hr)
  | list _ ih =>
    cases h' with
    | list hparts => exact .list fun x hx e he => ih x hx e he (hparts x hx e he)
  | tuple _ ih =>
    cases h' with
    | tuple hparts => exact .tuple fun x hx e he => ih x hx e he (hparts x hx e he)
  | set hxs _ ih =>
    cases h' with
    | set hxs' hparts => exact .set ⟨hxs, hxs'⟩ fun x hx e he => ih x hx e he (hparts x hx e he)
  | dict _ ih =>
    cases h' with
    | dict hparts => exact .dict fun x hx e he => ih x hx e he (hparts x hx e he)

end Expr.Built

/-! ## Operators -/

/-- What succeeds gives a number or a truth value. -/
def Numeric (result : Except EvalError Value) : Prop :=
  ∀ v, result = .ok v → v.number?.isSome = true

theorem numeric_error (e : EvalError) : Numeric (.error e) := nofun

theorem numeric_ok {v : Value} (h : v.number?.isSome = true) : Numeric (.ok v) := by
  intro w hw
  cases hw
  exact h

theorem numeric_bind {α : Type} {x : Except EvalError α} {f : α → Except EvalError Value}
    (hf : ∀ a, Numeric (f a)) : Numeric (x >>= f) := by
  intro v h
  obtain ⟨a, _, ha⟩ := bind_eq_ok.mp h
  exact hf a v ha

theorem numeric_float (x : Except EvalError Binary64) : Numeric (.float <$> x) := by
  intro v h
  obtain ⟨a, _, rfl⟩ := map_eq_ok.mp h
  rfl

theorem numeric_fitting (op : BinaryOp) (n : Option Int64) : Numeric (fitting op n) := by
  cases n with
  | none => exact numeric_error _
  | some n => exact numeric_ok rfl

theorem numeric_arithmetic {op : BinaryOp} {onInts : Int64 → Int64 → Except EvalError Value}
    {onFloats : Binary64 → Binary64 → Except EvalError Binary64} {left right : Value}
    (hints : ∀ m n, Numeric (onInts m n)) : Numeric (arithmetic op onInts onFloats left right) := by
  refine numeric_bind fun (m, n) => ?_
  split
  · exact hints _ _
  · exact numeric_float _

theorem numeric_bitwise (op : BinaryOp) (onInts : Int64 → Int64 → Int64) (left right : Value) :
    Numeric (bitwise op onInts left right) := by
  unfold bitwise
  split
  · exact numeric_ok rfl
  · exact numeric_bind fun _ => numeric_ok rfl

theorem numeric_shift (op : BinaryOp) (onInts : Int64 → Int64 → Option Int64) (left right : Value) :
    Numeric (shift op onInts left right) := by
  refine numeric_bind fun (n, count) => ?_
  dsimp only
  split
  · exact numeric_error _
  · exact numeric_fitting op _

theorem numeric_dividedInts (op : BinaryOp) (compute : Int64 → Int64 → Option Int64) (a b : Int64) :
    Numeric (dividedInts op compute a b) := by
  unfold dividedInts
  split
  · exact numeric_error _
  · exact numeric_fitting op _

theorem numeric_intPower (base exponent : Int64) : Numeric (intPower base exponent) := by
  unfold intPower
  split
  · split
    · exact numeric_error _
    · exact numeric_ok rfl
  · exact numeric_fitting .pow _

theorem numeric_binary (op : BinaryOp) (left right : Value) : Numeric (op.apply left right) := by
  cases op <;> simp only [BinaryOp.apply]
  case add | sub | mul => exact numeric_arithmetic fun _ _ => numeric_fitting _ _
  case floorDiv | mod => exact numeric_arithmetic fun _ _ => numeric_dividedInts _ _ _ _
  case pow => exact numeric_arithmetic numeric_intPower
  case trueDiv => exact numeric_bind fun _ => numeric_float _
  case bitAnd | bitXor | bitOr => exact numeric_bitwise _ _ left right
  case shiftLeft | shiftRight => exact numeric_shift _ _ left right

theorem numeric_unary (op : UnaryOp) (operand : Value) : Numeric (op.apply operand) := by
  cases op with
  | not => exact numeric_ok rfl
  | pos =>
    simp only [UnaryOp.apply]
    split
    · exact numeric_ok rfl
    · exact numeric_ok rfl
    · exact numeric_error _
  | neg =>
    simp only [UnaryOp.apply]
    split
    · split
      · exact numeric_ok rfl
      · exact numeric_error _
    · exact numeric_ok rfl
    · exact numeric_error _
  | invert =>
    simp only [UnaryOp.apply]
    split
    · exact numeric_ok rfl
    · exact numeric_error _

/-! ## Displays -/

theorem spreadItems_ok_iff {source : Value} {items : List Value} :
    spreadItems source = .ok items ↔ source.items? = some items := by
  unfold spreadItems
  cases source.items? with
  | none => exact ⟨nofun, nofun⟩
  | some vs => exact ⟨fun h => congrArg some (Except.ok.inj h), fun h => by cases h; rfl⟩

theorem spreadEntries_ok_iff {source : Value} {entries : List (Value × Value)} :
    spreadEntries source = .ok entries ↔ source = .dict entries := by
  constructor
  · intro h
    unfold spreadEntries at h
    split at h
    · cases h
      rfl
    · cases h
  · rintro rfl
    rfl

theorem evaluateElements_item_ok {e : Expr} {rest : List (Element Expr)} {vs : List Value} :
    evaluateElements (.item e :: rest) = .ok vs ↔
      ∃ v, evaluate e = .ok v ∧ ∃ us, evaluateElements rest = .ok us ∧ v :: us = vs := by
  rw [evaluateElements]
  simp only [bind_eq_ok, pure, Except.pure, Except.ok.injEq]

theorem evaluateElements_spread_ok {e : Expr} {rest : List (Element Expr)} {vs : List Value} :
    evaluateElements (.spread e :: rest) = .ok vs ↔
      ∃ source, evaluate e = .ok source ∧ ∃ items, source.items? = some items ∧
        ∃ us, evaluateElements rest = .ok us ∧ items ++ us = vs := by
  rw [evaluateElements]
  simp only [bind_eq_ok, spreadItems_ok_iff, pure, Except.pure, Except.ok.injEq]

theorem evaluate_set_ok {xs : List (Element Expr)} {v : Value} :
    evaluate (.set xs) = .ok v ↔ ∃ items, evaluateElements xs = .ok items ∧
      ∃ kept, items.foldlM Value.insertElement [] = .ok kept ∧ .set kept = v := by
  rw [evaluate]
  simp only [bind_eq_ok, Value.setOf, map_eq_ok]

theorem evaluateEntries_pair_ok {key value : Expr} {rest : List (Entry Expr)}
    {done entries : List (Value × Value)} :
    evaluateEntries (.pair key value :: rest) done = .ok entries ↔
      ∃ k, evaluate key = .ok k ∧ ∃ v, evaluate value = .ok v ∧
        ∃ next, Value.insertEntry done (k, v) = .ok next ∧
          evaluateEntries rest next = .ok entries := by
  rw [evaluateEntries]
  simp only [bind_eq_ok]

theorem evaluateEntries_spread_ok {e : Expr} {rest : List (Entry Expr)}
    {done entries : List (Value × Value)} :
    evaluateEntries (.spread e :: rest) done = .ok entries ↔
      ∃ source, evaluate e = .ok (.dict source) ∧
        ∃ next, source.foldlM Value.insertEntry done = .ok next ∧
          evaluateEntries rest next = .ok entries := by
  rw [evaluateEntries]
  simp only [bind_eq_ok, spreadEntries_ok_iff]
  constructor
  · rintro ⟨v, hv, source, rfl, h⟩
    exact ⟨source, hv, h⟩
  · rintro ⟨source, hv, h⟩
    exact ⟨.dict source, hv, source, rfl, h⟩

/-- A property of what the places of a display give is one of all its
    elements. -/
theorem forall_evaluateElements {P : Value → Prop} {xs : List (Element Expr)} {vs : List Value}
    (h : evaluateElements xs = .ok vs)
    (hitem : ∀ e v, .item e ∈ xs → evaluate e = .ok v → P v)
    (hspread : ∀ e source items, .spread e ∈ xs → evaluate e = .ok source →
      source.items? = some items → ∀ v ∈ items, P v) :
    ∀ v ∈ vs, P v := by
  induction xs generalizing vs with
  | nil =>
    cases h
    exact nofun
  | cons x xs ih =>
    have hrest {us : List Value} (hus : evaluateElements xs = .ok us) : ∀ v ∈ us, P v :=
      ih hus (fun e v he => hitem e v (List.mem_cons_of_mem x he))
        (fun e source items he => hspread e source items (List.mem_cons_of_mem x he))
    cases x with
    | item e =>
      obtain ⟨v, hv, us, hus, rfl⟩ := evaluateElements_item_ok.mp h
      exact List.forall_mem_cons.mpr ⟨hitem e v (List.mem_cons_self ..) hv, hrest hus⟩
    | spread e =>
      obtain ⟨source, hsource, items, hitems, us, hus, rfl⟩ := evaluateElements_spread_ok.mp h
      exact List.forall_mem_append.mpr
        ⟨hspread e source items (List.mem_cons_self ..) hsource hitems, hrest hus⟩

/-- The same of the keys and values of a dict display. -/
theorem forall_evaluateEntries {P : Value → Prop} {xs : List (Entry Expr)}
    {done entries : List (Value × Value)} (h : evaluateEntries xs done = .ok entries)
    (hpair : ∀ key value, .pair key value ∈ xs → ∀ k v, evaluate key = .ok k →
      evaluate value = .ok v → P k ∧ P v)
    (hspread : ∀ e source, .spread e ∈ xs → evaluate e = .ok (.dict source) →
      ∀ entry ∈ source, P entry.1 ∧ P entry.2)
    (hdone : ∀ entry ∈ done, P entry.1 ∧ P entry.2) :
    ∀ entry ∈ entries, P entry.1 ∧ P entry.2 := by
  induction xs generalizing done with
  | nil =>
    cases h
    exact hdone
  | cons x xs ih =>
    have hrest {next : List (Value × Value)} (hnext : evaluateEntries xs next = .ok entries)
        (hall : ∀ entry ∈ next, P entry.1 ∧ P entry.2) :
        ∀ entry ∈ entries, P entry.1 ∧ P entry.2 :=
      ih hnext (fun key value he => hpair key value (List.mem_cons_of_mem x he))
        (fun e source he => hspread e source (List.mem_cons_of_mem x he)) hall
    cases x with
    | pair key value =>
      obtain ⟨k, hk, v, hv, next, hinsert, hnext⟩ := evaluateEntries_pair_ok.mp h
      obtain ⟨_, rfl⟩ := Value.insertEntry_ok_iff.mp hinsert
      obtain ⟨hkey, hvalue⟩ := hpair key value (List.mem_cons_self ..) k v hk hv
      exact hrest hnext (Value.forall_setEntry hkey hvalue hdone)
    | spread e =>
      obtain ⟨source, hsource, next, hinsert, hnext⟩ := evaluateEntries_spread_ok.mp h
      exact hrest hnext (Value.forall_foldlM_insertEntry hinsert
        (hspread e source (List.mem_cons_self ..) hsource) hdone)

end Calculator
