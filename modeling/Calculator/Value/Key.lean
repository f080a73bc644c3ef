import Calculator.EvalError

/-
  Values as set elements and dict keys. Numbers are the same key when they
  are the same number, whatever their kind, and tuples when their parts are;
  lists, sets and dicts are never keys.

  Sets and dicts are built by insertion. A set keeps the first of several
  equal elements. A dict keeps a key where and as it was first written, with
  the value given last.
-/

namespace Calculator

/-- Whether two numbers are the same number. A whole floating-point number is
    compared with an integer as an integer, without rounding either. -/
def Number.equal : Number → Number → Bool
  | .int m, .int n => m == n
  | .float x, .float y => x.equal y
  | .int n, .float x | .float x, .int n => x.toInt? == some n.toInt

namespace Value

mutual

/-- Whether two values are the same set element or dict key. -/
def sameKey : Value → Value → Bool
  | .null, .null => true
  | .str s, .str t => s == t
  | .tuple xs, .tuple ys => sameKeys xs ys
  | v, w =>
    match v.number?, w.number? with
    | some m, some n => m.equal n
    | _, _ => false

/-- Part by part, for tuples of the same length. -/
def sameKeys : List Value → List Value → Bool
  | [], [] => true
  | x :: xs, y :: ys => sameKey x y && sameKeys xs ys
  | _, _ => false

end

mutual

/-- The first list, set or dict met in a value, looking into tuples from left
    to right. -/
def unhashable? : Value → Option Kind
  | .list _ => some .list
  | .set _ => some .set
  | .dict _ => some .dict
  | .tuple items => firstUnhashable? items
  | _ => none

/-- The first one among several values. -/
def firstUnhashable? : List Value → Option Kind
  | [] => none
  | x :: xs => (unhashable? x).or (firstUnhashable? xs)

end

/-- Only a value without lists, sets and dicts may be a key. -/
def ensureHashable (v : Value) : Except EvalError Unit :=
  match v.unhashable? with
  | some kind => .error (.unhashable kind)
  | none => .ok ()

/-- The elements of a set with one more, unless an equal one is there. -/
def insertElement (items : List Value) (item : Value) : Except EvalError (List Value) := do
  item.ensureHashable
  return if items.any (·.sameKey item) then items else items ++ [item]

/-- The entries with the value at a key replaced, the first key equal to it
    keeping its place and spelling, or with a new entry at the end. -/
def setEntry (key value : Value) : List (Value × Value) → List (Value × Value)
  | [] => [(key, value)]
  | (k, v) :: entries =>
    if k.sameKey key then (k, value) :: entries else (k, v) :: setEntry key value entries

def insertEntry (entries : List (Value × Value)) (entry : Value × Value) :
    Except EvalError (List (Value × Value)) := do
  entry.1.ensureHashable
  return setEntry entry.1 entry.2 entries

/-- The set of the given elements. -/
def setOf (items : List Value) : Except EvalError Value :=
  .set <$> items.foldlM insertElement []

theorem insertElement_ok_iff {items : List Value} {item : Value} {r : List Value} :
    insertElement items item = .ok r ↔ item.unhashable? = none ∧
      r = if items.any (·.sameKey item) then items else items ++ [item] := by
  unfold insertElement ensureHashable
  cases item.unhashable? with
  | none => exact ⟨fun h => ⟨rfl, (Except.ok.inj h).symm⟩, fun h => congrArg Except.ok h.2.symm⟩
  | some kind => exact ⟨(nomatch ·), fun h => nomatch h.1⟩

end Value

end Calculator
