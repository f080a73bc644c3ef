import Calculator.Binary64

/-
  The values of expressions. Integers are 64 bits wide and signed; containers
  keep the order in which they were filled.

  What is proved: `checked_eq_some_iff` — an exact result is kept if and only
  if it fits, and then it is kept unchanged.
-/

namespace Calculator

inductive Value where
  | null
  | bool (b : Bool)
  | int (n : Int64)
  | float (x : Binary64)
  | str (s : String)
  | list (items : List Value)
  | tuple (items : List Value)
  | set (items : List Value)
  | dict (entries : List (Value × Value))

/-- The sorts of values. -/
inductive Kind where
  | null
  | bool
  | int
  | float
  | str
  | list
  | tuple
  | set
  | dict
  deriving DecidableEq, Repr

/-- The name of a sort of values, as messages give it. -/
def Kind.name : Kind → String
  | .null => "NoneType"
  | .bool => "bool"
  | .int => "int"
  | .float => "float"
  | .str => "str"
  | .list => "list"
  | .tuple => "tuple"
  | .set => "set"
  | .dict => "dict"

/-- An exact integer as a 64-bit one, if it fits. -/
def checked (n : Int) : Option Int64 :=
  if Int64.minValue.toInt ≤ n ∧ n ≤ Int64.maxValue.toInt then some (Int64.ofInt n) else none

theorem checked_eq_some_iff {n : Int} {i : Int64} : checked n = some i ↔ i.toInt = n := by
  constructor
  · intro h
    unfold checked at h
    split at h
    · next hn =>
      obtain rfl := Option.some.inj h
      rw [Int64.toInt_minValue, Int64.toInt_maxValue] at hn
      exact Int64.toInt_ofInt_of_le hn.1 (by omega)
    · cases h
  · rintro rfl
    rw [checked, if_pos ⟨Int64.minValue_le_toInt i, Int64.toInt_le i⟩, Int64.ofInt_toInt]

theorem checked_eq_none_iff {n : Int} :
    checked n = none ↔ n < Int64.minValue.toInt ∨ Int64.maxValue.toInt < n := by
  unfold checked
  split
  · next h => exact ⟨(nomatch ·), fun h' => by omega⟩
  · next h => exact ⟨fun _ => by omega, fun _ => rfl⟩

/-- A numeric operand. A truth value counts as the integer 0 or 1. -/
inductive Number where
  | int (n : Int64)
  | float (x : Binary64)

def Number.toBinary64 : Number → Binary64
  | .int n => .ofInt n.toInt
  | .float x => x

namespace Value

def kind : Value → Kind
  | .null => .null
  | .bool _ => .bool
  | .int _ => .int
  | .float _ => .float
  | .str _ => .str
  | .list _ => .list
  | .tuple _ => .tuple
  | .set _ => .set
  | .dict _ => .dict

/-- Zero, the empty text, empty containers and `null` are not true; NaN is. -/
def truthy : Value → Bool
  | .null => false
  | .bool b => b
  | .int n => n != 0
  | .float x => !x.isZero
  | .str s => !s.isEmpty
  | .list items | .tuple items | .set items => !items.isEmpty
  | .dict entries => !entries.isEmpty

/-- The value as an integer, if it is one or a truth value. -/
def int? : Value → Option Int64
  | .int n => some n
  | .bool b => some (if b then 1 else 0)
  | _ => none

def number? : Value → Option Number
  | .float x => some (.float x)
  | v => v.int?.map .int

/-- The value as an integer, if it is a whole number that fits. -/
def integral? : Value → Option Int64
  | .float x => x.toInt?.bind checked
  | v => v.int?

/-- What iterating over the value gives: the elements of a container, the keys
    of a dict, the characters of a string. -/
def items? : Value → Option (List Value)
  | .list items | .tuple items | .set items => some items
  | .dict entries => some (entries.map (·.1))
  | .str s => some (s.toList.map fun c => .str (String.singleton c))
  | _ => none

end Value

end Calculator
