import Calculator.Binary64.Arithmetic
import Calculator.EvalError

/-
  What the operators compute. On integers they work in 64 bits and report a
  result that does not fit; an operation with a floating-point operand is done
  in floating point. Truth values count as 0 and 1, except that a bitwise
  operation on two of them gives a truth value.

  What is proved: `checkedPow_eq` — deciding early that a power cannot fit
  changes no result.
-/

namespace Calculator

/-! ## Floating point -/

/-- Floor quotient and remainder of numbers, the divisor not zero: the
    remainder has the sign of the divisor, and the quotient is whole. -/
def Binary64.divMod (x y : Binary64) : Binary64 × Binary64 :=
  let rest := x.rem y
  let ratio := (x.sub rest).div y
  let (ratio, rest) :=
    -- a remainder on the other side of zero is moved to that of the divisor
    if rest.isZero then (ratio, y.zeroLike)
    else if y.less zero != rest.less zero then (ratio.sub one, rest.add y)
    else (ratio, rest)
  if ratio.isZero then ((x.div y).zeroLike, rest)
  else
    let whole := ratio.floor
    -- the ratio is whole but for its rounding, which may have taken it just below
    (if half.less (ratio.sub whole) then whole.add one else whole, rest)

/-- A power of numbers. Only a power that is a number is given: not a root of
    a negative one, and not one out of range of finite operands. -/
def Binary64.power (x y : Binary64) : Except EvalError Binary64 :=
  if y.isZero then .ok one
  else if x.isZero && y.less zero then .error .divisionByZero
  else
    let finite := x.isFinite && y.isFinite
    if finite && x.less zero && y.toInt?.isNone then .error .fractionalPower
    else
      let result := x.pow y
      if finite && result.isInfinite then .error (.binaryOverflow .pow) else .ok result

/-! ## Integers -/

/-- The power of an integer if it fits. From 64 on only the bases -1, 0 and 1
    have powers that fit, and there the parity of the exponent decides. -/
def checkedPow (base : Int) (exponent : Nat) : Option Int64 :=
  if exponent < 64 then checked (base.pow exponent)
  else if base.natAbs < 2 then checked (base.pow (64 + exponent % 2))
  else none

theorem checked_eq_none_of_natAbs {n : Int} (h : UInt64.size ≤ n.natAbs) :
    checked n = none := by
  rw [checked_eq_none_iff, Int64.toInt_minValue, Int64.toInt_maxValue]
  have : UInt64.size = 18446744073709551616 := rfl
  omega

/-- Powers of -1, 0 and 1 repeat after two steps, from the first one on. -/
theorem pow_add_three {base : Int} (h : base.natAbs < 2) (n : Nat) :
    base.pow (n + 3) = base.pow (n + 1) := by
  have step : ∀ m, base.pow (m + 1) = base.pow m * base := Int.pow_succ base
  rw [step (n + 2), step (n + 1), step n]
  obtain rfl | rfl | rfl : base = -1 ∨ base = 0 ∨ base = 1 := by omega
  · omega
  · omega
  · omega

theorem pow_eq_of_parity {base : Int} (h : base.natAbs < 2) (n k : Nat) :
    base.pow (n + 1 + 2 * k) = base.pow (n + 1) := by
  induction k with
  | zero => rfl
  | succ k ih =>
    rw [show n + 1 + 2 * (k + 1) = n + 2 * k + 3 by omega, pow_add_three h]
    rw [show n + 2 * k + 1 = n + 1 + 2 * k by omega, ih]

theorem checkedPow_eq (base : Int) (exponent : Nat) :
    checkedPow base exponent = checked (base.pow exponent) := by
  unfold checkedPow
  split
  · rfl
  · next h =>
    split
    · next hb =>
      obtain ⟨k, hk⟩ : ∃ k, exponent = 63 + exponent % 2 + 1 + 2 * k := ⟨exponent / 2 - 32, by omega⟩
      rw [hk, pow_eq_of_parity hb]
      congr 2
      omega
    · next hb =>
      symm
      apply checked_eq_none_of_natAbs
      have size : (base.pow exponent).natAbs = Nat.pow base.natAbs exponent :=
        Int.natAbs_pow base exponent
      have grows : Nat.pow 2 64 ≤ Nat.pow 2 exponent := Nat.pow_le_pow_right (by omega) (by omega)
      have above : Nat.pow 2 exponent ≤ Nat.pow base.natAbs exponent :=
        Nat.pow_le_pow_left (by omega) exponent
      rw [size]
      exact Nat.le_trans grows above

/-- The quotient rounded down. The machine rounds it towards zero, which is one
    too much where it leaves a remainder and is below zero. -/
def floorQuotient (a b : Int64) : Option Int64 :=
  (checked (a.toInt.tdiv b.toInt)).map fun quotient =>
    if a % b != 0 && decide (a < 0) != decide (b < 0) then quotient - 1 else quotient

/-- The remainder on the divisor's side of zero. The machine leaves it on that
    of the dividend. -/
def floorRemainder (a b : Int64) : Int64 :=
  let rest := a % b
  if rest != 0 && decide (rest < 0) != decide (b < 0) then rest + b else rest

/-- A power whose exponent is not negative. An exponent of 32 bits and more is
    decided by the base. -/
def naturalPower (base exponent : Int64) : Option Int64 :=
  if exponent.toInt < UInt32.size then checkedPow base.toInt exponent.toInt.toNat
  else if base = 0 ∨ base = 1 then some base
  else if base = -1 then some (if exponent % 2 = 0 then 1 else -1)
  else none

/-- An integer moved to the left by so many binary places. It fits if moving it
    back gives it again. -/
def shiftedLeft (n count : Int64) : Option Int64 :=
  if n = 0 then some 0
  else if 64 ≤ count then none
  else
    let shifted := n <<< count
    if shifted >>> count = n then some shifted else none

/-- An integer moved to the right by so many binary places, rounding down.
    From 64 on only the sign is left. -/
def shiftedRight (n count : Int64) : Int64 :=
  if 64 ≤ count then if n < 0 then -1 else 0 else n >>> count

/-! ## Operands -/

/-- Both operands as numbers. -/
def numbers (op : BinaryOp) (left right : Value) : Except EvalError (Number × Number) :=
  match left.number?, right.number? with
  | some m, some n => .ok (m, n)
  | _, _ => .error (.binaryOperands op left.kind right.kind)

/-- Both operands as integers. -/
def integers (op : BinaryOp) (left right : Value) : Except EvalError (Int64 × Int64) :=
  match left.int?, right.int? with
  | some m, some n => .ok (m, n)
  | _, _ => .error (.binaryOperands op left.kind right.kind)

/-- An integer result if it fits. -/
def fitting (op : BinaryOp) : Option Int64 → Except EvalError Value
  | some n => .ok (.int n)
  | none => .error (.binaryOverflow op)

/-- An operation given on integers and on floating-point numbers. -/
def arithmetic (op : BinaryOp) (onInts : Int64 → Int64 → Except EvalError Value)
    (onFloats : Binary64 → Binary64 → Except EvalError Binary64) (left right : Value) :
    Except EvalError Value := do
  match ← numbers op left right with
  | (.int m, .int n) => onInts m n
  | (m, n) => .float <$> onFloats m.toBinary64 n.toBinary64

/-- A bitwise operation, which gives a truth value on two of them. -/
def bitwise (op : BinaryOp) (onInts : Int64 → Int64 → Int64) (left right : Value) :
    Except EvalError Value :=
  match left, right with
  | .bool a, .bool b => .ok (.bool (onInts a.toInt64 b.toInt64 != 0))
  | _, _ => do
    let (m, n) ← integers op left right
    return .int (onInts m n)

/-- A shift by a number of places, which may not be negative. -/
def shift (op : BinaryOp) (onInts : Int64 → Int64 → Option Int64) (left right : Value) :
    Except EvalError Value := do
  let (n, count) ← integers op left right
  if count < 0 then .error .negativeShift else fitting op (onInts n count)

/-! ## The operators -/

/-- A power of integers: of a negative exponent it is a floating-point
    number. -/
def intPower (base exponent : Int64) : Except EvalError Value :=
  if exponent < 0 then
    if base = 0 then .error .divisionByZero
    else .ok (.float ((Binary64.ofInt base.toInt).pow (.ofInt exponent.toInt)))
  else fitting .pow (naturalPower base exponent)

/-- A division of integers by anything but zero. -/
def dividedInts (op : BinaryOp) (compute : Int64 → Int64 → Option Int64) (a b : Int64) :
    Except EvalError Value :=
  if b = 0 then .error .divisionByZero else fitting op (compute a b)

/-- Division of floating-point numbers by anything but zero. -/
def divided (compute : Binary64 → Binary64 → Binary64) (x y : Binary64) : Except EvalError Binary64 :=
  if y.isZero then .error .divisionByZero else .ok (compute x y)

def BinaryOp.apply (op : BinaryOp) (left right : Value) : Except EvalError Value :=
  match op with
  | .add =>
    arithmetic op (fun m n => fitting op (checked (m.toInt + n.toInt)))
      (fun x y => .ok (x.add y)) left right
  | .sub =>
    arithmetic op (fun m n => fitting op (checked (m.toInt - n.toInt)))
      (fun x y => .ok (x.sub y)) left right
  | .mul =>
    arithmetic op (fun m n => fitting op (checked (m.toInt * n.toInt)))
      (fun x y => .ok (x.mul y)) left right
  | .trueDiv => do
    let (m, n) ← numbers op left right
    .float <$> divided Binary64.div m.toBinary64 n.toBinary64
  | .floorDiv =>
    arithmetic op (dividedInts op floorQuotient) (divided fun x y => (x.divMod y).1) left right
  | .mod =>
    arithmetic op (dividedInts op fun m n => some (floorRemainder m n))
      (divided fun x y => (x.divMod y).2) left right
  | .pow => arithmetic op intPower Binary64.power left right
  | .bitAnd => bitwise op (· &&& ·) left right
  | .bitXor => bitwise op (· ^^^ ·) left right
  | .bitOr => bitwise op (· ||| ·) left right
  | .shiftLeft => shift op shiftedLeft left right
  | .shiftRight => shift op (fun n count => some (shiftedRight n count)) left right

def UnaryOp.apply (op : UnaryOp) (operand : Value) : Except EvalError Value :=
  match op with
  | .not => .ok (.bool !operand.truthy)
  | .pos =>
    match operand.number? with
    | some (.int n) => .ok (.int n)
    | some (.float x) => .ok (.float x)
    | none => .error (.unaryOperand op operand.kind)
  | .neg =>
    match operand.number? with
    | some (.int n) =>
      match checked (-n.toInt) with
      | some m => .ok (.int m)
      | none => .error (.unaryOverflow op)
    | some (.float x) => .ok (.float x.neg)
    | none => .error (.unaryOperand op operand.kind)
  | .invert =>
    match operand.int? with
    | some n => .ok (.int (~~~n))
    | none => .error (.unaryOperand op operand.kind)

end Calculator
