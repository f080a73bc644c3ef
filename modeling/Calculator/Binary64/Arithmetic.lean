import Calculator.Binary64

/-
  The operations on binary64 numbers. Each takes the exact result in units and
  rounds it once, to nearest with ties to even; what is left is the table of
  signs, infinities and NaN. The power alone is the platform's.
-/

namespace Calculator.Binary64

def neg : Binary64 → Binary64
  | .nan => .nan
  | .signed s a => .signed (!s) a

/-- A sum of opposite numbers is the positive zero; only two negative zeros
    make a negative one. -/
def add : Binary64 → Binary64 → Binary64
  | .signed s a, .signed t b =>
    match a.isFinite, b.isFinite with
    | true, true => ofUnits (s && t) (a.signedUnits s + b.signedUnits t) 1
    | true, false => .signed t b
    | false, true => .signed s a
    | false, false => if s = t then .signed s a else .nan
  | _, _ => .nan

def sub (x y : Binary64) : Binary64 := add x (neg y)

def mul : Binary64 → Binary64 → Binary64
  | .signed s a, .signed t b =>
    if a.isFinite && b.isFinite then
      .signed (s != t) (.round (a.units * b.units) unitsPerOne)
    else if a = .zero ∨ b = .zero then .nan
    else .signed (s != t) .infinity
  | _, _ => .nan

def div : Binary64 → Binary64 → Binary64
  | .signed s a, .signed t b =>
    match a.isFinite, b.isFinite with
    | true, true =>
      if b = .zero then (if a = .zero then .nan else .signed (s != t) .infinity)
      else .signed (s != t) (.round (a.units * unitsPerOne) b.units)
    | true, false => .signed (s != t) .zero
    | false, true => .signed (s != t) .infinity
    | false, false => .nan
  | _, _ => .nan

/-- What is left of `x` after taking away a whole number of times `y`, rounded
    toward zero: exact, with the sign of `x`. -/
def rem : Binary64 → Binary64 → Binary64
  | .signed s a, .signed _ b =>
    if !a.isFinite || b = .zero then .nan
    else if b.isFinite then .signed s (.round (a.units % b.units) 1)
    else .signed s a
  | _, _ => .nan

/-- The largest whole number not above `x`. -/
def floor : Binary64 → Binary64
  | .nan => .nan
  | .signed s a =>
    if !a.isFinite || a.units % unitsPerOne = 0 then .signed s a
    else
      let whole := a.units / unitsPerOne
      .signed s (.round ((if s then whole + 1 else whole) * unitsPerOne) 1)

/-- The zero with the sign of `x`. -/
def zeroLike : Binary64 → Binary64
  | .nan => zero
  | .signed s _ => .signed s .zero

def toFloat (x : Binary64) : Float := Float.ofBits x.toBits

def ofFloat (x : Float) : Binary64 := ofBits x.toBits

/-- The power of the platform's mathematics library. -/
def pow (x y : Binary64) : Binary64 := ofFloat (x.toFloat.pow y.toFloat)

end Calculator.Binary64
