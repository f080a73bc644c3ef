import Calculator.Binary64

/-
  Binary64 numbers as decimal text. Reading rounds the exact decimal once.
  Writing picks the fewest digits that read back to the number, and of several
  such the nearest; how those digits are laid out is decided in `layout` and
  `text` alone.

  Digits are searched grid by grid: the decimals with `n` digits around a
  number are the multiples of one power of ten, and if any of them reads back,
  then one of the two next to the number does.
-/

namespace Calculator

/-- The number `digits · 10 ^ exponent`. -/
structure Decimal where
  digits : Nat
  exponent : Int
  deriving DecidableEq, Repr

/-- A power of ten. -/
def tenTo (n : Nat) : Nat := Nat.pow 10 n

/-- The magnitude nearest to a decimal. A decimal with a digit and an exponent
    above 400 is out of range, and one below 10^-400 rounds to zero: deciding
    these first keeps the powers of ten in proportion to the digits. -/
def Decimal.toMagnitude (d : Decimal) : Magnitude :=
  if d.digits = 0 ∨ d.exponent + d.digits.log2 + 1 < -400 then .zero
  else if 400 < d.exponent then .infinity
  else
    .round (d.digits * tenTo d.exponent.toNat * unitsPerOne) (tenTo (-d.exponent).toNat)

namespace Magnitude

/-- The least `k` with the magnitude below `10 ^ k`, for one that is neither
    zero nor infinite: every such magnitude is at least `10 ^ -324`. -/
def decimalPoint (a : Magnitude) : Int :=
  (Nat.toDigits 10 (a.units * tenTo 324 / unitsPerOne)).length - 324

/-- The multiple of `10 ^ exponent` that reads back to the magnitude, if one
    of its two neighbours there does: the nearer one first, and of two equally
    near the upper. -/
def onGrid? (a : Magnitude) (exponent : Int) : Option Decimal :=
  let num := a.units * tenTo (-exponent).toNat
  let den := unitsPerOne * tenTo exponent.toNat
  let low : Decimal := ⟨num / den, exponent⟩
  let high : Decimal := ⟨num / den + 1, exponent⟩
  let nearest := if den ≤ 2 * (num % den) then [high, low] else [low, high]
  nearest.find? fun d => d.toMagnitude = a

/-- The exact decimal value: a unit is `5 ^ 1074 · 10 ^ -1074`. -/
def exactDecimal (a : Magnitude) : Decimal := ⟨a.units * Nat.pow 5 1074, -1074⟩

/-- The decimal with the fewest digits that reads back. -/
def shortest (a : Magnitude) : Decimal :=
  ((List.range 17).findSome? fun (n : Nat) => a.onGrid? (a.decimalPoint - (n + 1))).getD
    a.exactDecimal

end Magnitude

/-- A decimal in positional notation when its leading digit counts between
    10^-4 and 10^15, always with a point and a digit after it, and otherwise
    as one digit, the rest after a point, and a signed exponent of at least
    two digits. Trailing zeros of the digits are not shown. -/
def Decimal.layout (d : Decimal) : List Char :=
  let all := Nat.toDigits 10 d.digits
  let point := all.length + d.exponent
  let shown := (all.reverse.dropWhile (· == '0')).reverse
  let leading := point - 1
  if -4 ≤ leading ∧ leading < 16 then
    -- the point is before, after or among the digits
    if point ≤ 0 then '0' :: '.' :: (List.replicate (-point).toNat '0' ++ shown)
    else if shown.length ≤ point.toNat then
      shown ++ List.replicate (point.toNat - shown.length) '0' ++ ['.', '0']
    else shown.take point.toNat ++ '.' :: shown.drop point.toNat
  else
    let exponent := Nat.toDigits 10 leading.natAbs
    shown.take 1 ++ (if shown.length ≤ 1 then [] else '.' :: shown.drop 1) ++
      ['e', if leading < 0 then '-' else '+'] ++
      List.replicate (2 - exponent.length) '0' ++ exponent

/-- A number as it is written: `2.0`, `0.1`, `1e+16`, `1.5e-05`, `-0.0`. -/
def Binary64.text : Binary64 → List Char
  | .nan => "nan".toList
  | .signed negative a =>
    (if negative then ['-'] else []) ++
      if a = .zero then "0.0".toList
      else if a.isFinite then a.shortest.layout
      else "inf".toList

end Calculator
