/-
  Binary64 numbers, held exactly. Every finite one is a whole number of units
  of 2^-1074, so values are compared, added and divided as integers and
  rounded once.

  A magnitude is held as the 63 bits below the sign. Read as a natural number
  they grow with the magnitude they stand for, zero being 0 and infinity the
  last: rounding therefore computes the code of the nearest magnitude, and a
  result too large for any finite one lands on infinity by itself.

  What the definitions keep to:
    1. `units_zero`, `units_one` fix the scale.
    2. `roundDiv_eq`, `roundDiv_mul_self` say that a whole quotient is not
       changed by rounding.
-/

namespace Calculator

/-- The number of units in 1. -/
def unitsPerOne : Nat := 1 <<< 1074

/-- The number of magnitudes that share an exponent, 2^52. -/
def binade : Nat := 0x10000000000000

/-- The code with all exponent bits set, which no finite magnitude has. -/
def infinityCode : Nat := 2047 * binade

/-- `num / den` to the nearest natural number, a half to the even one. -/
def roundDiv (num den : Nat) : Nat :=
  let low := num / den
  let twice := 2 * (num % den)
  if twice < den then low else if den < twice then low + 1 else low + low % 2

theorem roundDiv_eq {num den : Nat} (h : num % den = 0) (pos : 0 < den) :
    roundDiv num den = num / den := by
  simp [roundDiv, h, pos]

theorem roundDiv_mul_self (n : Nat) {den : Nat} (pos : 0 < den) :
    roundDiv (n * den) den = n := by
  rw [roundDiv_eq (Nat.mul_mod_left n den) pos, Nat.mul_div_cancel n pos]

/-- The size of a number: its 11 exponent bits and 52 fraction bits, read as
    one natural number. -/
structure Magnitude where
  code : Nat
  code_le : code ≤ infinityCode
  deriving DecidableEq

namespace Magnitude

def zero : Magnitude := ⟨0, Nat.zero_le _⟩

/-- The magnitude above all finite ones. -/
def infinity : Magnitude := ⟨infinityCode, Nat.le_refl _⟩

def isFinite (a : Magnitude) : Bool := a.code < infinityCode

/-- The magnitude in units. For infinity it is the first multiple out of
    range, the point that the largest finite numbers round towards. -/
def units (a : Magnitude) : Nat :=
  if a.code < binade then a.code
  else (binade + a.code % binade) <<< (a.code / binade - 1)

/-- The number of units with a sign. -/
def signedUnits (negative : Bool) (a : Magnitude) : Int :=
  if negative then -(a.units : Int) else a.units

/-- The magnitude nearest to `num / den` units, a tie to the even code. Up to
    2^53 units a code is the number of units itself; each doubling beyond
    that adds one binary place to the spacing and one binade to the code. -/
def round (num den : Nat) : Magnitude :=
  let places := (num / den).log2 - 52
  ⟨min (places * binade + roundDiv num (den <<< places)) infinityCode, Nat.min_le_right _ _⟩

theorem units_zero : zero.units = 0 := by decide

end Magnitude

/-- A binary64 number: not a number, or a sign and a magnitude. There is one
    NaN, since its sign and payload cannot be observed. -/
inductive Binary64 where
  | nan
  | signed (negative : Bool) (magnitude : Magnitude)
  deriving DecidableEq

namespace Binary64

def zero : Binary64 := .signed false .zero

def one : Binary64 := .signed false ⟨1023 * binade, by decide⟩

def half : Binary64 := .signed false ⟨1022 * binade, by decide⟩

theorem units_one : Magnitude.units ⟨1023 * binade, by decide⟩ = unitsPerOne := by
  decide +kernel

/-- The position on the number line; the two zeros share one. -/
def ordinal (negative : Bool) (a : Magnitude) : Int :=
  if negative then -(a.code : Int) else a.code

/-- Equality of numbers: zeros are equal whatever their sign, and NaN differs
    from everything. -/
def equal : Binary64 → Binary64 → Bool
  | .signed s a, .signed t b => ordinal s a == ordinal t b
  | _, _ => false

/-- The order of numbers; NaN is below nothing and above nothing. -/
def less : Binary64 → Binary64 → Bool
  | .signed s a, .signed t b => ordinal s a < ordinal t b
  | _, _ => false

def isFinite : Binary64 → Bool
  | .nan => false
  | .signed _ a => a.isFinite

def isInfinite : Binary64 → Bool
  | .nan => false
  | .signed _ a => !a.isFinite

def isZero (x : Binary64) : Bool := x.equal zero

/-- The signed number of units of a finite number. -/
def units? : Binary64 → Option Int
  | .nan => none
  | .signed negative a => if a.isFinite then some (a.signedUnits negative) else none

/-- The number nearest to `num / den` units; `zeroSign` signs a zero `num`. -/
def ofUnits (zeroSign : Bool) (num : Int) (den : Nat) : Binary64 :=
  .signed (if num = 0 then zeroSign else num < 0) (.round num.natAbs den)

/-- The number nearest to an integer. -/
def ofInt (n : Int) : Binary64 := ofUnits false (n * unitsPerOne) 1

/-- The integer that a number is, if it is one. -/
def toInt? (x : Binary64) : Option Int :=
  match x.units? with
  | some u => if u % unitsPerOne = 0 then some (u / unitsPerOne) else none
  | none => none

/-! ## The interchange format

One sign bit, 11 exponent bits and 52 fraction bits. -/

/-- The weight of the sign bit, 2^63. -/
def signBit : Nat := 0x8000000000000000

def ofBits (bits : UInt64) : Binary64 :=
  let code := bits.toNat % signBit
  if h : code ≤ infinityCode then .signed (signBit ≤ bits.toNat) ⟨code, h⟩ else .nan

def toBits : Binary64 → UInt64
  | .nan => 0x7FF8000000000000
  | .signed negative a => UInt64.ofNat ((if negative then signBit else 0) + a.code)

/-- A number survives its bits. -/
theorem ofBits_toBits (x : Binary64) : ofBits x.toBits = x := by
  cases x with
  | nan => decide
  | signed negative a =>
    obtain ⟨code, h⟩ := a
    have small : code < signBit := Nat.lt_of_le_of_lt h (by decide)
    have room : signBit + signBit = UInt64.size := by decide
    have weight : 0 < signBit := by decide
    cases negative
    · have hb : (UInt64.ofNat (0 + code)).toNat = code := by
        rw [Nat.zero_add]
        exact UInt64.toNat_ofNat_of_lt (by omega)
      simp only [toBits, ofBits, Bool.false_eq_true, if_false, hb, Nat.mod_eq_of_lt small, h,
        dif_pos, Nat.not_le.mpr small, decide_false]
    · have hb : (UInt64.ofNat (signBit + code)).toNat = signBit + code :=
        UInt64.toNat_ofNat_of_lt (by omega)
      simp only [toBits, ofBits, if_true, hb, Nat.add_mod_left, Nat.mod_eq_of_lt small, h,
        dif_pos, Nat.le_add_right, decide_true]

end Binary64

end Calculator
