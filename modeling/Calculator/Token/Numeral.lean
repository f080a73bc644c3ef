import Calculator.Binary64.Decimal
import Calculator.Rejection

/-
  Numeric literals: what a numeral's text denotes, once the text is known to
  have the shape of one. Digits may be separated by single underscores.
-/

namespace Calculator

/-- The value of a digit in the bases up to 36, and 36 for other characters. -/
def digitValue (c : Char) : Nat :=
  if '0' ≤ c ∧ c ≤ '9' then c.toNat - '0'.toNat
  else if 'a' ≤ c ∧ c ≤ 'z' then c.toNat - 'a'.toNat + 10
  else if 'A' ≤ c ∧ c ≤ 'Z' then c.toNat - 'A'.toNat + 10
  else 36

def isDigit (radix : Nat) (c : Char) : Bool := digitValue c < radix

/-- The number that digits denote in positional notation. -/
def positional (radix : Nat) (digits : List Char) : Nat :=
  digits.foldl (fun n c => n * radix + digitValue c) 0

/-- The text without its underscores, if each stands between two digits;
    `before` tells whether an underscore may stand first. -/
def dropSeparators (radix : Nat) : (before : Bool) → List Char → Option (List Char)
  | _, [] => some []
  | before, c :: cs =>
    if c = '_' then
      if before && cs.head?.any (isDigit radix) then dropSeparators radix false cs else none
    else (dropSeparators radix (isDigit radix c) cs).map (c :: ·)

/-- A natural number as an integer token, if it fits. -/
def intToken (n : Nat) : Except LexCause Token :=
  match checked n with
  | some i => .ok (.int i)
  | none => .error .integerTooLarge

/-- A decimal integer. Only zero may start with the digit 0. -/
def readDecimal (text : List Char) : Except LexCause Token :=
  match dropSeparators 10 false text with
  | none => .error .invalidNumber
  | some digits =>
    if digits.head? = some '0' && digits.any (· ≠ '0') then .error .invalidNumber
    else intToken (positional 10 digits)

/-- An integer in another base, after a prefix of two characters. -/
def readRadix (radix : Nat) (text : List Char) : Except LexCause Token :=
  match dropSeparators radix true (text.drop 2) with
  | none => .error .invalidNumber
  | some digits => intToken (positional radix digits)

/-- A signed decimal number. -/
def signedDecimal : List Char → Int
  | '-' :: digits => -(positional 10 digits : Int)
  | '+' :: digits => positional 10 digits
  | digits => positional 10 digits

/-- The decimal that a text of digits, with a point or an exponent or both,
    denotes. -/
def decimalOfText (text : List Char) : Decimal :=
  let isMark := fun c => c == 'e' || c == 'E'
  let mantissa := text.takeWhile (!isMark ·)
  let exponent := (text.dropWhile (!isMark ·)).drop 1
  let whole := mantissa.takeWhile (· != '.')
  let fraction := (mantissa.dropWhile (· != '.')).drop 1
  ⟨positional 10 (whole ++ fraction), signedDecimal exponent - fraction.length⟩

/-- A floating-point number. -/
def readFloat (text : List Char) : Except LexCause Token :=
  match dropSeparators 10 false text with
  | none => .error .invalidNumber
  | some digits => .ok (.float (.signed false (decimalOfText digits).toMagnitude))

end Calculator
