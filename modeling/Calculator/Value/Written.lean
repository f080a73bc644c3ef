import Calculator.Binary64.Decimal
import Calculator.Value

/-
  Values as text: written as in an expression, or displayed. The two differ
  only for a text value, which is displayed as it is and written in quotes.
-/

namespace Calculator

/-- A natural number in hexadecimal with at least `width` digits. -/
def hexDigits (width n : Nat) : List Char :=
  let digits := Nat.toDigits 16 n
  List.replicate (width - digits.length) '0' ++ digits

/-- The control characters: the first 32 codes, and from 127 to 159. -/
def isControl (c : Char) : Bool := c.toNat < 0x20 || (0x7F ≤ c.toNat && c.toNat ≤ 0x9F)

/-- A character inside a quoted text. -/
def quotedChar (quote c : Char) : List Char :=
  if c = '\\' then ['\\', '\\']
  else if c = '\n' then ['\\', 'n']
  else if c = '\r' then ['\\', 'r']
  else if c = '\t' then ['\\', 't']
  else if c = quote then ['\\', c]
  else if isControl c then '\\' :: 'x' :: hexDigits 2 c.toNat
  else [c]

/-- A text in quotes: single ones, unless it holds a single and no double
    quote. -/
def quoted (s : List Char) : List Char :=
  let quote := if s.contains '\'' && !s.contains '"' then '"' else '\''
  quote :: s.flatMap (quotedChar quote) ++ [quote]

/-- An integer in decimal. -/
def decimalInt (n : Int) : List Char :=
  (if n < 0 then ['-'] else []) ++ Nat.toDigits 10 n.natAbs

namespace Value

mutual

/-- A value as it is written in an expression. -/
def written : Value → List Char
  | .null => "None".toList
  | .bool b => if b then "True".toList else "False".toList
  | .int n => decimalInt n.toInt
  | .float x => x.text
  | .str s => quoted s.toList
  | .list items => '[' :: writtenItems items ++ [']']
  | .tuple items =>
    '(' :: writtenItems items ++ if items.length = 1 then [',', ')'] else [')']
  | .set items => if items.isEmpty then "set()".toList else '\x7b' :: writtenItems items ++ ['\x7d']
  | .dict entries => '\x7b' :: writtenEntries entries ++ ['\x7d']

/-- Values separated by commas. -/
def writtenItems : List Value → List Char
  | [] => []
  | [x] => written x
  | x :: y :: xs => written x ++ [',', ' '] ++ writtenItems (y :: xs)

/-- A key, a colon and a value each, separated by commas. -/
def writtenEntries : List (Value × Value) → List Char
  | [] => []
  | [(k, v)] => written k ++ [':', ' '] ++ written v
  | (k, v) :: e :: es => written k ++ [':', ' '] ++ written v ++ [',', ' '] ++ writtenEntries (e :: es)

end

def repr (v : Value) : String := String.ofList v.written

def display : Value → String
  | .str s => s
  | v => v.repr

end Value

end Calculator
