import Calculator.Token.Numeral

/-
  String literals: what the text between the quotes denotes. A backslash
  before a character that starts no escape stands for itself.
-/

namespace Calculator

/-- The character with a code, unless the code is that of no character. -/
def charOfCode? (code : Nat) : Option Char :=
  if code.isValidChar then some (Char.ofNat code) else none

/-- The hexadecimal escape with the given mark: exactly `width` digits. -/
def readHex (mark : Char) (width : Nat) (rest : List Char) :
    Except LexCause (List Char × Nat) :=
  let digits := (rest.take width).takeWhile (isDigit 16)
  match if digits.length = width then charOfCode? (positional 16 digits) else none with
  | some c => .ok ([c], width)
  | none => .error (.invalidEscape ('\\' :: mark :: digits))

/-- What an escape denotes, given the character after the backslash and the
    text after that, and how many characters of that text belong to it. -/
def readEscape (mark : Char) (rest : List Char) : Except LexCause (List Char × Nat) :=
  match mark with
  | '\n' => .ok ([], 0)
  | '\\' | '\'' | '"' => .ok ([mark], 0)
  | 'n' => .ok (['\n'], 0)
  | 'r' => .ok (['\r'], 0)
  | 't' => .ok (['\t'], 0)
  | 'a' => .ok (['\x07'], 0)
  | 'b' => .ok (['\x08'], 0)
  | 'f' => .ok (['\x0c'], 0)
  | 'v' => .ok (['\x0b'], 0)
  | 'x' => readHex mark 2 rest
  | 'u' => readHex mark 4 rest
  | 'U' => readHex mark 8 rest
  | _ =>
    if isDigit 8 mark then
      let more := (rest.take 2).takeWhile (isDigit 8)
      .ok ([Char.ofNat (positional 8 (mark :: more))], more.length)
    else .ok (['\\', mark], 0)

/-- The text that the inside of a string literal denotes. -/
def unescape (body : List Char) : Except LexCause (List Char) :=
  match body with
  | [] => .ok []
  | ['\\'] => .ok ['\\']
  | '\\' :: mark :: rest =>
    match readEscape mark rest with
    | .error cause => .error cause
    | .ok (meaning, used) => (unescape (rest.drop used)).map (meaning ++ ·)
  | c :: rest => (unescape rest).map (c :: ·)
termination_by body.length
decreasing_by
  all_goals simp only [List.length_cons, List.length_drop]
  all_goals omega

/-- A string literal with its quotes. -/
def readString (text : List Char) : Except LexCause Token :=
  (unescape (text.drop 1).dropLast).map fun s => .str (String.ofList s)

end Calculator
