import Calculator.Value.Written

/-
  The tokens of the expression language. Names, comparisons and the dot are
  tokens although no expression holds them, so that a text using them is
  rejected for what it tried to do.
-/

namespace Calculator

inductive Bracket where
  | round
  | square
  | curly
  deriving DecidableEq, Repr

/-- The signs of the language, and the word `not`. -/
inductive Symbol where
  | not
  | plus
  | minus
  | star
  | doubleStar
  | slash
  | doubleSlash
  | percent
  | shiftLeft
  | shiftRight
  | ampersand
  | pipe
  | caret
  | tilde
  | opening (bracket : Bracket)
  | closing (bracket : Bracket)
  | comma
  | colon
  | dot
  deriving DecidableEq, Repr

def Symbol.text : Symbol → String
  | .not => "not"
  | .plus => "+"
  | .minus => "-"
  | .star => "*"
  | .doubleStar => "**"
  | .slash => "/"
  | .doubleSlash => "//"
  | .percent => "%"
  | .shiftLeft => "<<"
  | .shiftRight => ">>"
  | .ampersand => "&"
  | .pipe => "|"
  | .caret => "^"
  | .tilde => "~"
  | .opening .round => "("
  | .closing .round => ")"
  | .opening .square => "["
  | .closing .square => "]"
  | .opening .curly => "\x7b"
  | .closing .curly => "\x7d"
  | .comma => ","
  | .colon => ":"
  | .dot => "."

inductive Token where
  | int (n : Int64)
  | float (x : Binary64)
  | str (s : String)
  | bool (b : Bool)
  | null
  | name (text : String)
  | comparison (text : String)
  | symbol (s : Symbol)
  | eof
  deriving DecidableEq

/-- A token as messages speak of it. -/
def Token.describe : Token → String
  | .int n => s!"integer `{String.ofList (decimalInt n.toInt)}`"
  | .float x => s!"float `{String.ofList x.text}`"
  | .str _ => "string literal"
  | .bool true => "`True`"
  | .bool false => "`False`"
  | .null => "`None`"
  | .name text => s!"name `{text}`"
  | .comparison text => s!"`{text}`"
  | .symbol s => s!"`{s.text}`"
  | .eof => "end of input"

end Calculator
