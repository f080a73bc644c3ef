import Calculator.EvalError
import Calculator.Span
import Calculator.Token

/-
  Why a text is rejected: it holds something that is no token, its tokens do
  not form an expression, or the expression fails when it is evaluated. Causes
  are kept apart from their wording, which is in the `message` functions.
-/

namespace Calculator

/-! ## Texts that are not tokens -/

inductive LexCause where
  | tooLong (limit : Nat)
  | unexpectedCharacter (c : Char)
  | unterminatedString
  | invalidNumber
  | integerTooLarge
  | invalidEscape (escape : List Char)
  deriving DecidableEq, Repr

def LexCause.message : LexCause → String
  | .tooLong limit => s!"input exceeds {limit} bytes"
  | .unexpectedCharacter c => s!"unexpected character `{c}`"
  | .unterminatedString => "unterminated string literal"
  | .invalidNumber => "invalid numeric literal"
  | .integerTooLarge => "integer literal does not fit in 64 bits"
  | .invalidEscape escape => s!"invalid escape sequence `{String.ofList escape}`"

structure LexError where
  span : Span
  cause : LexCause
  deriving DecidableEq, Repr

/-! ## Tokens that are not an expression -/

inductive SyntaxCause where
  | tooDeep (limit : Nat)
  | loneSpread
  | unclosed (bracket : Bracket) (position : Nat)
  | unmatched (bracket : Bracket)
  | keyword (word : String)
  | name (text : String)
  | comparison (text : String)
  | call
  | subscript
  | attribute
  | misplacedSpread (spread : Spread)
  | unexpectedEnd
  /-- A token that starts no expression. -/
  | unexpected (found : Token)
  /-- A token after an expression that should have been the last. -/
  | trailing (found : Token)
  | expectedClosing (bracket : Bracket) (position : Nat) (found : Token)
  | expectedColon (found : Token)
  deriving DecidableEq

def SyntaxCause.message : SyntaxCause → String
  | .tooDeep limit => s!"expression nested too deeply (limit {limit})"
  | .loneSpread => "a `*` spread needs a surrounding tuple, list or set"
  | .unclosed b position =>
    s!"unclosed {Token.describe (.symbol (.opening b))} at position {position}: " ++
      s!"expected {Token.describe (.symbol (.closing b))}"
  | .unmatched b => s!"unmatched {Token.describe (.symbol (.closing b))}"
  | .keyword word => s!"`{word}` is not supported"
  | .name text => s!"names are not allowed: `{text}`"
  | .comparison text => s!"comparison operators are not supported: `{text}`"
  | .call => "calls are not supported"
  | .subscript => "subscripts are not supported"
  | .attribute => "attribute access is not supported"
  | .misplacedSpread .elements =>
    "`*` spread is only allowed inside list, tuple and set displays"
  | .misplacedSpread .entries => "`**` spread is only allowed inside dict displays"
  | .unexpectedEnd => "unexpected end of input"
  | .unexpected found => s!"unexpected {found.describe}"
  | .trailing found => s!"unexpected {found.describe} after complete expression"
  | .expectedClosing b position found =>
    s!"expected {Token.describe (.symbol (.closing b))} to close " ++
      s!"{Token.describe (.symbol (.opening b))} at position {position}, found {found.describe}"
  | .expectedColon found => s!"expected `:` after dict key, found {found.describe}"

/-- A syntax error at a token. A missing or mismatched closing bracket also
    records where its bracket was opened. -/
structure SyntaxError where
  span : Span
  cause : SyntaxCause
  opened : Option Span := none
  deriving DecidableEq

/-! ## Rejections -/

inductive Rejection where
  | lex (error : LexError)
  | parse (error : SyntaxError)
  | eval (error : EvalError)
  deriving DecidableEq

namespace Rejection

/-- The place of the offending input; a failed evaluation has none. -/
def span? : Rejection → Option Span
  | .lex e => some e.span
  | .parse e => some e.span
  | .eval _ => none

/-- The byte offset at which the offending input starts. -/
def position? (r : Rejection) : Option Nat := r.span?.map (·.start)

def message : Rejection → String
  | .lex e => s!"Lex error at position {e.span.start}: {e.cause.message}"
  | .parse e => s!"Parse error at position {e.span.start}: {e.cause.message}"
  | .eval e => s!"Evaluation error: {e.message}"

end Rejection

end Calculator
