import Calculator.Token.Escape
import Calculator.Token.Pattern

/-
  From text to tokens. Each token is the longest text at its place that some
  rule describes, and of rules that describe the same text the first one in
  the list reads it. Blanks between tokens are skipped; they are five ASCII
  characters and no others.
-/

namespace Calculator

/-- The characters skipped between tokens. -/
def isBlank (c : Char) : Bool :=
  c == ' ' || c == '\t' || c == '\r' || c == '\n' || c == '\x0c'

/-! ## The rules -/

/-- How the token of a text is read, once it is known which rule describes the
    text. -/
abbrev Reading := List Char → Except LexCause Token

/-- A rule: the pattern of some tokens, and how they are read. -/
abbrev Rule := Pattern × Reading

namespace Rule

open Pattern

/-- A digit, then digits and underscores. -/
def digits : Pattern := .seq (.one (isDigit 10)) (.many (.one fun c => isDigit 10 c || c == '_'))

/-- An exponent: its mark, maybe a sign, and digits and underscores. -/
def exponent : Pattern :=
  sequence [.one fun c => c == 'e' || c == 'E', optional (.one fun c => c == '+' || c == '-'),
    atLeastOne (.one fun c => isDigit 10 c || c == '_')]

/-- An integer in a base that is marked by a letter of either case. -/
def radix (radix : Nat) (lower upper : Char) : Rule :=
  ⟨sequence [char '0', .one fun c => c == lower || c == upper,
    atLeastOne (.one fun c => isDigit radix c || c == '_')], readRadix radix⟩

/-- A string literal between two quotes of one sort: anything but that quote,
    a backslash and a line end, or a backslash and any character. -/
def string (quote : Char) : Rule :=
  ⟨sequence [char quote,
    .many (.alt (.one fun c => c != quote && c != '\\' && c != '\n')
      (.seq (char '\\') (.one fun _ => true))), char quote], readString⟩

/-- A fixed text for a fixed token. -/
def fixed (s : String) (token : Token) : Rule := ⟨.text s.toList, fun _ => .ok token⟩

def symbol (s : Symbol) : Rule := fixed s.text (.symbol s)

/-- A letter or underscore, then letters, digits and underscores. -/
def name : Rule :=
  let start := fun c : Char => c.isAlpha || c == '_'
  ⟨.seq (.one start) (.many (.one fun c => start c || isDigit 10 c)),
    fun text => .ok (.name (String.ofList text))⟩

def comparison (s : String) : Rule := fixed s (.comparison s)

end Rule

open Rule in
/-- All rules. The words of the language stand before names, which describe
    them too. -/
def rules : List Rule :=
  [⟨digits, readDecimal⟩, radix 16 'x' 'X', radix 8 'o' 'O', radix 2 'b' 'B',
    ⟨.sequence [digits, .char '.', .optional digits, .optional exponent], readFloat⟩,
    ⟨.sequence [.char '.', digits, .optional exponent], readFloat⟩,
    ⟨.sequence [digits, exponent], readFloat⟩,
    string '\'', string '"',
    fixed "True" (.bool true), fixed "False" (.bool false), fixed "None" .null,
    symbol .not, name] ++
  ["==", "!=", "<=", ">=", "<", ">"].map comparison ++
  [Symbol.plus, .minus, .star, .doubleStar, .slash, .doubleSlash, .percent, .shiftLeft,
    .shiftRight, .ampersand, .pipe, .caret, .tilde, .opening .round, .closing .round,
    .opening .square, .closing .square, .opening .curly, .closing .curly, .comma, .colon,
    .dot].map symbol

/-! ## Tokens of a text -/

/-- A token and its place in the text. -/
structure Lexeme where
  token : Token
  span : Span
  deriving DecidableEq

/-- The error for a text that starts, at an offset, with no token: a quote has
    no partner, and any other character is unexpected. -/
def noToken (offset : Nat) (c : Char) (rest : List Char) : LexError :=
  if c = '\'' ∨ c = '"' then ⟨⟨offset, offset + byteLength (c :: rest)⟩, .unterminatedString⟩
  else ⟨⟨offset, offset + c.utf8Size⟩, .unexpectedCharacter c⟩

/-- The tokens of a text that starts at an offset, with the end of input as
    the last. -/
def tokenizeFrom (offset : Nat) (text : List Char) : Except LexError (List Lexeme) :=
  match text with
  | [] => .ok [⟨.eof, .point offset⟩]
  | c :: cs =>
    if isBlank c then tokenizeFrom (offset + c.utf8Size) cs
    else
      match Pattern.longest rules (c :: cs) with
      | none => .error (noToken offset c cs)
      | some (n, read) =>
        let lexeme := c :: cs.take (n - 1)
        let stop := offset + byteLength lexeme
        match read lexeme with
        | .error cause => .error ⟨⟨offset, stop⟩, cause⟩
        | .ok token =>
          (tokenizeFrom stop (cs.drop (n - 1))).map (⟨token, ⟨offset, stop⟩⟩ :: ·)
termination_by text.length
decreasing_by
  all_goals simp only [List.length_cons, List.length_drop]
  all_goals omega

/-- The tokens of a text. -/
def tokenize (text : String) : Except LexError (List Lexeme) := tokenizeFrom 0 text.toList

end Calculator
