import Calculator.Limits

/-
  Limits as JSON: an object with the members `max_input_len` and `max_depth`,
  or an array of at most the two sizes in that order. What is missing has its
  default, and members of other names are ignored whatever they hold.

  Reading first splits the text into JSON tokens. A value that is to be
  ignored is then skipped by one pass over them with a stack of the brackets
  that are open.
-/

namespace Calculator

namespace Json

/-! ## Tokens -/

inductive JsonToken where
  | opening (bracket : Bracket)
  | closing (bracket : Bracket)
  | comma
  | colon
  /-- A string; nothing is known of one with half of a surrogate pair. -/
  | string (content : Option String)
  /-- A number, with its value if it is a natural number below 2^64. -/
  | number (size : Option Nat)
  /-- One of the three words. -/
  | word
  deriving DecidableEq, Repr

/-- The code units that the inside of a string denotes. -/
def codes : List Char → List Nat
  | [] => []
  | '\\' :: 'u' :: a :: b :: c :: d :: rest => positional 16 [a, b, c, d] :: codes rest
  | '\\' :: 'b' :: rest => 0x08 :: codes rest
  | '\\' :: 'f' :: rest => 0x0C :: codes rest
  | '\\' :: 'n' :: rest => 0x0A :: codes rest
  | '\\' :: 'r' :: rest => 0x0D :: codes rest
  | '\\' :: 't' :: rest => 0x09 :: codes rest
  | '\\' :: mark :: rest => mark.toNat :: codes rest
  | c :: rest => c.toNat :: codes rest

/-- The characters that code units denote, surrogate pairs put together. -/
def ofCodes? : List Nat → Option (List Char)
  | [] => some []
  | [n] => (charOfCode? n).map ([·])
  | m :: n :: rest =>
    if 0xD800 ≤ m ∧ m < 0xDC00 ∧ 0xDC00 ≤ n ∧ n < 0xE000 then do
      let c ← charOfCode? (0x10000 + (m - 0xD800) * 0x400 + (n - 0xDC00))
      let cs ← ofCodes? rest
      return c :: cs
    else do
      let c ← charOfCode? m
      let cs ← ofCodes? (n :: rest)
      return c :: cs

/-- A number as a size. -/
def size? (text : List Char) : Option Nat :=
  let n := positional 10 text
  if text.all (isDigit 10) && n < UInt64.size then some n else none

open Pattern in
/-- A number: a sign, a whole part without leading zeros, a fraction and an
    exponent. -/
def numeral : Pattern :=
  let digit := one (isDigit 10)
  sequence [optional (char '-'),
    .alt (char '0') (.seq (.one fun c => isDigit 10 c && c != '0') (.many digit)),
    optional (.seq (char '.') (atLeastOne digit)),
    optional (sequence [.one fun c => c == 'e' || c == 'E',
      optional (.one fun c => c == '+' || c == '-'), atLeastOne digit])]

open Pattern in
/-- A string: characters other than controls, quotes and backslashes, and
    escapes of one letter or of four hexadecimal digits. -/
def quotation : Pattern :=
  let hex := one (isDigit 16)
  sequence [char '"',
    .many (oneOf [.one fun c => 0x20 ≤ c.toNat && c != '"' && c != '\\',
      .seq (char '\\') (.one fun c => ['"', '\\', '/', 'b', 'f', 'n', 'r', 't'].contains c),
      sequence [char '\\', char 'u', hex, hex, hex, hex]]), char '"']

/-- The patterns of tokens, and how their texts are read. -/
def rules : List (Pattern × (List Char → JsonToken)) :=
  [(numeral, fun text => .number (size? text)),
    (quotation, fun text =>
      .string ((ofCodes? (codes (text.drop 1).dropLast)).map String.ofList))] ++
  ["true", "false", "null"].map (fun w => (.text w.toList, fun _ => .word)) ++
  [(.char '[', fun _ => .opening .square), (.char ']', fun _ => .closing .square),
    (.char '\x7b', fun _ => .opening .curly), (.char '\x7d', fun _ => .closing .curly),
    (.char ',', fun _ => .comma), (.char ':', fun _ => .colon)]

/-- The tokens of a JSON text. -/
def tokens? (text : List Char) : Option (List JsonToken) :=
  match text with
  | [] => some []
  | c :: cs =>
    if c == ' ' || c == '\t' || c == '\r' || c == '\n' then tokens? cs
    else
      match Pattern.longest rules (c :: cs) with
      | none => none
      | some (n, read) =>
        (tokens? (cs.drop (n - 1))).map (read (c :: cs.take (n - 1)) :: ·)
termination_by text.length
decreasing_by
  all_goals simp only [List.length_cons, List.length_drop]
  all_goals omega

/-! ## Values -/

/-- What has to come next inside a value. -/
inductive Awaiting where
  | value
  | valueOrEnd
  | member
  | memberOrEnd
  | colon
  | separator

/-- What has to come next after a token inside the open brackets, the innermost
    first, and the brackets open then; none if the token is out of place. -/
def step (awaiting : Awaiting) (brackets : List Bracket) (t : JsonToken) :
    Option (Awaiting × List Bracket) :=
  match awaiting, t with
  | .value, .opening .square | .valueOrEnd, .opening .square =>
    some (.valueOrEnd, .square :: brackets)
  | .value, .opening .curly | .valueOrEnd, .opening .curly =>
    some (.memberOrEnd, .curly :: brackets)
  | .value, .string _ | .value, .number _ | .value, .word
  | .valueOrEnd, .string _ | .valueOrEnd, .number _ | .valueOrEnd, .word =>
    some (.separator, brackets)
  | .member, .string _ | .memberOrEnd, .string _ => some (.colon, brackets)
  | .colon, .colon => some (.value, brackets)
  | .separator, .comma =>
    some (if brackets.head? = some .curly then .member else .value, brackets)
  | .valueOrEnd, .closing b | .memberOrEnd, .closing b | .separator, .closing b =>
    if brackets.head? = some b then some (.separator, brackets.tail) else none
  | _, _ => none

/-- The tokens after a value, of which a part has been read. It ends when no
    bracket is open any more. -/
def skip (awaiting : Awaiting) (brackets : List Bracket) :
    List JsonToken → Option (List JsonToken)
  | [] => none
  | t :: ts =>
    match step awaiting brackets t with
    | none => none
    | some (_, []) => some ts
    | some (next, open_) => skip next open_ ts

theorem skip_length {awaiting : Awaiting} {brackets : List Bracket} {ts rest : List JsonToken}
    (h : skip awaiting brackets ts = some rest) : rest.length < ts.length := by
  induction ts generalizing awaiting brackets with
  | nil => cases h
  | cons t ts ih =>
    simp only [skip] at h
    split at h
    · cases h
    · cases h
      exact Nat.lt_succ_self _
    · exact Nat.lt_succ_of_lt (ih h)

/-! ## Limits -/

/-- The members of an object up to its end, which must be the end of the text.
    Of a value only the size is kept, if it is one. -/
def members (ts : List JsonToken) : Option (List (String × Option Nat)) :=
  match ts with
  | .string (some key) :: .colon :: value =>
    match h : skip .value [] value with
    | none => none
    | some rest =>
      have := skip_length h
      let size := match value with
        | .number size :: _ => size
        | _ => none
      match rest with
      | [.closing .curly] => some [(key, size)]
      | .comma :: rest => (members rest).map ((key, size) :: ·)
      | _ => none
  | _ => none
termination_by ts.length
decreasing_by simp only [List.length_cons] at *; omega

/-- The size that a name has: the default if no member has it, and none if its
    member holds no size or if there are several. -/
def sizeOf? (name : String) (default : Nat) (ms : List (String × Option Nat)) : Option Nat :=
  match ms.filter (·.1 == name) with
  | [] => some default
  | [(_, size)] => size
  | _ => none

end Json

open Json

/-- The limits that a JSON text describes. -/
def Limits.ofJson? (text : String) : Option Limits := do
  match ← tokens? text.toList with
  | [.opening .curly, .closing .curly] => return {}
  | .opening .curly :: ts =>
    let ms ← members ts
    let maxInputLen ← sizeOf? "max_input_len" ({} : Limits).maxInputLen ms
    let maxDepth ← sizeOf? "max_depth" ({} : Limits).maxDepth ms
    return { maxInputLen, maxDepth }
  | [.opening .square, .closing .square] => return {}
  | [.opening .square, .number (some maxInputLen), .closing .square] => return { maxInputLen }
  | [.opening .square, .number (some maxInputLen), .comma, .number (some maxDepth),
      .closing .square] => return { maxInputLen, maxDepth }
  | _ => none

/-- Limits as a JSON object. -/
def Limits.toJson (limits : Limits) : String :=
  s!"\x7b\"max_input_len\":{limits.maxInputLen},\"max_depth\":{limits.maxDepth}\x7d"

end Calculator
