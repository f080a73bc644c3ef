import Calculator.Limits

/-
  The command line: one expression is evaluated and its value printed, an
  integer in four bases. An expression that cannot be evaluated prints
  nothing, and that is no failure of the command.
-/

namespace Calculator

/-! ## Printing a value -/

/-- A number in a base, after the sign and the mark of the base. -/
def inRadix (mark : String) (radix : Nat) (n : Int) : String :=
  (if n < 0 then "-" else "") ++ mark ++ String.ofList (Nat.toDigits radix n.natAbs)

/-- The bases in which integers are printed, each with its mark. -/
def bases : List (String × Nat) := [("", 10), ("0x", 16), ("0o", 8), ("0b", 2)]

/-- An integer in every base, one to a line. -/
def inRadixes (n : Int) : String :=
  "\n".intercalate (bases.map fun (mark, radix) => inRadix mark radix n)

/-- What is printed for a value. -/
def printed (v : Value) : String :=
  match v.integral? with
  | some n => inRadixes n.toInt
  | none => v.display

/-! ## Arguments -/

inductive Command where
  | evaluate (text : String)
  | version
  | help
  | misuse

/-- The command that an option written with one dash gives: its letters are
    options of their own, and the first decides. -/
def Command.ofLetters : List Char → Command
  | 'V' :: _ => .version
  | 'h' :: _ => .help
  | _ => .misuse

/-- The command that an option written with two dashes gives. None takes a
    value. -/
def Command.ofWord : String → Command
  | "version" => .version
  | "help" => .help
  | _ => .misuse

/-- Whether an argument is read as options. As long as the expression may
    still come, only one that is all options is; after it, any but a lone
    dash that starts with a dash. -/
def isOption (expected : Bool) (arg : String) : Bool :=
  match arg.toList with
  | '-' :: '-' :: word =>
    !expected || ["version", "help"].contains (String.ofList (word.takeWhile (· != '=')))
  | '-' :: letters => !letters.isEmpty && (!expected || letters.all ['V', 'h'].contains)
  | _ => false

/-- The command that the arguments give, after an expression `text` if there
    was one. After `--` nothing is an option. -/
def Command.ofArgs (text : Option String) (plain : Bool) : List String → Command
  | [] => .evaluate (text.getD "")
  | arg :: args =>
    if !plain && arg == "--" then ofArgs text true args
    else if !plain && isOption text.isNone arg then
      match arg.toList with
      | '-' :: '-' :: word => ofWord (String.ofList word)
      | letters => ofLetters (letters.drop 1)
    else if text.isNone then ofArgs (some arg) plain args
    else .misuse

def usage : String :=
  "Usage: safecalc-cli [EXPRESSION]\n\nOptions:\n  -h, --help     Print help\n" ++
    "  -V, --version  Print version\n"

/-- What is printed and the exit code. -/
def Command.run : Command → String × UInt8
  | .evaluate text =>
    match calculate {} text with
    | .ok v => (printed v ++ "\n", 0)
    | .error _ => ("", 0)
  | .version => ("safecalc-cli 0.1.0\n", 0)
  | .help => (usage, 0)
  | .misuse => ("", 2)

end Calculator
