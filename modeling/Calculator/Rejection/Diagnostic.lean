import Calculator.Diagnostic
import Calculator.Rejection

/-
  A rejection shown against the text it is about. A rejected name comes with
  a word of help, and a failed evaluation with a note in place of a snippet.
-/

namespace Calculator.Rejection

def diagnostic (source : String) : Rejection → Diagnostic
  | .lex e => { message := e.cause.message, source, labels := [⟨e.span, "", true⟩] }
  | .parse e =>
    { message := e.cause.message
      source
      labels := ⟨e.span, "", true⟩ :: (e.opened.map fun s => ⟨s, "opened here", false⟩).toList
      help :=
        match e.cause with
        | .name _ => some "only literals, operators and container displays can be evaluated"
        | _ => none }
  | .eval e =>
    { message := e.message
      source
      notes := ["the expression parsed but failed while evaluating"] }

end Calculator.Rejection
