import Calculator.Limits.Json
import Calculator.Main
import Calculator.Proofs.Canonical
import Calculator.Proofs.Depth
import Calculator.Proofs.Diagnostic.Layout
import Calculator.Proofs.Diagnostic.Location
import Calculator.Proofs.Diagnostic.Snippet
import Calculator.Proofs.Displays
import Calculator.Proofs.Grammar.Brackets
import Calculator.Proofs.Grammar.Budget
import Calculator.Proofs.Grammar.Viable
import Calculator.Proofs.History
import Calculator.Proofs.Integers
import Calculator.Proofs.Limits
import Calculator.Proofs.Printed
import Calculator.Proofs.Rejections
import Calculator.Proofs.Size
import Calculator.Proofs.Token.IntegerLiteral
import Calculator.Proofs.Token.Pieces
import Calculator.Proofs.Token.Radix
import Calculator.Proofs.Token.Spacing
import Calculator.Proofs.Value.Quantity
import Calculator.Proofs.WellFormed
import Calculator.Proofs.Whitelist
import Calculator.Rejection.Diagnostic
