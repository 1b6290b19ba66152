import Reckoner.Main
import Reckoner.Folding.Json
import Reckoner.Proofs.Grammar
import Reckoner.Proofs.Level
import Reckoner.Proofs.Parser.Recognition
import Reckoner.Proofs.Folding
import Reckoner.Proofs.Token.Cutting
import Reckoner.Proofs.RoundTrip
import Reckoner.Proofs.Session
import Reckoner.Proofs.Parser.Halting
import Reckoner.Proofs.Parser.Height
import Reckoner.Proofs.Parser.Accounting
import Reckoner.Proofs.Token.Language
import Reckoner.Proofs.Token.Pieces
import Reckoner.Proofs.Token.Coverage
import Reckoner.Proofs.Token.Locality
import Reckoner.Proofs.Token.Spacing
import Reckoner.Proofs.Token.Schedule
import Reckoner.Proofs.Literal
import Reckoner.Proofs.Token.Value
import Reckoner.Proofs.Failure
import Reckoner.Proofs.Parser.Holes
import Reckoner.Proofs.Settings
import Reckoner.Proofs.Json.Scalar
import Reckoner.Proofs.Json.RoundTrip
import Reckoner.Proofs.Tree.Json
import Reckoner.Proofs.Decimal.Shortest
import Reckoner.Proofs.Json.Numeral
import Reckoner.Proofs.Folding.Json
import Reckoner.Proofs.Double.Arithmetic
import Reckoner.Proofs.Json.Drift
import Reckoner.Proofs.Folding.Shape
import Reckoner.Proofs.Names
import Reckoner.Proofs.Parser.Order
import Reckoner.Proofs.Parser.Within
import Reckoner.Proofs.Parser.Recovery
import Reckoner.Proofs.Parser.Excess
import Reckoner.Proofs.Token.Position
import Reckoner.Proofs.Token.Caret
import Reckoner.Proofs.Parser.Places
import Reckoner.Proofs.Parser.Signs
import Reckoner.Proofs.Diagnostic.Slices
import Reckoner.Proofs.CommandLine.Binding
import Reckoner.Proofs.Literal.Numeral
import Reckoner.Proofs.Bindings
import Reckoner.Proofs.Builder
