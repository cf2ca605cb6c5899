import Abacus.Highlight
import Abacus.Main
import Abacus.Proofs.Expression.Nesting
import Abacus.Proofs.Expression.Simulation
import Abacus.Proofs.Expression.Spacing
import Abacus.Proofs.Operation
import Abacus.Proofs.Expression.Places
import Abacus.Proofs.Expression.Repetition
import Abacus.Proofs.Expression.Continuations
import Abacus.Proofs.Expression.Registers
import Abacus.Proofs.Expression.Lockstep
import Abacus.Proofs.Decimal.Shortest
import Abacus.Proofs.Json.Grammar
import Abacus.Proofs.Json.Meaning
import Abacus.Proofs.Json.Strings
import Abacus.Proofs.Json.Numbers
import Abacus.Proofs.Json.Records
import Abacus.Proofs.Json.Forms
import Abacus.Proofs.Json.Acceptance
import Abacus.Proofs.Json.Decoding
import Abacus.Proofs.Json.Output
import Abacus.Proofs.Json.Variations
import Abacus.Proofs.CommandLine.Lines
import Abacus.Proofs.CommandLine.Batch
import Abacus.Proofs.CommandLine.Printing
import Abacus.Proofs.CommandLine.Framing
import Abacus.Proofs.CommandLine.Reports
import Abacus.Proofs.Source.Coordinates
import Abacus.Proofs.Report.Rows
import Abacus.Proofs.Report.Label
import Abacus.Proofs.Token.Brackets
import Abacus.Proofs.Token.Lexemes
import Abacus.Proofs.Token.Waiting
import Abacus.Proofs.Token.Agreement
import Abacus.Proofs.Highlight
import Abacus.Proofs.Expression.Recursion
import Abacus.Proofs.Expression.Composition
import Abacus.Proofs.Rejection
import Abacus.Proofs.Report.Clamping
import Abacus.Proofs.Report.Listing
import Abacus.Proofs.Expression.LongestLiteral
import Abacus.Proofs.Expression.Progress
