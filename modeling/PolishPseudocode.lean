import PolishPseudocode.Position
import PolishPseudocode.Text.Blank
import PolishPseudocode.Source
import PolishPseudocode.Number.Binary64
import PolishPseudocode.Number.Integral
import PolishPseudocode.Number.Shortest
import PolishPseudocode.Number.Written
import PolishPseudocode.Token
import PolishPseudocode.SyntaxError
import PolishPseudocode.Token.Lexeme
import PolishPseudocode.Token.Cursor
import PolishPseudocode.Token.Stream
import PolishPseudocode.Expr
import PolishPseudocode.Expr.Reduction
import PolishPseudocode.Expr.Reader
import PolishPseudocode.Program
import PolishPseudocode.Program.Reader
import PolishPseudocode.Value
import PolishPseudocode.Printed
import PolishPseudocode.Fault
import PolishPseudocode.Value.Operation
import PolishPseudocode.Machine
import PolishPseudocode.Machine.Element
import PolishPseudocode.Evaluation
import PolishPseudocode.Run
import PolishPseudocode.Binding
import PolishPseudocode.Report
import PolishPseudocode.CommandLine.Arguments
import PolishPseudocode.CommandLine
import PolishPseudocode.Main
import PolishPseudocode.Proofs.Outcome
import PolishPseudocode.Proofs.Expr.Grammar
import PolishPseudocode.Proofs.Expr.Derivation
import PolishPseudocode.Proofs.Expr.Acceptance
import PolishPseudocode.Proofs.Relocation
import PolishPseudocode.Proofs.Expr.Relocation
import PolishPseudocode.Proofs.Expr.Remainder
import PolishPseudocode.Proofs.Expr.Continuation
import PolishPseudocode.Proofs.Program.Relocation
import PolishPseudocode.Proofs.Program.Continuation
import PolishPseudocode.Proofs.Program.Kinds
import PolishPseudocode.Proofs.Program.Nesting
import PolishPseudocode.Proofs.Program.Otherwise
import PolishPseudocode.Proofs.Token.Lexeme
import PolishPseudocode.Proofs.Token.Lines
import PolishPseudocode.Proofs.Token.Layout
import PolishPseudocode.Proofs.Token.Replay
import PolishPseudocode.Proofs.Token.Spelling
import PolishPseudocode.Proofs.Token.Concatenation
import PolishPseudocode.Proofs.Token.Names
import PolishPseudocode.Proofs.Token.Recognition
import PolishPseudocode.Proofs.Program.Printer
import PolishPseudocode.Proofs.Program.Spelling
import PolishPseudocode.Proofs.Program.Concatenation
import PolishPseudocode.Proofs.Program.PrintedExpr
import PolishPseudocode.Proofs.Program.RoundTrip
import PolishPseudocode.Proofs.Token.Places
import PolishPseudocode.Proofs.Token.Spans
import PolishPseudocode.Proofs.Token.LineEndings
import PolishPseudocode.Proofs.Expr.Places
import PolishPseudocode.Proofs.Expr.Tokens
import PolishPseudocode.Proofs.Expr.Leaves
import PolishPseudocode.Proofs.Program.Places
import PolishPseudocode.Proofs.Program.Tokens
import PolishPseudocode.Proofs.Program.Leaves
import PolishPseudocode.Proofs.Evaluation.Task
import PolishPseudocode.Proofs.Evaluation.Law
import PolishPseudocode.Proofs.Evaluation.Frames
import PolishPseudocode.Proofs.Evaluation.Fuel
import PolishPseudocode.Proofs.Evaluation.Output
import PolishPseudocode.Proofs.Evaluation.Values
import PolishPseudocode.Proofs.Evaluation.Places
import PolishPseudocode.Proofs.Evaluation.Termination
import PolishPseudocode.Proofs.Evaluation.Flow
import PolishPseudocode.Proofs.Program.WellFormed
import PolishPseudocode.Proofs.Report
import PolishPseudocode.Proofs.CommandLine
import PolishPseudocode.Proofs.Program.Seams
import PolishPseudocode.Proofs.Token.Insertion
import PolishPseudocode.Proofs.Program.Insertion
import PolishPseudocode.Proofs.Program.Comments
import PolishPseudocode.Proofs.Program.LineEndings
import PolishPseudocode.Proofs.Token.Rewinding
import PolishPseudocode.Proofs.Token.Pulls
import PolishPseudocode.Proofs.Token.Rounds
import PolishPseudocode.Proofs.Token.Reached
import PolishPseudocode.Proofs.Program.Rewinding
import PolishPseudocode.Proofs.Program.Progress
import PolishPseudocode.Proofs.Evaluation.Correspondence
import PolishPseudocode.Proofs.Evaluation.Invariance
import PolishPseudocode.Proofs.Evaluation.Bindings
import PolishPseudocode.Proofs.Number.Unpacked
import PolishPseudocode.Proofs.Number.Rounding
import PolishPseudocode.Proofs.Number.Arithmetic
import PolishPseudocode.Proofs.Evaluation.Cells
import PolishPseudocode.Proofs.Evaluation.References
import PolishPseudocode.Proofs.Evaluation.CallFree
import PolishPseudocode.Proofs.Evaluation.Elements
import PolishPseudocode.Proofs.Evaluation.Characters
import PolishPseudocode.Proofs.Evaluation.Counting
import PolishPseudocode.Proofs.Snapshot
import PolishPseudocode.Proofs.Token.Sole
import PolishPseudocode.Proofs.Binding.Pieces
import PolishPseudocode.Proofs.Binding.Scalars
import PolishPseudocode.Proofs.Binding.Shown
import PolishPseudocode.Proofs.Number.Conversion
import PolishPseudocode.Proofs.Number.Slot
import PolishPseudocode.Proofs.Number.Nearest
import PolishPseudocode.Proofs.Number.Shortest
import PolishPseudocode.Proofs.Number.Written
import PolishPseudocode.Proofs.Number.Overflow
import PolishPseudocode.Proofs.Number.Standstill
import PolishPseudocode.Proofs.Evaluation.Endless
import PolishPseudocode.Proofs.Text.Order
import PolishPseudocode.Proofs.Expr.Reduced
import PolishPseudocode.Proofs.Expr.InPlace
import PolishPseudocode.Proofs.Expr.Balance
import PolishPseudocode.Proofs.Expr.Unreachable
