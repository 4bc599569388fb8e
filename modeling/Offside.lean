import Offside.Error.Report
import Offside.FrontEnd
import Offside.Proofs.BlankLine
import Offside.Proofs.Caret
import Offside.Proofs.Concatenation
import Offside.Proofs.Diagnostics
import Offside.Proofs.Grammar.Subexpressions
import Offside.Proofs.JoinedLines
import Offside.Proofs.LineEndings
import Offside.Proofs.Nesting
import Offside.Proofs.Program.Flattening
import Offside.Proofs.Program.Literals
import Offside.Proofs.Program.OfCursor
import Offside.Proofs.Program.Order
import Offside.Proofs.Program.PassedOver
import Offside.Proofs.Program.RoundTrip
import Offside.Proofs.Program.Shapes
import Offside.Proofs.Recognizer.FirstRefusal
import Offside.Proofs.Recognizer.Lossless
import Offside.Proofs.Recognizer.Progress
import Offside.Proofs.Recognizer.Rounds
import Offside.Proofs.Scan.LayoutShape
import Offside.Proofs.Scan.OffsideRule
import Offside.Proofs.Scan.Progress
import Offside.Proofs.Scan.Skipped
import Offside.Proofs.Scan.TokenSpans
import Offside.Proofs.StageErrors
import Offside.Proofs.Text.LineBytes
import Offside.Proofs.Tree.Path
import Offside.Proofs.Typing.Bodies
import Offside.Proofs.Typing.FunctionTable
import Offside.Proofs.Typing.Occurrences
import Offside.Proofs.Typing.Program
import Offside.Proofs.Typing.Repetition
import Offside.Proofs.Typing.Untyped
import Offside.Reader
import Offside.Tree.Cursor
