import Bareword.Cbor.Fraction
import Bareword.Cbor.Item
import Bareword.Cbor.Read
import Bareword.Cli.AsJson
import Bareword.Cli.Command
import Bareword.Cli.Flag
import Bareword.Cli.Run
import Bareword.Decimal.Binary
import Bareword.Decimal.Format
import Bareword.Decimal.Read
import Bareword.Decimal.Shortest
import Bareword.Digest
import Bareword.Disk
import Bareword.Expr.Basic
import Bareword.Expr.Compile
import Bareword.Expr.OfTree
import Bareword.Json
import Bareword.Machine.Run
import Bareword.Machine.Stack
import Bareword.Machine.Step
import Bareword.Machine.Store
import Bareword.Main
import Bareword.Path
import Bareword.Pattern.Alternatives
import Bareword.Pattern.CharClass
import Bareword.Pattern.CharSet
import Bareword.Pattern.Check
import Bareword.Pattern.Escape
import Bareword.Pattern.Names
import Bareword.Pattern.Reading
import Bareword.Pattern.Tree
import Bareword.Program.Basic
import Bareword.Program.Disassembly
import Bareword.Program.Instruction
import Bareword.Program.Link
import Bareword.Program.Literal
import Bareword.Program.OfTree
import Bareword.Program.Opcode
import Bareword.Program.Wire
import Bareword.Proofs.Evaluation.Agreement
import Bareword.Proofs.Evaluation.Arguments
import Bareword.Proofs.Evaluation.Basic
import Bareword.Proofs.Evaluation.Calls
import Bareword.Proofs.Evaluation.Code
import Bareword.Proofs.Evaluation.Correctness
import Bareword.Proofs.Evaluation.Limits
import Bareword.Proofs.Evaluation.Nodes
import Bareword.Proofs.Evaluation.Programs
import Bareword.Proofs.Expr.Sound
import Bareword.Proofs.Machine.Instructions
import Bareword.Proofs.Machine.Layout
import Bareword.Proofs.Machine.Renaming
import Bareword.Proofs.Machine.Trouble
import Bareword.Proofs.Machine.View
import Bareword.Proofs.Pattern.Flags
import Bareword.Proofs.Program.Discipline
import Bareword.Proofs.Program.Image
import Bareword.Proofs.Program.Layouts
import Bareword.Proofs.Program.Linking
import Bareword.Proofs.Program.Preservation
import Bareword.Proofs.Program.Symbolic
import Bareword.Proofs.Program.Typing
import Bareword.Proofs.Token.Pieces
import Bareword.Proofs.Token.Runs
import Bareword.Proofs.Token.Tokens
import Bareword.Proofs.Tree.Descent
import Bareword.Proofs.Value.Fine
import Bareword.Proofs.Value.Renaming
import Bareword.Registry.Basic
import Bareword.Registry.OfToml
import Bareword.Registry.Standard
import Bareword.Report.Code
import Bareword.Report.Fault
import Bareword.Report.Paint
import Bareword.Report.Render
import Bareword.Report.Suggest
import Bareword.Scope.Arena
import Bareword.Scope.Context
import Bareword.Script
import Bareword.Search
import Bareword.Span
import Bareword.Table
import Bareword.Text.Basic
import Bareword.Text.Case
import Bareword.Text.Cluster
import Bareword.Text.Columns
import Bareword.Text.Fold
import Bareword.Text.Printable
import Bareword.Text.Quoted
import Bareword.Text.Ranges
import Bareword.Text.Rune
import Bareword.Text.Wide
import Bareword.Token.Basic
import Bareword.Token.Char
import Bareword.Token.Kind
import Bareword.Token.Memo
import Bareword.Token.Scan
import Bareword.Toml.Basic
import Bareword.Toml.Document
import Bareword.Toml.Moment
import Bareword.Toml.Scalar
import Bareword.Toml.Written
import Bareword.Tree.Basic
import Bareword.Tree.Grammar
import Bareword.Tree.Kind
import Bareword.Tree.Parsing
import Bareword.Value.Args
import Bareword.Value.Basic
import Bareword.Value.Datum
import Bareword.Value.Native
import Bareword.Value.Printed
import Bareword.Proofs.Scope.Records
import Bareword.Proofs.Scope.Fingerprints
import Bareword.Proofs.Scope.Names
import Bareword.Proofs.Tree.Reads
import Bareword.Proofs.Tree.Progress
import Bareword.Proofs.Tree.Adequacy
import Bareword.Proofs.Tree.Events
import Bareword.Proofs.Tree.Reports
import Bareword.Proofs.Tree.Coverage
import Bareword.Proofs.Tree.Memory
import Bareword.Proofs.Tree.Shapes
import Bareword.Proofs.Tree.Positions
import Bareword.Proofs.Tree.Clean
import Bareword.Proofs.Tree.Bodies
import Bareword.Proofs.Expr.Readable
import Bareword.Proofs.Program.Regions
import Bareword.Proofs.Program.Rejection
import Bareword.Proofs.Expr.Obstacles
import Bareword.Proofs.Program.Refusal
import Bareword.Proofs.Program.Saving
import Bareword.Proofs.Program.Storing
import Bareword.Proofs.Cbor.Reading
import Bareword.Proofs.Cbor.Fraction
import Bareword.Proofs.Machine.Waiting
import Bareword.Proofs.Machine.Hazards
import Bareword.Proofs.Scope.Sorted
import Bareword.Proofs.Token.Dots
import Bareword.Proofs.Tree.Marks
import Bareword.Proofs.Tree.Resolution
import Bareword.Proofs.Tree.Binding
import Bareword.Proofs.Scope.Persistence
import Bareword.Proofs.Tree.Balance
import Bareword.Proofs.Tree.Spans
import Bareword.Proofs.Tree.Calls
import Bareword.Proofs.Tree.Termination
import Bareword.Proofs.Machine.Frames
import Bareword.Proofs.Machine.Reuse
import Bareword.Proofs.Machine.Copying
import Bareword.Proofs.Value.Binding
import Bareword.Proofs.Tree.Precedence
import Bareword.Proofs.Scope.Equality
import Bareword.Proofs.Tree.Filenames
import Bareword.Proofs.Program.Encoding
import Bareword.Proofs.Token.Boundaries
import Bareword.Proofs.Token.Contract
import Bareword.Proofs.Tree.Spelling
import Bareword.Proofs.Program.Accesses
import Bareword.Proofs.Program.Covering
import Bareword.Proofs.Program.Temporaries
import Bareword.Proofs.Evaluation.Quoting
import Bareword.Proofs.Registry.Lookup
import Bareword.Proofs.Report.Distance
import Bareword.Proofs.Report.Suggestions
import Bareword.Proofs.Text.Order
import Bareword.Proofs.Token.Quoting
import Bareword.Proofs.Token.Words
import Bareword.Proofs.Tree.Quoting
import Bareword.Proofs.Text.Lines
import Bareword.Proofs.Report.Underline
import Bareword.Proofs.Tree.Depth
import Bareword.Proofs.Expr.Patterns
