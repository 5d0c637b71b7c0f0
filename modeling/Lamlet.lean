import Lamlet.Assoc
import Lamlet.CommandLine
import Lamlet.CommandLine.Execute
import Lamlet.Continuation
import Lamlet.Eval
import Lamlet.Fault
import Lamlet.Main
import Lamlet.Number.Basic
import Lamlet.Number.Decimal
import Lamlet.Number.Magnitude
import Lamlet.Number.Shortest
import Lamlet.Number.Text
import Lamlet.Operator
import Lamlet.Place
import Lamlet.Report
import Lamlet.Session
import Lamlet.Shell
import Lamlet.Store
import Lamlet.Term
import Lamlet.Term.Grammar
import Lamlet.Term.Outline
import Lamlet.Term.Render
import Lamlet.Text.Blank
import Lamlet.Text.Digit
import Lamlet.Text.Integer
import Lamlet.Text.Lines
import Lamlet.Text.Printable
import Lamlet.Text.Quoted
import Lamlet.Token
import Lamlet.Token.Lexer
import Lamlet.Token.Scan
import Lamlet.Value
import Lamlet.Value.Apply
import Lamlet.Proofs.Number.Literal
import Lamlet.Proofs.Token.Lexing
import Lamlet.Proofs.Grammar.Language
import Lamlet.Proofs.Grammar.Limit
import Lamlet.Proofs.Grammar.Greedy
import Lamlet.Proofs.Term.RoundTrip
import Lamlet.Proofs.Eval.Discipline
import Lamlet.Proofs.Store.Runs
import Lamlet.Proofs.Eval.Scoping
import Lamlet.Proofs.Grammar.Shape
import Lamlet.Proofs.Eval.Lockstep
import Lamlet.Proofs.Eval.Depth
import Lamlet.Proofs.Eval.Safety
import Lamlet.Proofs.Token.Splitting
import Lamlet.Proofs.Eval.Tracing
import Lamlet.Proofs.Term.Legible
import Lamlet.Proofs.Store.Reach
import Lamlet.Proofs.Eval.Confinement
import Lamlet.Proofs.Shell.Lines
import Lamlet.Proofs.Shell.Held
import Lamlet.Proofs.Text.Places
import Lamlet.Proofs.Token.Layout
import Lamlet.Proofs.Shell.Brackets
import Lamlet.Proofs.Shell.Entry
import Lamlet.Proofs.Grammar.Viable
import Lamlet.Proofs.Grammar.Lookahead
import Lamlet.Proofs.Grammar.Rejection
import Lamlet.Proofs.Shell.Diagnostics
import Lamlet.Proofs.Grammar.Extension
import Lamlet.Proofs.Session.Queue
import Lamlet.Proofs.Session.Joined
import Lamlet.Proofs.Eval.Acts
import Lamlet.Proofs.Eval.Assigned
import Lamlet.Proofs.Eval.Output
import Lamlet.Proofs.CommandLine.Files
import Lamlet.Proofs.Token.Slot
import Lamlet.Proofs.Token.Seam
import Lamlet.Proofs.Grammar.Enclosed
import Lamlet.Proofs.Grammar.Operands
import Lamlet.Proofs.Grammar.Precedence
import Lamlet.Proofs.Store.Effects
import Lamlet.Proofs.Number.Nearest
import Lamlet.Proofs.Number.Numeric
import Lamlet.Proofs.Number.Conversion
import Lamlet.Proofs.Number.Shown
import Lamlet.Proofs.Term.Outlined
import Lamlet.Proofs.Number.PlainDecimal
import Lamlet.Proofs.Eval.Identity
import Lamlet.Proofs.Value.Equality
import Lamlet.Proofs.Grammar.CallStack
import Lamlet.Proofs.Grammar.States
import Lamlet.Proofs.Grammar.Calls
