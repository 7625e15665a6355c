import Lox.Diagnostic.Snippet
import Lox.Parse.Forward
import Lox.Parser.Command
import Lox.Proofs.Grammar.Tolerant
import Lox.Scan.Head
import Lox.Scan.Scanner
import Lox.Session
import Lox.Source
import Lox.Tree.Outline
import Lox.Tree.Same
import Lox.Proofs.Cursor.Passing
import Lox.Proofs.Parse.Run
import Lox.Proofs.Parse.Operators
import Lox.Proofs.Parse.Complete
import Lox.Proofs.Parse.Explained
import Lox.Proofs.Parse.Sound
import Lox.Proofs.Parse.Stream
import Lox.Proofs.Parse.FirstPanic
import Lox.Proofs.Parse.Enclosed
import Lox.Proofs.Parse.Recovery
import Lox.Proofs.Lexeme
import Lox.Proofs.Segmentation
import Lox.Proofs.Spans
import Lox.Proofs.Parse.Relation
import Lox.Proofs.Pointers
import Lox.Proofs.Parse.Ahead
import Lox.Proofs.Parse.Unterminated
import Lox.Proofs.Parse.Composition
import Lox.Proofs.Parse.Canonical
import Lox.Proofs.Parse.Accounts
import Lox.Proofs.Parse.Pieces
import Lox.Proofs.Scan.Break
import Lox.Proofs.Scan.Lines
import Lox.Proofs.Scan.Blanking
import Lox.Proofs.Scan.Spacing
import Lox.Proofs.Session
import Lox.Proofs.Parse.Cascade
import Lox.Proofs.Parse.Nesting
import Lox.Proofs.Grammar.Misplaced
import Lox.Proofs.Parse.Misplaced
import Lox.Proofs.Decimal.Text
import Lox.Proofs.Decimal.Shortest
import Lox.Proofs.Number
import Lox.Proofs.Scan.Spelling
import Lox.Proofs.Scan.Consistency
import Lox.Proofs.Tree.Bracketed
import Lox.Proofs.Tree.Written
import Lox.Proofs.Parse.Outline
import Lox.Proofs.Parse.Line
import Lox.Proofs.Report
import Lox.Proofs.Parse.Order
import Lox.Proofs.Cursor.Respelling
import Lox.Proofs.Parse.Respelling
import Lox.Proofs.Snippet
import Lox.Proofs.Parse.Progress
import Lox.Proofs.Scan.Pattern
import Lox.Proofs.Scan.Scanner
import Lox.Proofs.Cursor.Landing
import Lox.Proofs.Parse.Budget
import Lox.Proofs.Parser.Execute
