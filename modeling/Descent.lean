import Descent.Main
import Descent.Proofs.Reports
import Descent.Proofs.Tree.Order
import Descent.Proofs.Json.Escapes
import Descent.Proofs.Moves
import Descent.Proofs.Reports.Order
import Descent.Proofs.Registry.RoundTrip
import Descent.Proofs.Json.Meaning
import Descent.Proofs.Grammar.Completeness
import Descent.Proofs.Outline
import Descent.Proofs.Json.Places
import Descent.Proofs.Json.Rejection.Outermost
import Descent.Proofs.CommandLine.Answers
import Descent.Proofs.Choice.Nesting
import Descent.Proofs.Separation
import Descent.Proofs.Grammar.Redefinition
import Descent.Proofs.Repetition
import Descent.Proofs.Lookahead
import Descent.Proofs.Grouping
import Descent.Proofs.Confinement
import Descent.Proofs.Separation.Tokens
import Descent.Proofs.Resynchronisation.Statements
import Descent.Proofs.Resynchronisation.SyncPoint
import Descent.Proofs.Reports.History
import Descent.Proofs.Lines.Inverse
