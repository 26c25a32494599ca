import StraightLine.Grammar
import StraightLine.Main
import StraightLine.Proofs.Acceptance
import StraightLine.Proofs.AssignmentHistory
import StraightLine.Proofs.Atomicity
import StraightLine.Proofs.BindingOrder
import StraightLine.Proofs.Clashes
import StraightLine.Proofs.Commutation
import StraightLine.Proofs.Composition
import StraightLine.Proofs.ErrorReports
import StraightLine.Proofs.ExactArithmetic
import StraightLine.Proofs.FirstError
import StraightLine.Proofs.Histories
import StraightLine.Proofs.LazyScanning
import StraightLine.Proofs.Literals
import StraightLine.Proofs.Messages
import StraightLine.Proofs.Noninterference
import StraightLine.Proofs.OutputDecoding
import StraightLine.Proofs.Progress
import StraightLine.Proofs.ReadingBack
import StraightLine.Proofs.Renaming
import StraightLine.Proofs.Reports
import StraightLine.Proofs.Sessions
import StraightLine.Proofs.Termination
import StraightLine.Proofs.Truncation
import StraightLine.Table.Lemmas
