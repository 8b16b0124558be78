import Polytype.Main
import Polytype.Proofs.Document.Safety
import Polytype.Proofs.Graph.Classes
import Polytype.Proofs.Infer.Blame
import Polytype.Proofs.Infer.Blocks
import Polytype.Proofs.Infer.Canonical
import Polytype.Proofs.Infer.Completion
import Polytype.Proofs.Infer.Contradiction
import Polytype.Proofs.Infer.Fixpoint
import Polytype.Proofs.Infer.Instantiation
import Polytype.Proofs.Infer.Reporting
import Polytype.Proofs.Infer.Scoping
import Polytype.Proofs.Infer.Sessions
import Polytype.Proofs.Store.Disagreement
import Polytype.Proofs.Store.Ownership
import Polytype.Proofs.Ty.RoundTrip
import Polytype.Proofs.Typing.Generality
import Polytype.Proofs.Typing.Splitting
import Polytype.Proofs.Document.Comparison
import Polytype.Proofs.Ty.Rejection
import Polytype.Proofs.Document.FieldOrder
import Polytype.Proofs.Document.Aliases
import Polytype.Proofs.Text.Numerals
import Polytype.Proofs.Document.Writing
import Polytype.Proofs.NameSupply.Requests
import Polytype.Proofs.Store.Agreement
import Polytype.Proofs.Store.Frame
import Polytype.Proofs.Document.Integers
