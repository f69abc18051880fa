import Refutation.Setting
import Refutation.Explanation
import Refutation.Prover
import Refutation.Derivation
import Refutation.Valuation
import Refutation.Formula.Meaning
import Refutation.ProofTree.WellFormed
import Refutation.ProofTree.Calls
import Refutation.Reduction.Closure
import Refutation.Trace.Obtained
import Refutation.Proofs.ConflictExplained
import Refutation.Proofs.TreeHistory
import Refutation.Proofs.StackCopy
import Refutation.Proofs.ReducedForm
import Refutation.Proofs.PropagationMeaning
import Refutation.Proofs.FormulaPropagation
import Refutation.Proofs.Recording
import Refutation.Proofs.LearningSteps
import Refutation.Proofs.Renaming
import Refutation.Proofs.Unassumed
import Refutation.Proofs.Idempotence
import Refutation.Proofs.Certificate
import Refutation.Proofs.Links
import Refutation.Proofs.Reachability
import Refutation.Proofs.Grafts
import Refutation.Proofs.Pruning
import Refutation.Proofs.CanonicalForms
import Refutation.Formula.Splitting
import Refutation.Proofs.Regrouping
import Refutation.Proofs.GreatestAtom
import Refutation.Reduction.Execution
import Refutation.Proofs.PropagationLoop
import Refutation.Proofs.InPlace
