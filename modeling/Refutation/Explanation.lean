import Refutation.Error
import Refutation.ProofTree.Edit
import Refutation.Trace.Query
import Refutation.Trace.Reduced

/-! # Explaining the clauses of a reduced trace

The derivation of a clause in a reduced trace says little about clauses that were shortened, for
these may have lost their antecedents.  An explanation is the derivation in the reduced trace, to
which the derivation in the trace reduced is added for each shortened clause: a copy of it becomes
the last antecedent of the clause.  Neither trace is changed. -/

namespace Refutation

/-- Adds to one node of an explanation the derivation in `full` of the clause it is a
shortened form of; `index` is the node's index in the reduced trace. -/
def explainNode (full : Trace) (reduced : ReducedTrace) (p : ProofTree) (index key : Nat) :
    Except Error ProofTree :=
  match reduced.origin? index with
  | some (.simplified source) =>
      match full.proofTree? source with
      | some derivation => (p.graft key derivation).mapError .proofTree
      | none => .error (.trace (.missingClause source))
  | some (.kept _) | some .contradiction | none => .ok p

/-- The explanation of the clause at an index of a reduced trace by the trace it was reduced
from.  Shortened clauses are explained from the last to the first. -/
def explain (full : Trace) (reduced : ReducedTrace) (index : Nat) : Except Error ProofTree :=
  if reduced.contains index then
    let nodes := (ProofTree.copyKeys 0 reduced.graph index).mergeSort fun a b => b.1 ≤ a.1
    nodes.foldlM (fun p node => explainNode full reduced p node.1 node.2)
      (ProofTree.ofClause reduced.graph index)
  else .error (.trace (.missingClause index))

/-- The explanation of the conflict of a reduced trace, if there is one. -/
def explainConflict (full : Trace) (reduced : ReducedTrace) :
    Except Error (Option ProofTree) :=
  match reduced.conflict? with
  | none => .ok none
  | some conflict => (explain full reduced conflict).map some

end Refutation
