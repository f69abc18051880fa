import Refutation.ProofTree.WellFormed
import Refutation.Trace.Obtained

/-! # Views of clauses

A clause is stored at an index of a trace or at a key of a proof tree.  A `ClauseView` says where;
whatever is asked of a clause and its derivation is asked of its view, so that clauses stored in
different places can be compared (`ClauseView.sameAs`), and be copied alike. -/

namespace Refutation

/-- Where a clause is stored. -/
inductive ClauseView where
  /-- The clause at an index of a trace. -/
  | clause (t : Trace) (index : Nat)
  /-- The node at a key of a proof tree. -/
  | node (p : ProofTree) (key : Nat)

namespace ClauseView

/-- The graph that the clause belongs to. -/
def graph : ClauseView → ClauseGraph
  | clause t _ => t.graph
  | node p _ => p.graph

/-- The name of the clause in its graph. -/
def name : ClauseView → Nat
  | clause _ index => index
  | node _ key => key

/-- The literals of the clause and the names of its antecedents, if the clause is there. -/
def clause? (v : ClauseView) : Option Clause := v.graph.clause? v.name

/-- Whether two clauses have the same derivation. -/
def sameAs (v w : ClauseView) : Bool := v.graph.sameDerivation v.name w.graph w.name

/-- The numbers by which the clause is looked up in a hash table. -/
def fingerprint? (v : ClauseView) : Option (List Int) := v.clause?.map Clause.fingerprint

/-- The views that the library gives out: of the clauses of its traces and of the nodes of its
proof trees. -/
def Obtained : ClauseView → Prop
  | clause t index => t.Obtained ∧ t.contains index = true
  | node p key => p.Obtained ∧ p.contains key = true

end ClauseView
end Refutation
