import Std.Data.TreeSet
import Refutation.Trace.Basic

/-! # Questions about a trace

Sets of clauses are sets of indices, listed in ascending order; an index without a clause is
ignored by every question.

Since antecedents are earlier clauses, one pass through the trace is enough for each closure:
from the last clause to the first to collect what a set was derived from (`Trace.ancestors`), and
from the first to the last to collect what is derived from it (`Trace.descendants`) or can be
learnt from it again (`Trace.learnable`). -/

namespace Refutation

/-- A set of indices. -/
abbrev IndexSet := Std.TreeSet Nat

namespace Trace

/-! ### Kinds of clauses -/

/-- Whether the clause at an index is an axiom. -/
def isAxiom (t : Trace) (i : Nat) : Bool := (t.clause? i).any Clause.isAxiom

/-- Whether the clause at an index is a resolvent. -/
def isResolvent (t : Trace) (i : Nat) : Bool := (t.clause? i).any fun c => !c.isAxiom

/-- The indices of the axioms. -/
def axioms (t : Trace) : IndexSet := .ofList (t.indices.filter t.isAxiom)

/-- The indices of the resolvents. -/
def resolvents (t : Trace) : IndexSet := .ofList (t.indices.filter t.isResolvent)

/-- The index of the earliest empty clause, if any. -/
def conflict? (t : Trace) : Option Nat :=
  t.indices.find? fun i => (t.clause? i).any Clause.isEmpty

/-- The indices of a set that have a clause. -/
def present (t : Trace) (s : IndexSet) : IndexSet := s.filter fun i => t.contains i

/-! ### Closures -/

/-- The indices of a set together with the clauses they were derived from, in any number of
steps. -/
def ancestors (t : Trace) (s : IndexSet) : IndexSet :=
  t.indices.foldr
    (fun i found => if i ∈ found then found.insertMany (t.antecedents i) else found)
    (t.present s)

/-- The indices of a set together with the clauses derived from them, in any number of steps. -/
def descendants (t : Trace) (s : IndexSet) : IndexSet :=
  t.indices.foldl
    (fun found i => if (t.antecedents i).any found.contains then found.insert i else found)
    (t.present s)

/-- Whether the clause at an index is a resolvent of clauses in a set. -/
def resolvesFrom (t : Trace) (s : IndexSet) (i : Nat) : Bool :=
  t.isResolvent i && (t.antecedents i).all s.contains

/-- The indices of a set together with the resolvents that can be learnt from it: those whose
antecedents are in the set or can be learnt.  Since antecedents are earlier clauses, nothing up to
the first clause of the set can be learnt. -/
def learnable (t : Trace) (s : IndexSet) : IndexSet :=
  let given := t.present s
  match given.min? with
  | none => given
  | some first =>
      (List.range' (first + 1) (t.size - first)).foldl
        (fun learnt i => if t.resolvesFrom learnt i then learnt.insert i else learnt) given

/-- The indices of a set together with the resolvents whose antecedents are all in the set.  As
these come after their antecedents, the clauses up to the first of the set are passed over. -/
def directlyLearnable (t : Trace) (s : IndexSet) : IndexSet :=
  let given := t.present s
  match given.min? with
  | none => given
  | some first =>
      given.insertMany ((List.range' (first + 1) (t.size - first)).filter (t.resolvesFrom s))

/-- The axioms that the earliest empty clause was derived from; none without such a clause. -/
def core (t : Trace) : IndexSet :=
  match t.conflict? with
  | none => ∅
  | some i => (t.ancestors {i}).filter t.isAxiom

/-! ### The graph of derivations -/

/-- The pairs of an antecedent and a clause derived from it, by the index of the clause and then
in the order of its antecedents.  An antecedent recorded twice gives two pairs. -/
def edges (t : Trace) : List (Nat × Nat) :=
  t.indices.flatMap fun i => (t.antecedents i).map fun a => (a, i)

/-! ### Membership -/

theorem mem_present {t : Trace} {s : IndexSet} {i : Nat} :
    i ∈ t.present s ↔ i ∈ s ∧ 0 < i ∧ i ≤ t.size := by
  simp only [present, Std.TreeSet.mem_filter, Std.TreeSet.get_eq, contains_iff, exists_prop]

theorem core_eq_empty {t : Trace} (h : t.conflict? = none) : t.core = ∅ := by
  simp [core, h]

end Trace
end Refutation
