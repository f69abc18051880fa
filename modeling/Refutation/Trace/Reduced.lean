import Refutation.Trace.Basic

/-! # Reduced traces

A reduced trace is what a reduction leaves of a trace.  Each of its clauses notes where it came
from, and the trace notes the assumptions of the reduction and the literals that propagation
derived from them. -/

namespace Refutation

/-- Where a clause of a reduced trace came from. -/
inductive Origin where
  /-- It is the clause at this index of the trace reduced, as it was. -/
  | kept (index : Nat)
  /-- It is the clause at this index of the trace reduced, with literals removed. -/
  | simplified (index : Nat)
  /-- It is the empty clause that stands for assumptions contradicting one another. -/
  | contradiction
  deriving DecidableEq, Repr

/-- The index in the trace reduced, if the clause came from there. -/
def Origin.source? : Origin → Option Nat
  | .kept index | .simplified index => some index
  | .contradiction => none

/-- Whether a clause is unchanged. -/
def Origin.isKept : Origin → Bool
  | .kept _ => true
  | .simplified _ | .contradiction => false

/-- What a reduction leaves of a trace. -/
structure ReducedTrace extends Trace where
  /-- The origin of each clause, in the order of the clauses. -/
  origins : Array Origin
  /-- The assumptions of the reduction, without repeats. -/
  assumptions : List Literal
  /-- The literals derived, in order, with the index of the unit clause that gave each. -/
  derived : List (Literal × Option Nat)
  deriving DecidableEq, Repr

namespace ReducedTrace

/-- The origin of the clause at an index. -/
def origin? (r : ReducedTrace) : Nat → Option Origin
  | 0 => none
  | i + 1 => r.origins[i]?

/-- Whether the reduction found a conflict: an empty clause that was not there before. -/
def foundConflict (r : ReducedTrace) : Bool :=
  r.indices.any fun i =>
    (r.clause? i).any Clause.isEmpty && !(r.origin? i).any Origin.isKept

end ReducedTrace
end Refutation
