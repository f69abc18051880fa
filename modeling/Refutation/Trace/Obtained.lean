import Refutation.Reduction.Basic

/-! # The traces of the library

A trace comes from recording clauses one after another, and from reducing such a trace any number
of times.  `Trace.Obtained` collects the traces that come about in this way. -/

namespace Refutation
namespace Trace

/-- The traces that come from recording clauses and from reductions. -/
inductive Obtained : Trace → Prop where
  | empty : Obtained empty
  | record {t t' : Trace} {literals : List Literal} {antecedents : List Nat} (ht : Obtained t)
      (h : t.record literals antecedents = .ok t') : Obtained t'
  | reduce {t : Trace} {options : Reduction.Options} {assumptions : List Literal}
      {r : ReducedTrace} (ht : Obtained t) (h : t.reduce options assumptions = .ok r) :
      Obtained r.toTrace

end Trace
end Refutation
