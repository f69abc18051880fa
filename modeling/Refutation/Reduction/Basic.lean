import Std.Data.TreeMap
import Refutation.Error
import Refutation.Reduction.Cascade
import Refutation.Reduction.Options
import Refutation.Trace.Query
import Refutation.Trace.Reduced

/-! # Reduction of a trace under assumptions

To reduce a trace, the assumed literals are propagated through its clauses (`Reduction.cascade`)
and a trace is built of what is left of them (`Reduction.rebuild`), in the order of the clauses
and with indices made dense again.

* A clause keeps those antecedents of which something is left.
* A shortened clause may also be linked to the earlier unit clauses whose literals shortened it.
* A clause left without antecedents is an axiom of the reduced trace: it follows from the axioms
  of the trace reduced together with the assumptions.

Assumptions that contradict one another are a conflict of their own, which the reduced trace notes
by an empty clause in front of all others. -/

namespace Refutation.Reduction

/-! ### Assumptions -/

/-- The first assumption that is not a proper literal. -/
def assumptionFault? : List Literal → Option ReductionError
  | [] => none
  | l :: rest =>
      if l = 0 then some .zeroAssumption
      else if l = Int32.minValue then some .assumptionOutOfRange
      else assumptionFault? rest

/-- Whether some assumption is the complement of another. -/
def contradictory (assumptions : List Literal) : Bool :=
  assumptions.any fun l => assumptions.contains (-l)

/-- The assumptions in order, leaving out those whose complement was assumed before. -/
def accepted (assumptions : List Literal) : List Literal :=
  assumptions.foldl (fun known l => if -l ∈ known then known else known ++ [l]) []

theorem assumptionFault?_eq_none_iff {assumptions : List Literal} :
    assumptionFault? assumptions = none ↔ ∀ l ∈ assumptions, l.Proper := by
  induction assumptions with
  | nil => simp [assumptionFault?]
  | cons l rest ih =>
      unfold assumptionFault?
      split
      · simp_all [Literal.Proper]
      · split
        · simp_all [Literal.Proper]
        · simp_all [Literal.Proper]

/-! ### Propagation -/

/-- The indices of the clauses to reduce, in ascending order: all of them, or those that the
conflict of the trace was derived from, if there is a conflict and only its clauses are wanted. -/
def scope (options : Options) (t : Trace) : List Nat :=
  match options.coreOnly.value, t.conflict? with
  | true, some conflict => (t.ancestors {conflict}).toList
  | _, _ => t.indices

/-- The cascade before the first step: whole clauses, and the assumptions to be propagated. -/
def start (t : Trace) (scope : List Nat) (assumptions : List Literal) : Cascade where
  residuals := scope.filterMap fun i => (t.clause? i).map (Residual.ofClause i)
  settled := []
  pending := (accepted assumptions).map fun l => ⟨l, none⟩

/-- The cascade after the last step.  If contradictory assumptions are conflict enough to stop,
nothing is propagated. -/
def cascade (options : Options) (t : Trace) (assumptions : List Literal) : Cascade :=
  let stop := options.stopOnConflict.value
  let initial := start t (scope options t) assumptions
  if contradictory assumptions && stop then initial else initial.run stop

/-! ### The reduced trace -/

/-- The new indices of the clauses of which something is left, counting on from `first`. -/
def numbering (first : Nat) (residuals : List Residual) : Std.TreeMap Nat Nat :=
  .ofList ((residuals.map (·.index)).zipIdx first)

/-- The antecedents of what is left of a clause: the antecedents of the clause, and then, if
`link`, the earlier unit clauses that shortened it.  Only those of which something is left are
named, each once. -/
def Residual.antecedents (link : Bool) (t : Trace) (number? : Nat → Option Nat) (r : Residual) :
    List Nat :=
  let recorded := t.antecedents r.index
  let reasons := if link then (r.removedBy.filterMap (·.reason)).filter (· < r.index) else []
  ((recorded ++ reasons).filterMap number?).eraseDups

/-- Where what is left of a clause came from. -/
def Residual.origin (r : Residual) : Origin :=
  if r.isShortened then .simplified r.index else .kept r.index

/-- The clauses that note contradictory assumptions: an empty one, or none. -/
def leading (assumptions : List Literal) : List Clause :=
  if contradictory assumptions then [⟨[], []⟩] else []

/-- The trace of what a cascade has left of the clauses. -/
def rebuild (link : Bool) (t : Trace) (assumptions : List Literal) (c : Cascade) :
    ReducedTrace :=
  let front := leading assumptions
  let number := numbering (front.length + 1) c.residuals
  let rest := c.residuals.map fun r =>
    Clause.mk r.literals (r.antecedents link t (number[·]?))
  { clauses := (front ++ rest).toArray
    origins := (front.map (fun _ => Origin.contradiction) ++
      c.residuals.map Residual.origin).toArray
    assumptions := assumptions
    derived := c.known.filterMap fun fact =>
      fact.reason.map fun reason => (fact.literal, number[reason]?) }

end Reduction

/-- Reduces a trace, given that each assumption is true.  An assumption that is no proper literal
is refused; repeats are dropped. -/
def Trace.reduce (options : Reduction.Options) (t : Trace) (assumptions : List Literal) :
    Except ReductionError ReducedTrace :=
  match Reduction.assumptionFault? assumptions with
  | some cause => .error cause
  | none =>
      let assumed := assumptions.eraseDups
      .ok <| Reduction.rebuild options.linkUnitReasons.value t assumed
        (Reduction.cascade options t assumed)

end Refutation
