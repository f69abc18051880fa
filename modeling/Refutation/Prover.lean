import Refutation.Error
import Refutation.Trace.Query
import Refutation.Trace.Reduced

/-! # A prover that holds a reduced trace

A `RefusingProver` gives out the trace it holds and refuses every request to solve, until it is
freed; then it holds nothing, and refuses every request for that reason.

A `CoreOnce` suggests which axioms of a trace to solve again: its core, once. -/

namespace Refutation

/-! ### Requests -/

/-- What a prover may be asked to do. -/
inductive Request where
  /-- Make the atoms up to a count available. -/
  | addVariables (count : Nat)
  /-- Add a clause. -/
  | addClause (literals : List Literal)
  /-- Decide whether the clauses added can be satisfied. -/
  | solve
  /-- Tell the value of an atom in the model found. -/
  | valueOf (atom : Nat)
  /-- Tell how many variables there are. -/
  | numberOfVariables
  /-- Tell how many clauses there are. -/
  | numberOfClauses
  /-- Shrink the trace by solving again. -/
  | reduce
  deriving DecidableEq, Repr

/-- The name of a request. -/
def Request.name : Request → String
  | .addVariables _ => "add_variables"
  | .addClause _ => "add_clause"
  | .solve => "solve"
  | .valueOf _ => "value_of"
  | .numberOfVariables => "number_of_variables"
  | .numberOfClauses => "number_of_clauses"
  | .reduce => "reduce"

/-! ### The prover -/

/-- A prover that holds a reduced trace, or nothing once it is freed. -/
structure RefusingProver where
  /-- The trace held. -/
  proof? : Option ReducedTrace
  deriving DecidableEq, Repr

namespace RefusingProver

/-- A prover that holds a trace. -/
def ofTrace (proof : ReducedTrace) : RefusingProver := ⟨some proof⟩

/-- Why the prover refuses a request: it has no means to answer it, or it has been freed. -/
def refusal (s : RefusingProver) (request : Request) : ProverError :=
  if s.proof?.isSome then .unsupported request.name else .freed

/-- The prover after it has let go of its trace. -/
def free (_s : RefusingProver) : RefusingProver := ⟨none⟩

end RefusingProver

/-! ### The strategy -/

/-- A strategy that suggests the core of a trace once. -/
structure CoreOnce where
  /-- Whether the suggestion has been made. -/
  done : Bool
  deriving DecidableEq, Repr

namespace CoreOnce

/-- A strategy that has made no suggestion. -/
def fresh : CoreOnce := ⟨false⟩

/-- The axioms of a trace to solve again, none to stop, and the strategy after the suggestion. -/
def next (s : CoreOnce) (t : Trace) : IndexSet × CoreOnce :=
  (if s.done then ∅ else t.core, ⟨true⟩)

end CoreOnce
end Refutation
