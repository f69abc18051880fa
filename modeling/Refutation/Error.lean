import Refutation.Literal

/-! # Errors

Each part of the library refuses a request for one of a few causes.  A cause carries what is
needed to word it, and `Error.message` holds the wording of all of them. -/

namespace Refutation

/-- Why a clause cannot be recorded in a trace, or found there. -/
inductive TraceError where
  /-- An antecedent of the clause at `index` is not an earlier clause. -/
  | antecedentOrder (index antecedent : Nat)
  /-- The clause at `index` was declared an axiom but has antecedents. -/
  | axiomWithAntecedents (index : Nat)
  /-- There is no clause at `index`. -/
  | missingClause (index : Nat)
  /-- The clause at `index` contains `0`, which has no atom. -/
  | zeroLiteral (index : Nat)
  /-- The clause at `index` contains the least integer, which has no complement. -/
  | literalOutOfRange (index : Nat)
  /-- The clause at `index` contains a literal twice. -/
  | duplicateLiteral (index : Nat) (literal : Literal)
  deriving DecidableEq, Repr

/-- Why a prover refuses a request. -/
inductive ProverError where
  /-- The prover has no means of answering the named request. -/
  | unsupported (request : String)
  /-- The prover has been freed. -/
  | freed
  deriving DecidableEq, Repr

/-- Why a proof tree refuses an edit. -/
inductive ProofTreeError where
  /-- A key names no node of the tree. -/
  | missingNode
  /-- A clause would be used in its own derivation. -/
  | cycle
  deriving DecidableEq, Repr

/-- Why a reduction refuses its assumptions. -/
inductive ReductionError where
  /-- An assumption is `0`, which has no atom. -/
  | zeroAssumption
  /-- An assumption is the least integer, which has no complement. -/
  | assumptionOutOfRange
  deriving DecidableEq, Repr

/-- A cause from any part of the library. -/
inductive Error where
  | trace (cause : TraceError)
  | prover (cause : ProverError)
  | proofTree (cause : ProofTreeError)
  | reduction (cause : ReductionError)
  deriving DecidableEq, Repr

/-- The wording of a trace's refusal. -/
def TraceError.message : TraceError → String
  | .antecedentOrder index antecedent =>
      "clause " ++ toString index ++ " has antecedent " ++ toString antecedent ++
        ", which does not precede it"
  | .axiomWithAntecedents index => "axiom " ++ toString index ++ " records antecedents"
  | .missingClause index => "no clause at index " ++ toString index
  | .zeroLiteral index => "clause " ++ toString index ++ " contains the literal 0"
  | .literalOutOfRange index =>
      "clause " ++ toString index ++ " contains a literal with no negation"
  | .duplicateLiteral index literal =>
      "clause " ++ toString index ++ " repeats the literal " ++ toString literal.toInt

/-- The wording of a prover's refusal. -/
def ProverError.message : ProverError → String
  | .unsupported request => request ++ " is not supported by this prover"
  | .freed => "the prover has been freed"

/-- The wording of a proof tree's refusal. -/
def ProofTreeError.message : ProofTreeError → String
  | .missingNode => "no such node in the proof tree"
  | .cycle => "the clause would be part of its own derivation"

/-- The wording of a reduction's refusal. -/
def ReductionError.message : ReductionError → String
  | .zeroAssumption => "0 is not a literal, and cannot be assumed"
  | .assumptionOutOfRange =>
      toString Int32.minValue.toInt ++ " has no negation, and cannot be assumed"

/-- The wording of an error. -/
def Error.message : Error → String
  | .trace cause => cause.message
  | .prover cause => cause.message
  | .proofTree cause => cause.message
  | .reduction cause => cause.message

end Refutation
