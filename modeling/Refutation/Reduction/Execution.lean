import Refutation.Reduction.Machine

/-! # A machine at work

What a machine comes to is given by `Machine.assume` and `Machine.propagate`.  An `Execution` is the
machine between two of its operations: it has taken note of an assumption, taken a literal from the
queue, or visited a clause.  `Execution.step?` does the next operation, and the states that it leads
to one after the other are those that the machine goes through (`Execution.Reaches`).

An execution keeps a record of the queue, of all literals that have entered it and of all that have
been taken from it.  The machine itself does not need the record, and nothing is decided by it. -/

namespace Refutation.Reduction

/-- What a machine is about to do. -/
inductive Stage where
  /-- To take note of the assumptions that are left. -/
  | assuming (rest : List Literal)
  /-- To take the next literal from the queue. -/
  | popping
  /-- To visit the clauses at the indices that are left, with a literal, its complement and its
  reason. -/
  | visiting (l complement : Literal) (reason : Option Nat) (rest : List Nat)
  /-- Nothing more. -/
  | halted
  deriving DecidableEq, Repr

/-- The assumptions that no note has been taken of. -/
def Stage.unassumed : Stage → List Literal
  | .assuming rest => rest
  | .popping | .visiting .. | .halted => []

/-- A machine between two operations, and the record of its queue. -/
structure Execution where
  machine : Machine
  stage : Stage
  /-- The literals that have entered the queue, in order. -/
  entered : List Literal
  /-- The literals that have been taken from the queue, in order. -/
  popped : List Literal

namespace Execution

/-- The machine has taken up the clauses, and no note has been taken of the assumptions. -/
def start (m : Machine) (assumed : List Literal) : Execution := ⟨m, .assuming assumed, [], []⟩

/-- The machine has done an operation that leaves in the queue what is there.  What it has put
behind is recorded. -/
def proceed (e : Execution) (m : Machine) (stage : Stage) : Execution :=
  ⟨m, stage, e.entered ++ m.queue.drop e.machine.queue.length, e.popped⟩

/-- Does the next operation.  At a conflict that it is to stop at, the machine still takes a literal
from the queue, but does not propagate it. -/
def step? (stop : Bool) (e : Execution) : Except Fault (Option Execution) :=
  match e.stage with
  | .assuming [] =>
      let next := if e.machine.contradiction && stop then .halted else .popping
      .ok (some { e with stage := next })
  | .assuming (l :: rest) => do
      let m ← e.machine.assume l
      return some (e.proceed m (.assuming rest))
  | .popping =>
      match e.machine.queue with
      | [] => .ok (some { e with stage := .halted })
      | l :: rest =>
          let m := { e.machine with queue := rest }
          if stop && m.conflict.isSome then
            .ok (some ⟨m, .halted, e.entered, e.popped ++ [l]⟩)
          else do
            let l' ← complement l
            let next := .visiting l l' (m.reason? l) (m.touched l l')
            return some ⟨m, next, e.entered, e.popped ++ [l]⟩
  | .visiting _ _ _ [] => .ok (some { e with stage := .popping })
  | .visiting l l' reason (i :: rest) => do
      let m ← e.machine.visit l l' reason i
      return some (e.proceed m (.visiting l l' reason rest))
  | .halted => .ok none

/-- Some number of operations lead from one state to another. -/
inductive Reaches (stop : Bool) (e : Execution) : Execution → Prop where
  | refl : Reaches stop e e
  | tail {e' e'' : Execution} (h : Reaches stop e e') (hstep : e'.step? stop = .ok (some e'')) :
      Reaches stop e e''

end Execution
end Refutation.Reduction
