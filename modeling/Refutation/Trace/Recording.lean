import Refutation.Trace.Basic

/-! # Recording call by call

A solver records a trace by one call for each clause.  A call checks the clause, stores it with its
literals in order, and answers its index; or it answers why it refuses the clause.  The trace is a
state that calls share, and what one of them leaves is there for the next, whatever the answer was:
a solver may go on after a refusal. -/

namespace Refutation
namespace Trace

/-- A call that records a clause. -/
inductive RecordCall where
  /-- Records a clause that is given. -/
  | given (literals : List Literal)
  /-- Records a clause that was derived from others.  Without antecedents it counts as given. -/
  | resolvent (literals : List Literal) (antecedents : List Nat)
  deriving DecidableEq, Repr

/-- The clause to be recorded. -/
def RecordCall.clause : RecordCall → Clause
  | .given literals => ⟨literals, []⟩
  | .resolvent literals antecedents => ⟨literals, antecedents⟩

/-- The call that records a clause. -/
def RecordCall.ofClause (c : Clause) : RecordCall := .resolvent c.literals c.antecedents

@[simp]
theorem clause_ofClause (c : Clause) : (RecordCall.ofClause c).clause = c := rfl

/-! ### Calls -/

/-- Stores a clause as it is, and tells its index. -/
def store (c : Clause) : StateM Trace Nat := do
  modify fun t => ⟨t.clauses.push c⟩
  return (← get).size

/-- Checks a clause, and stores it at the index. -/
def recordAt (index : Nat) (c : Clause) : ExceptT TraceError (StateM Trace) Nat := do
  match fault? index c.literals c.antecedents with
  | some cause => throw cause
  | none => store ⟨Literal.sortByAtom c.literals, c.antecedents⟩

/-- Makes a call, which concerns the next index. -/
def RecordCall.make (call : RecordCall) : StateM Trace (Except TraceError Nat) :=
  ExceptT.run do recordAt ((← get).size + 1) call.clause

/-- The answers to some calls that are made on a trace, one after the other. -/
def answers (t : Trace) (calls : List RecordCall) : List (Except TraceError Nat) :=
  ((calls.mapM RecordCall.make).run t).1

/-- The trace that the calls leave. -/
def afterCalls (t : Trace) (calls : List RecordCall) : Trace :=
  ((calls.mapM RecordCall.make).run t).2

theorem run_make (t : Trace) (call : RecordCall) :
    call.make.run t =
      match t.record call.clause.literals call.clause.antecedents with
      | .ok t' => (.ok t'.size, t')
      | .error cause => (.error cause, t) := by
  have hnext : call.make.run t = (recordAt (t.size + 1) call.clause).run.run t := rfl
  rw [hnext, recordAt, record]
  cases fault? (t.size + 1) call.clause.literals call.clause.antecedents with
  | none => rfl
  | some cause => rfl

/-! ### One call after the other -/

variable (t : Trace) (call : RecordCall) (calls calls' : List RecordCall)

@[simp]
theorem answers_nil : t.answers [] = [] := rfl

@[simp]
theorem afterCalls_nil : t.afterCalls [] = t := rfl

theorem answers_cons :
    t.answers (call :: calls) = (call.make.run t).1 :: (call.make.run t).2.answers calls := by
  simp only [answers, List.mapM_cons, StateT.run_bind]
  rfl

theorem afterCalls_cons :
    t.afterCalls (call :: calls) = (call.make.run t).2.afterCalls calls := by
  simp only [afterCalls, List.mapM_cons, StateT.run_bind]
  rfl

theorem answers_append :
    t.answers (calls ++ calls') = t.answers calls ++ (t.afterCalls calls).answers calls' := by
  induction calls generalizing t with
  | nil => rfl
  | cons call calls ih => simp only [List.cons_append, answers_cons, afterCalls_cons, ih]

theorem afterCalls_append :
    t.afterCalls (calls ++ calls') = (t.afterCalls calls).afterCalls calls' := by
  induction calls generalizing t with
  | nil => rfl
  | cons call calls ih => simp only [List.cons_append, afterCalls_cons, ih]

end Trace
end Refutation
