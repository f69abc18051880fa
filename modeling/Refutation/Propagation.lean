import Refutation.Literal
import Refutation.Formula.Basic

/-! # Unit propagation

A literal known to be true simplifies a clause: a clause that contains the literal is satisfied,
and a clause that contains its complement loses the complement.  `simplify` does this to one
clause, and `unitPropagate` to a list of clauses, dropping the satisfied ones and later repeats.

Both work on anything that can be read as a disjunction of literals (`Disjunctive`): a list of
integer literals, or a formula whose literals are compared by their normal forms.  What counts
as the complement of a literal may also be chosen freely (`propagate`). -/

namespace Refutation

/-- A kind of value that can be read as a disjunction of literals, and written from one. -/
class Disjunctive (C : Type) (L : outParam Type) where
  /-- The literals of a clause. -/
  literals : C → List L
  /-- The disjunction of some literals. -/
  ofLiterals : List L → C
  /-- The form in which a literal is compared with the literals of a clause. -/
  form : L → L
  /-- The literal that holds exactly when the given one does not. -/
  complement : L → L

/-- A list of integer literals is a clause as it stands. -/
instance : Disjunctive (List Literal) Literal where
  literals ls := ls
  ofLiterals ls := ls
  form l := l
  complement l := -l

/-- The literals of a formula are the normal forms of its disjuncts. -/
instance : Disjunctive Formula Formula where
  literals f := f.disjuncts.map Formula.normalised
  ofLiterals := Formula.disjunction
  form := Formula.normalised
  complement := Formula.complement

/-! ### One clause -/

/-- What a true literal makes of a clause. -/
inductive Outcome (C : Type) where
  /-- The clause contains the literal. -/
  | satisfied
  /-- The clause is left with the given literals, its complement having been removed. -/
  | shortened (clause : C)
  /-- The clause contains neither the literal nor its complement. -/
  | unchanged
  deriving DecidableEq, Repr

/-- What remains of the simplified clause, if it was not satisfied. -/
def Outcome.remains? {C : Type} (clause : C) : Outcome C → Option C
  | .satisfied => none
  | .shortened clause' => some clause'
  | .unchanged => some clause

section disjunctions

variable {C L : Type} [Disjunctive C L] [DecidableEq L]

/-- Simplifies a clause by a literal that is true and a complement that is false.  A clause that
contains both is satisfied. -/
def simplify (clause : C) (literal complement : L) : Outcome C :=
  let literals := Disjunctive.literals clause
  let literal := Disjunctive.form C literal
  let complement := Disjunctive.form C complement
  if literal ∈ literals then .satisfied
  else if complement ∈ literals then
    .shortened (Disjunctive.ofLiterals (literals.filter (· ≠ complement)))
  else .unchanged

/-! ### A list of clauses -/

variable [DecidableEq C]

/-- Simplifies every clause by a true literal and a false complement.  Satisfied clauses are
dropped; of equal results the first is kept. -/
def propagate (clauses : List C) (literal complement : L) : List C :=
  (clauses.filterMap fun clause => (simplify clause literal complement).remains? clause).eraseDups

/-- Simplifies every clause by a true literal and the complement of its kind. -/
def unitPropagate (clauses : List C) (literal : L) : List C :=
  propagate clauses literal (Disjunctive.complement C literal)

end disjunctions

/-! ### Integer literals -/

theorem simplify_literals (clause : List Literal) (literal complement : Literal) :
    simplify clause literal complement =
      if literal ∈ clause then .satisfied
      else if complement ∈ clause then .shortened (clause.filter (· ≠ complement))
      else .unchanged := rfl

end Refutation
