import Refutation.Literal

/-! # Clauses

A clause is a disjunction of literals together with the clauses it was derived from, its
*antecedents*.  An antecedent is named by a number: the index of a clause in a trace, or the key
of a node in a proof tree.  A clause without antecedents is an *axiom*, any other a *resolvent*. -/

namespace Refutation

/-- A disjunction of literals and the names of the clauses it was derived from. -/
structure Clause where
  /-- The literals, in the order stored. -/
  literals : List Literal
  /-- The clauses it was derived from, in the order recorded. -/
  antecedents : List Nat
  deriving DecidableEq, Repr

namespace Clause

/-- The number of literals. -/
def size (c : Clause) : Nat := c.literals.length

/-- A clause is an axiom if nothing was used to derive it. -/
def isAxiom (c : Clause) : Bool := c.antecedents.isEmpty

/-- A clause is empty if it has no literals; no valuation satisfies it. -/
def isEmpty (c : Clause) : Bool := c.literals.isEmpty

/-- The greatest atom of the literals, or `0` if there are none. -/
def greatestAtom (c : Clause) : Nat := (c.literals.map Literal.atom).foldl max 0

/-- The atom of the last literal, or `0` if there is none.  Where the literals are ordered by
atom this is the greatest atom, found without a search. -/
def lastAtom (c : Clause) : Nat := (c.literals.getLast?.map Literal.atom).getD 0

/-- The clause with every antecedent renamed, those without a new name being left out. -/
def renameAntecedents (name? : Nat → Option Nat) (c : Clause) : Clause :=
  { c with antecedents := c.antecedents.filterMap name? }

/-! ### Comparison without names

Two clauses of different stores are compared by what does not depend on how either store names
its clauses: the literals in order, and how many antecedents there are. -/

/-- Whether two clauses have the same literals in the same order, and equally many
antecedents. -/
def agrees (c d : Clause) : Bool :=
  c.literals == d.literals && c.antecedents.length == d.antecedents.length

/-- The numbers by which a clause is looked up in a hash table: its size, its literals, and the
number of its antecedents. -/
def fingerprint (c : Clause) : List Int :=
  (c.size : Int) :: (c.literals.map Int32.toInt ++ [(c.antecedents.length : Int)])

theorem fingerprint_eq_of_agrees {c d : Clause} (h : c.agrees d = true) :
    c.fingerprint = d.fingerprint := by
  simp only [agrees, Bool.and_eq_true, beq_iff_eq] at h
  simp [fingerprint, size, h.1, h.2]

/-! ### Text -/

/-- The clause in the DIMACS format: its literals separated by blanks, with the closing `0` if
`terminated`. -/
def dimacs (c : Clause) (terminated : Bool) : String :=
  " ".intercalate (c.literals.map (fun l => toString l.toInt) ++ if terminated then ["0"] else [])

/-- Numbers as a bracketed list. -/
def bracketed (numbers : List Int) : String :=
  "[" ++ ", ".intercalate (numbers.map toString) ++ "]"

/-- A one-line description of the clause at an index of a trace, with the indices of its
antecedents. -/
def describeInTrace (c : Clause) (index : Nat) : String :=
  "TraceClause \x7b index: " ++ toString index ++
    ", literals: " ++ bracketed (c.literals.map Int32.toInt) ++
    ", antecedents: " ++ bracketed (c.antecedents.map Int.ofNat) ++ " \x7d"

/-- A one-line description of a node of a proof tree, with the number of its antecedents. -/
def describeInTree (c : Clause) : String :=
  "ProofNode \x7b literals: " ++ bracketed (c.literals.map Int32.toInt) ++
    ", antecedents: " ++ toString c.antecedents.length ++ " \x7d"

end Clause
end Refutation
