import Refutation.Clause
import Refutation.ClauseGraph
import Refutation.Error

/-! # Resolution traces

A trace lists the clauses of a refutation in the order they were derived.  Clauses are indexed
from 1, and the antecedents of a clause are earlier clauses.

A trace grows by recording one clause after another.  `Trace.record` checks each clause: its
literals are proper and distinct, and its antecedents are earlier clauses.  The literals are
stored ordered by atom and the antecedents as given. -/

namespace Refutation

/-- The clauses of a refutation, in the order derived. -/
structure Trace where
  /-- The clause at index `i` is at position `i - 1`. -/
  clauses : Array Clause
  deriving DecidableEq, Repr

namespace Trace

/-- The trace without clauses. -/
def empty : Trace := ⟨#[]⟩

/-- The number of clauses. -/
def size (t : Trace) : Nat := t.clauses.size

/-- Whether there is a clause at an index. -/
def contains (t : Trace) (i : Nat) : Bool := decide (0 < i) && decide (i ≤ t.size)

/-- The clause at an index, counted from 1. -/
def clause? (t : Trace) : Nat → Option Clause
  | 0 => none
  | i + 1 => t.clauses[i]?

/-- The indices of the clauses, in ascending order. -/
def indices (t : Trace) : List Nat := List.range' 1 t.size

/-- The antecedents of the clause at an index; none if there is no such clause. -/
def antecedents (t : Trace) (i : Nat) : List Nat := ((t.clause? i).map Clause.antecedents).getD []

/-- The trace as a graph of clauses named by their indices. -/
def graph (t : Trace) : ClauseGraph := ⟨t.size + 1, t.clause?⟩

@[simp]
theorem mem_indices {t : Trace} {i : Nat} : i ∈ t.indices ↔ 0 < i ∧ i ≤ t.size := by
  simp only [indices, List.mem_range'_1]
  omega

theorem contains_iff {t : Trace} {i : Nat} : t.contains i = true ↔ 0 < i ∧ i ≤ t.size := by
  simp [contains]

theorem isSome_clause?_iff {t : Trace} {i : Nat} :
    (t.clause? i).isSome ↔ 0 < i ∧ i ≤ t.size := by
  cases i with
  | zero => simp [clause?]
  | succ i =>
      simp only [clause?, size, isSome_getElem?]
      omega

/-! ### Recording clauses -/

/-- The first fault among the literals of the clause to be recorded at `index`, in the order
given: a literal that is not proper, or one that was there before. -/
def literalFault? (index : Nat) (earlier : List Literal) : List Literal → Option TraceError
  | [] => none
  | l :: rest =>
      if l = 0 then some (.zeroLiteral index)
      else if l = Int32.minValue then some (.literalOutOfRange index)
      else if l ∈ earlier then some (.duplicateLiteral index l)
      else literalFault? index (l :: earlier) rest

/-- The first antecedent that is not an earlier clause. -/
def antecedentFault? (index : Nat) (antecedents : List Nat) : Option TraceError :=
  (antecedents.find? fun a => a == 0 || index ≤ a).map (.antecedentOrder index)

/-- The first fault of the clause to be recorded at `index`.  Literals are checked before
antecedents. -/
def fault? (index : Nat) (literals : List Literal) (antecedents : List Nat) :
    Option TraceError :=
  (literalFault? index [] literals).or (antecedentFault? index antecedents)

/-- Records a clause at the next index. -/
def record (t : Trace) (literals : List Literal) (antecedents : List Nat) :
    Except TraceError Trace :=
  match fault? (t.size + 1) literals antecedents with
  | some cause => .error cause
  | none => .ok ⟨t.clauses.push ⟨Literal.sortByAtom literals, antecedents⟩⟩

/-- Records clauses one after the other.  A clause at an index in `axioms` has been declared an
axiom, and must have no antecedents. -/
def recordAll (axioms : List Nat) (t : Trace) : List Clause → Except TraceError Trace
  | [] => .ok t
  | c :: rest =>
      if t.size + 1 ∈ axioms ∧ ¬c.isAxiom then .error (.axiomWithAntecedents (t.size + 1))
      else
        match t.record c.literals c.antecedents with
        | .error cause => .error cause
        | .ok t' => recordAll axioms t' rest

/-- The trace of some clauses, those at the indices in `axioms` being declared axioms. -/
def ofClauses (clauses : List Clause) (axioms : List Nat) : Except TraceError Trace :=
  recordAll axioms empty clauses

theorem size_of_record {t t' : Trace} {literals : List Literal} {antecedents : List Nat}
    (h : t.record literals antecedents = .ok t') : t'.size = t.size + 1 := by
  unfold record at h
  split at h
  · cases h
  · cases h
    simp [size]

/-! ### Well-formed traces -/

/-- The order of a clause at an index: its antecedents are earlier clauses, and its literals are
proper and strictly ascending by atom. -/
structure ClauseOk (index : Nat) (c : Clause) : Prop where
  antecedent_pos : ∀ a ∈ c.antecedents, 0 < a
  antecedent_lt : ∀ a ∈ c.antecedents, a < index
  proper : ∀ l ∈ c.literals, l.Proper
  ascending : c.literals.Pairwise fun a b => Literal.compareByAtom a b = .lt

/-- A trace is well formed if each of its clauses is. -/
def WellFormed (t : Trace) : Prop := ∀ i c, t.clause? i = some c → ClauseOk i c

/-- The first antecedent that is not an earlier clause, over all clauses; there is none in a
well-formed trace. -/
def disorder? (t : Trace) : Option TraceError :=
  t.indices.findSome? fun i => antecedentFault? i (t.antecedents i)

theorem disorder?_eq_none {t : Trace} (h : t.WellFormed) : t.disorder? = none := by
  simp only [disorder?, List.findSome?_eq_none_iff, antecedentFault?, Option.map_eq_none_iff,
    List.find?_eq_none]
  intro i _ a ha
  cases hc : t.clause? i with
  | none => simp [antecedents, hc] at ha
  | some c =>
      have ha : a ∈ c.antecedents := by simpa [antecedents, hc] using ha
      have hpos := (h i c hc).antecedent_pos a ha
      have hlt := (h i c hc).antecedent_lt a ha
      simp
      omega

end Trace
end Refutation
