import Refutation.Reduction.Basic

/-! # The closure under unit propagation

What unit propagation can derive from assumptions does not depend on an order: it is the least set
of literals that contains the assumptions and, whenever all literals of a clause but one have
their complements in the set, that one literal.  A clause with a single literal derives nothing by
itself, since the cascade starts from the assumptions. -/

namespace Refutation.Reduction

/-- `Closure clauses assumptions l`: the literal `l` is assumed, or follows from literals of the
closure by a clause with at least two literals. -/
inductive Closure (clauses : List (List Literal)) (assumptions : List Literal) :
    Literal → Prop where
  | assumed {l : Literal} (h : l ∈ assumptions) : Closure clauses assumptions l
  | derived {l : Literal} {clause : List Literal} (hclause : clause ∈ clauses)
      (hsize : 2 ≤ clause.length) (hl : l ∈ clause)
      (hrest : ∀ u ∈ clause, u ≠ l → Closure clauses assumptions (-u)) :
      Closure clauses assumptions l

/-- The closure clashes if it contains a literal with its complement, or the complements of all
literals of a clause that has any. -/
def Clashes (clauses : List (List Literal)) (assumptions : List Literal) : Prop :=
  (∃ l, Closure clauses assumptions l ∧ Closure clauses assumptions (-l)) ∨
    ∃ clause ∈ clauses, clause ≠ [] ∧ ∀ l ∈ clause, Closure clauses assumptions (-l)

/-- The literals of the clauses to be reduced, by ascending index. -/
def scopeLiterals (options : Options) (t : Trace) : List (List Literal) :=
  (scope options t).filterMap fun i => (t.clause? i).map Clause.literals

theorem Closure.mono {clauses : List (List Literal)} {A B : List Literal} (hAB : ∀ l ∈ A, l ∈ B)
    {l : Literal} (h : Closure clauses A l) : Closure clauses B l := by
  induction h with
  | assumed h => exact .assumed (hAB _ h)
  | derived hclause hsize hl _ ih => exact .derived hclause hsize hl ih

theorem Clashes.mono {clauses : List (List Literal)} {A B : List Literal}
    (hAB : ∀ l ∈ A, l ∈ B) (h : Clashes clauses A) : Clashes clauses B := by
  rcases h with ⟨l, hl, hneg⟩ | ⟨clause, hclause, hne, hall⟩
  · exact .inl ⟨l, hl.mono hAB, hneg.mono hAB⟩
  · exact .inr ⟨clause, hclause, hne, fun l hl => (hall l hl).mono hAB⟩

end Refutation.Reduction
