import Std.Data.TreeSet
import Refutation.Clause
import Refutation.Exploration

/-! # Graphs of clauses

A trace and a proof tree store their clauses differently but are read in one way: a clause is
looked up by its name, and its antecedents are names again.  A `ClauseGraph` is this view.

The *derivation* of a clause lists the clauses used to derive it.  Two clauses, of one graph or
of two, have the same derivation (`ClauseGraph.sameDerivation`) if they agree, their antecedents
agree pairwise in order, and so on: how the clauses are named and which of them are shared makes
no difference. -/

namespace Refutation

/-- Clauses looked up by name, every name being below `bound`. -/
structure ClauseGraph where
  /-- A strict upper bound on the names of clauses. -/
  bound : Nat
  /-- The clause of a name, if the name is in use. -/
  clause? : Nat → Option Clause

namespace ClauseGraph

/-- The names of the antecedents of a clause; none if the name is not in use. -/
def antecedents (g : ClauseGraph) (i : Nat) : List Nat :=
  ((g.clause? i).map Clause.antecedents).getD []

/-- The names of the clauses used to derive a clause, itself included, each once.  The clause
comes first, and a clause before those found only through it. -/
def derivation (g : ClauseGraph) (i : Nat) : List Nat := explore g.antecedents g.bound [i] ∅

/-- A clause uses another if the other is found by following antecedents. -/
def Uses (g : ClauseGraph) : Nat → Nat → Prop := Reaches g.antecedents

theorem uses_of_mem_derivation {g : ClauseGraph} {i j : Nat} (h : j ∈ g.derivation i) :
    g.Uses i j := by
  obtain ⟨x, hx, hreach⟩ := reaches_of_mem_explore h
  exact List.mem_singleton.mp hx ▸ hreach

theorem nodup_derivation (g : ClauseGraph) (i : Nat) : (g.derivation i).Nodup := nodup_explore

theorem mem_derivation_iff {g : ClauseGraph} {i j : Nat} (h : ∀ k, g.Uses i k → k < g.bound) :
    j ∈ g.derivation i ↔ g.Uses i j := by
  have hvertices : ∀ x ∈ [i], ∀ k, Reaches g.antecedents x k → k ∈ List.range g.bound := by
    intro x hx k hreach
    rw [List.mem_singleton.mp hx] at hreach
    exact List.mem_range.mpr (h k hreach)
  rw [derivation, mem_explore_iff (by simp) hvertices]
  simp [Uses]

/-! ### Comparing derivations -/

/-- Pairs of names are ordered by the first name, then by the second. -/
instance : Ord (Nat × Nat) := lexOrd

/-- Whether the clauses of a pair of names are both there and agree. -/
def pairAgrees (g h : ClauseGraph) (p : Nat × Nat) : Bool :=
  match g.clause? p.1, h.clause? p.2 with
  | some c, some d => c.agrees d
  | _, _ => false

/-- The pairs of antecedents to compare next: those of a pair that agrees, in order. -/
def pairNext (g h : ClauseGraph) (p : Nat × Nat) : List (Nat × Nat) :=
  if pairAgrees g h p then (g.antecedents p.1).zip (h.antecedents p.2) else []

/-- Whether a clause of `g` and one of `h` have the same derivation: every pair of clauses met by
following antecedents in step agrees.  A pair met again is not compared again. -/
def sameDerivation (g : ClauseGraph) (i : Nat) (h : ClauseGraph) (j : Nat) : Bool :=
  (explore (pairNext g h) (g.bound * h.bound) [(i, j)] ∅).all (pairAgrees g h)

end ClauseGraph
end Refutation
