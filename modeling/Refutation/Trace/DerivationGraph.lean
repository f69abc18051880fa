import Refutation.Exploration
import Refutation.Trace.Query

/-! # The graph of derivations

The clauses of a trace are the nodes of a directed graph in which an edge leads from each antecedent
to the clause derived from it.  Nodes are numbered from 0 in the order they were added, and each
carries the index of its clause.  An antecedent recorded twice gives two edges.

What is derived from a set of clauses can be found by searching this graph, and what the set was
derived from by searching the same graph with its edges turned around.  One search is moved to each
clause of the set in turn, and keeps its marks: it passes over nodes it has visited before, from
whichever start.  The order in which it visits nodes makes no difference (`NodeSearch.Exact`); a
depth-first search is one that can be used (`exact_depthFirstNodes`). -/

namespace Refutation

/-- A directed graph. -/
structure NodeGraph where
  /-- What the nodes carry.  Nodes are numbered from 0. -/
  weights : Array Nat
  /-- The edges, in the order added; several may lead from one node to another. -/
  edges : List (Nat × Nat)
  deriving DecidableEq, Repr

/-- A set of nodes. -/
abbrev NodeSet := Std.TreeSet Nat

namespace NodeGraph

/-- The number of nodes. -/
def size (g : NodeGraph) : Nat := g.weights.size

/-- The nodes to which an edge leads from a node, one for each edge. -/
def targets (g : NodeGraph) (n : Nat) : List Nat :=
  (g.edges.filter fun edge => edge.1 == n).map Prod.snd

/-- The graph with its edges turned around. -/
def reversed (g : NodeGraph) : NodeGraph := { g with edges := g.edges.map Prod.swap }

/-- Every edge leads from a node to a node. -/
def InRange (g : NodeGraph) : Prop := ∀ edge ∈ g.edges, edge.1 < g.size ∧ edge.2 < g.size

theorem mem_targets {g : NodeGraph} {n m : Nat} : m ∈ g.targets n ↔ (n, m) ∈ g.edges := by
  simp [targets]

theorem mem_targets_reversed {g : NodeGraph} {n m : Nat} :
    m ∈ g.reversed.targets n ↔ n ∈ g.targets m := by
  rw [mem_targets, mem_targets]
  constructor
  · intro h
    obtain ⟨⟨a, b⟩, hedge, heq⟩ := List.mem_map.mp h
    cases heq
    exact hedge
  · exact fun h => List.mem_map.mpr ⟨(m, n), h, rfl⟩

theorem InRange.reversed {g : NodeGraph} (h : g.InRange) : g.reversed.InRange := by
  intro edge hedge
  obtain ⟨turned, hturned, rfl⟩ := List.mem_map.mp hedge
  exact (h turned hturned).symm

theorem InRange.lt_of_reaches {g : NodeGraph} (h : g.InRange) {n m : Nat} (hn : n < g.size)
    (hreach : Reaches g.targets n m) : m < g.size :=
  hreach.mem_of_reaches (P := (· < g.size)) (fun _ _ _ hm => (h _ (mem_targets.mp hm)).2) hn

end NodeGraph

/-! ### Searching -/

/-- A way to search a graph: given the nodes marked before and a node to start from, it tells the
nodes that are visited now. -/
abbrev NodeSearch := NodeGraph → (marked : NodeSet) → (start : Nat) → List Nat

/-- A search is exact if it visits the nodes that can be reached from the start and were not marked
before, and no others.  It may rely on having come to an end before, so that what can be reached
from the marked nodes is marked. -/
def NodeSearch.Exact (search : NodeSearch) : Prop :=
  ∀ g : NodeGraph, g.InRange →
    ∀ marked : NodeSet, (∀ n ∈ marked, ∀ m ∈ g.targets n, m ∈ marked) →
      ∀ start < g.size, ∀ n, n ∈ search g marked start ↔ Reaches g.targets start n ∧ n ∉ marked

/-- The depth-first search. -/
def depthFirstNodes : NodeSearch := fun g marked start => explore g.targets g.size [start] marked

theorem exact_depthFirstNodes : depthFirstNodes.Exact := by
  intro g hrange marked hmarked start hstart n
  exact mem_explore_singleton_iff (Nat.le_of_eq List.length_range)
    (fun m hreach => List.mem_range.mpr (hrange.lt_of_reaches hstart hreach)) hmarked

/-- How far a search has come. -/
structure Progress where
  /-- The nodes visited. -/
  marked : NodeSet
  /-- What they carry. -/
  found : IndexSet

/-- A search goes on from a node, until it finds nothing more. -/
def NodeGraph.visit (search : NodeSearch) (g : NodeGraph) (progress : Progress) (start : Nat) :
    Progress :=
  let nodes := search g progress.marked start
  ⟨progress.marked.insertMany nodes,
    progress.found.insertMany (nodes.filterMap fun n => g.weights[n]?)⟩

namespace Trace

/-- The graph of derivations of a trace. -/
def derivations (t : Trace) : NodeGraph where
  weights := t.indices.toArray
  edges := t.edges.map fun (antecedent, i) => (antecedent - 1, i - 1)

/-- What a search finds in a graph that is moved to each clause of a set in turn.  Indices without a
clause are passed over. -/
def foundFrom (search : NodeSearch) (g : NodeGraph) (t : Trace) (s : IndexSet) : IndexSet :=
  (((t.present s).toList.map (· - 1)).foldl (g.visit search) ⟨∅, ∅⟩).found

/-- The indices of a set together with the clauses derived from them, found by a search. -/
def searchedDescendants (search : NodeSearch) (t : Trace) (s : IndexSet) : IndexSet :=
  t.foundFrom search t.derivations s

/-- The indices of a set together with the clauses they were derived from, found by a search. -/
def searchedAncestors (search : NodeSearch) (t : Trace) (s : IndexSet) : IndexSet :=
  t.foundFrom search t.derivations.reversed s

end Trace
end Refutation
