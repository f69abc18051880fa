import Refutation.Proofs.Rebuild
import Refutation.Trace.DerivationGraph

/-! # Reachability

The ancestors of a set of clauses are the least set that contains the clauses of the set and is
closed under taking antecedents, and its descendants are the least such set that is closed under
taking the clauses that list a member as an antecedent (`LeastClosed`).  For single clauses, the one
is the other turned around.

The same sets are found by a search of the graph of derivations, or of that graph with its edges
turned around (`Trace.mem_searchedDescendants_iff`, `Trace.mem_searchedAncestors_iff`).  Node `n` is
the clause at index `n + 1`, so that paths through nodes are paths through clauses
(`Trace.reaches_reversed_iff`), and since the search keeps its marks, the nodes it visits from all
starts are those that some start leads to. -/

namespace Refutation

/-- `LeastClosed given step set`: the set is the least one that contains what is given and is closed
under steps.  What is true of what is given, and is kept by steps, is true of its members. -/
structure LeastClosed (given : Nat → Prop) (step : Nat → Nat → Prop) (set : IndexSet) : Prop where
  given_mem : ∀ i, given i → i ∈ set
  closed : ∀ i ∈ set, ∀ j, step i j → j ∈ set
  least : ∀ P : Nat → Prop, (∀ i, given i → P i) → (∀ i, P i → ∀ j, step i j → P j) →
    ∀ i ∈ set, P i

/-! ### Searching a graph -/

namespace NodeGraph

variable {search : NodeSearch} {g : NodeGraph} {progress : Progress}

/-- What has been found is what the nodes visited carry. -/
def Agrees (g : NodeGraph) (progress : Progress) : Prop :=
  ∀ i, i ∈ progress.found ↔ ∃ n ∈ progress.marked, g.weights[n]? = some i

theorem Agrees.visit (h : g.Agrees progress) (start : Nat) :
    g.Agrees (g.visit search progress start) := by
  intro i
  simp only [NodeGraph.visit, Std.TreeSet.mem_insertMany_list, List.contains_iff_mem,
    List.mem_filterMap, h i]
  constructor
  · rintro (⟨n, hn, hi⟩ | ⟨n, hn, hi⟩)
    · exact ⟨n, .inl hn, hi⟩
    · exact ⟨n, .inr hn, hi⟩
  · rintro ⟨n, hn | hn, hi⟩
    · exact .inl ⟨n, hn, hi⟩
    · exact .inr ⟨n, hn, hi⟩

theorem Agrees.foldl_visit (h : g.Agrees progress) (starts : List Nat) :
    g.Agrees (starts.foldl (g.visit search) progress) := by
  induction starts generalizing progress with
  | nil => exact h
  | cons start starts ih => exact ih (h.visit start)

theorem marked_foldl_visit (starts : List Nat) :
    (starts.foldl (g.visit search) progress).marked =
      starts.foldl (fun marked start => marked.insertMany (search g marked start))
        progress.marked :=
  (List.foldl_hom Progress.marked fun _ _ => rfl).symm

end NodeGraph

namespace Trace

variable {t : Trace} {s : IndexSet} {search : NodeSearch} {g : NodeGraph} {i j n m : Nat}

theorem foundFrom_eq :
    t.foundFrom search g s =
      (((t.present s).toList.map (· - 1)).foldl (g.visit search) ⟨∅, ∅⟩).found :=
  rfl

theorem getElem?_toArray_indices : t.indices.toArray[n]? = some i ↔ n + 1 = i ∧ i ∈ t.indices := by
  rw [List.getElem?_toArray, indices, List.getElem?_eq_some_iff, List.mem_range'_1]
  simp only [List.length_range', List.getElem_range', exists_prop]
  omega

theorem mem_starts :
    n ∈ (t.present s).toList.map (· - 1) ↔ ∃ j ∈ s, j ∈ t.indices ∧ j - 1 = n := by
  simp only [List.mem_map, Std.TreeSet.mem_toList, mem_present, mem_indices, and_assoc]

/-- **What a search finds in a graph of clauses**: what some clause of the set leads to. -/
theorem mem_foundFrom_iff (hsearch : search.Exact) (hrange : g.InRange)
    (hweights : g.weights = t.indices.toArray) :
    i ∈ t.foundFrom search g s ↔
      i ∈ t.indices ∧ ∃ j ∈ s, j ∈ t.indices ∧ Reaches g.targets (j - 1) (i - 1) := by
  have hagrees : g.Agrees (((t.present s).toList.map (· - 1)).foldl (g.visit search) ⟨∅, ∅⟩) :=
    NodeGraph.Agrees.foldl_visit (by simp [NodeGraph.Agrees]) _
  have hstart : ∀ start ∈ (t.present s).toList.map (· - 1), start < g.size := by
    intro start hstart
    obtain ⟨j, -, hj, rfl⟩ := mem_starts.mp hstart
    rw [mem_indices] at hj
    rw [NodeGraph.size, hweights, List.size_toArray, indices, List.length_range']
    omega
  have hmarked : ∀ n,
      n ∈ (((t.present s).toList.map (· - 1)).foldl (g.visit search) ⟨∅, ∅⟩).marked ↔
        ∃ start ∈ (t.present s).toList.map (· - 1), Reaches g.targets start n := by
    intro n
    rw [NodeGraph.marked_foldl_visit, mem_foldl_search_iff
      (fun start hmem marked hclosed => hsearch g hrange marked hclosed start (hstart start hmem))
      fun m hm => (Std.TreeSet.not_mem_emptyc hm).elim]
    simp only [Std.TreeSet.not_mem_emptyc, false_or]
  rw [foundFrom_eq, hagrees i, hweights]
  simp only [hmarked, getElem?_toArray_indices]
  constructor
  · rintro ⟨n, ⟨start, hmem, hreach⟩, rfl, hi⟩
    obtain ⟨j, hj, hidx, rfl⟩ := mem_starts.mp hmem
    exact ⟨hi, j, hj, hidx, hreach⟩
  · rintro ⟨hi, j, hj, hidx, hreach⟩
    have hpos := (mem_indices.mp hi).1
    exact ⟨i - 1, ⟨j - 1, mem_starts.mpr ⟨j, hj, hidx, rfl⟩, hreach⟩, by omega, hi⟩

/-! ### Paths through clauses -/

theorem mem_edges : (i, j) ∈ t.edges ↔ i ∈ t.antecedents j := by
  simp only [edges, List.mem_flatMap, List.mem_map, Prod.mk.injEq]
  constructor
  · rintro ⟨k, -, a, ha, rfl, rfl⟩
    exact ha
  · intro h
    obtain ⟨c, hc, -⟩ := mem_antecedents h
    exact ⟨j, mem_indices_of_clause? hc, i, h, rfl, rfl⟩

theorem mem_targets_derivations (h : t.WellFormed) :
    m ∈ t.derivations.targets n ↔ n + 1 ∈ t.antecedents (m + 1) := by
  rw [NodeGraph.mem_targets]
  constructor
  · intro hedge
    obtain ⟨⟨a, i⟩, hmem, heq⟩ := List.mem_map.mp hedge
    cases heq
    have ha := mem_edges.mp hmem
    have hpos := (mem_indices.mp (h.mem_indices_of_mem_antecedents ha)).1
    have hlt := h.lt_of_mem_antecedents ha
    rwa [Nat.sub_add_cancel hpos, Nat.sub_add_cancel (by omega)]
  · exact fun ha => List.mem_map.mpr ⟨(n + 1, m + 1), mem_edges.mpr ha, rfl⟩

theorem inRange_derivations (h : t.WellFormed) : t.derivations.InRange := by
  have hsize : t.derivations.size = t.size := by
    simp only [NodeGraph.size, derivations, List.size_toArray, indices, List.length_range']
  rintro ⟨n, m⟩ hedge
  have ha := (mem_targets_derivations h).mp (NodeGraph.mem_targets.mpr hedge)
  obtain ⟨c, hc, -⟩ := mem_antecedents ha
  have hm := (mem_indices.mp (mem_indices_of_clause? hc)).2
  have hlt := h.lt_of_mem_antecedents ha
  rw [hsize]
  omega

theorem reaches_reversed_iff (h : t.WellFormed) (hi : i ∈ t.indices) (hj : j ∈ t.indices) :
    Reaches t.derivations.reversed.targets (i - 1) (j - 1) ↔ Reaches t.antecedents i j := by
  constructor
  · intro hreach
    have hmap : Reaches t.antecedents (i - 1 + 1) (j - 1 + 1) :=
      hreach.map (f := (· + 1)) fun n m hm => by
        rwa [NodeGraph.mem_targets_reversed, mem_targets_derivations h] at hm
    rwa [Nat.sub_add_cancel (mem_indices.mp hi).1, Nat.sub_add_cancel (mem_indices.mp hj).1] at hmap
  · refine Reaches.map (f := (· - 1)) fun k a ha => ?_
    have hpos := (mem_indices.mp (h.mem_indices_of_mem_antecedents ha)).1
    have hlt := h.lt_of_mem_antecedents ha
    rwa [NodeGraph.mem_targets_reversed, mem_targets_derivations h, Nat.sub_add_cancel hpos,
      Nat.sub_add_cancel (by omega)]

theorem reaches_derivations_iff (h : t.WellFormed) (hi : i ∈ t.indices) (hj : j ∈ t.indices) :
    Reaches t.derivations.targets (i - 1) (j - 1) ↔ Reaches t.antecedents j i := by
  rw [← reaches_reversed_iff h hj hi]
  constructor
  · exact Reaches.flip fun _ _ hm => NodeGraph.mem_targets_reversed.mpr hm
  · exact Reaches.flip fun _ _ hm => NodeGraph.mem_targets_reversed.mp hm

/-- **A search against the edges finds the ancestors.** -/
theorem mem_searchedAncestors_iff (h : t.WellFormed) (hsearch : search.Exact) :
    i ∈ t.searchedAncestors search s ↔ i ∈ t.ancestors s := by
  rw [searchedAncestors, mem_foundFrom_iff hsearch (inRange_derivations h).reversed rfl,
    mem_ancestors_iff h]
  constructor
  · rintro ⟨hi, j, hj, hidx, hreach⟩
    exact ⟨j, hj, hidx, (reaches_reversed_iff h hidx hi).mp hreach⟩
  · rintro ⟨j, hj, hidx, hreach⟩
    have hi := h.mem_indices_of_reaches hidx hreach
    exact ⟨hi, j, hj, hidx, (reaches_reversed_iff h hidx hi).mpr hreach⟩

theorem mem_indices_of_reaches_to (hj : j ∈ t.indices) (hreach : Reaches t.antecedents i j) :
    i ∈ t.indices := by
  refine hreach.mem_of_reached (P := (· ∈ t.indices)) (fun k a ha _ => ?_) hj
  obtain ⟨c, hc, -⟩ := mem_antecedents ha
  exact mem_indices_of_clause? hc

/-- **A search along the edges finds the descendants.** -/
theorem mem_searchedDescendants_iff (h : t.WellFormed) (hsearch : search.Exact) :
    i ∈ t.searchedDescendants search s ↔ i ∈ t.descendants s := by
  rw [searchedDescendants, mem_foundFrom_iff hsearch (inRange_derivations h) rfl,
    mem_descendants_iff h]
  constructor
  · rintro ⟨hi, j, hj, hidx, hreach⟩
    exact ⟨j, hj, hidx, (reaches_derivations_iff h hidx hi).mp hreach⟩
  · rintro ⟨j, hj, hidx, hreach⟩
    have hi := mem_indices_of_reaches_to hidx hreach
    exact ⟨hi, j, hj, hidx, (reaches_derivations_iff h hidx hi).mpr hreach⟩

/-! ### Least sets -/

theorem leastClosed_ancestors (h : t.WellFormed) (s : IndexSet) :
    LeastClosed (fun i => i ∈ s ∧ i ∈ t.indices) (fun i a => a ∈ t.antecedents i)
      (t.ancestors s) := by
  constructor
  case given_mem =>
    rintro i ⟨hi, hidx⟩
    exact (mem_ancestors_iff h).mpr ⟨i, hi, hidx, .refl i⟩
  case closed =>
    intro i hi a ha
    obtain ⟨j, hj, hidx, hreach⟩ := (mem_ancestors_iff h).mp hi
    exact (mem_ancestors_iff h).mpr ⟨j, hj, hidx, .tail hreach ha⟩
  case least =>
    intro P hgiven hstep i hi
    obtain ⟨j, hj, hidx, hreach⟩ := (mem_ancestors_iff h).mp hi
    exact hreach.mem_of_reaches hstep (hgiven j ⟨hj, hidx⟩)

theorem leastClosed_descendants (h : t.WellFormed) (s : IndexSet) :
    LeastClosed (fun i => i ∈ s ∧ i ∈ t.indices) (fun a i => a ∈ t.antecedents i)
      (t.descendants s) := by
  constructor
  case given_mem =>
    rintro i ⟨hi, hidx⟩
    exact (mem_descendants_iff h).mpr ⟨i, hi, hidx, .refl i⟩
  case closed => exact fun a ha i hi => descendants_closed h ha hi
  case least =>
    intro P hgiven hstep i hi
    obtain ⟨j, hj, hidx, hreach⟩ := (mem_descendants_iff h).mp hi
    exact hreach.mem_of_reached (fun k a ha hP => hstep a hP k ha) (hgiven j ⟨hj, hidx⟩)

theorem mem_descendants_singleton_iff (h : t.WellFormed) (hi : i ∈ t.indices) :
    j ∈ t.descendants {i} ↔ Reaches t.antecedents j i := by
  rw [mem_descendants_iff h]
  constructor
  · rintro ⟨k, hk, -, hreach⟩
    obtain rfl : i = k := by simpa using hk
    exact hreach
  · exact fun hreach => ⟨i, by simp, hi, hreach⟩

/-- **Ancestors and descendants are exact closures**, of any set, whether or not its indices name
clauses.  The ancestors are the least set with the clauses of the set and the antecedents of its
members; the descendants are the least set with the clauses of the set and each clause that lists a
member as an antecedent; and a clause is a descendant of another if that is an ancestor of it.  Any
exact search of the graph of derivations finds the same. -/
theorem reachability_exact (ht : t.Obtained) (s : IndexSet) :
    LeastClosed (fun i => i ∈ s ∧ i ∈ t.indices) (fun i a => a ∈ t.antecedents i)
        (t.ancestors s) ∧
      LeastClosed (fun i => i ∈ s ∧ i ∈ t.indices) (fun a i => a ∈ t.antecedents i)
        (t.descendants s) ∧
      (∀ i ∈ t.indices, ∀ j ∈ t.indices, j ∈ t.descendants {i} ↔ i ∈ t.ancestors {j}) ∧
      ∀ search : NodeSearch, search.Exact →
        (∀ i, i ∈ t.searchedAncestors search s ↔ i ∈ t.ancestors s) ∧
          ∀ i, i ∈ t.searchedDescendants search s ↔ i ∈ t.descendants s := by
  have h := ht.wellFormed
  refine ⟨leastClosed_ancestors h s, leastClosed_descendants h s, fun i hi j hj => ?_,
    fun search hsearch => ⟨fun i => ?_, fun i => ?_⟩⟩
  · rw [mem_descendants_singleton_iff h hi, mem_ancestors_singleton_iff h hj]
  · exact mem_searchedAncestors_iff h hsearch
  · exact mem_searchedDescendants_iff h hsearch

/-- Two axioms, a resolvent of them, and two more clauses, the last of which was derived from the
fourth alone and names it twice. -/
def repeatingSample : Trace :=
  ⟨#[⟨[1], []⟩, ⟨[-1, 2], []⟩, ⟨[2], [1, 2]⟩, ⟨[3], []⟩, ⟨[2, 3], [4, 4]⟩]⟩

theorem repeatingSample_obtained : repeatingSample.Obtained :=
  obtained_iff_wellFormed.mpr (by decide)

/-- A case of `reachability_exact` for sets with indices that name no clause, and the depth-first
search. -/
theorem reachability_exact_repeatingSample :
    repeatingSample.Obtained ∧ 1 ∈ repeatingSample.indices ∧ 3 ∈ repeatingSample.indices ∧
      depthFirstNodes.Exact ∧ repeatingSample.derivations.edges = [(0, 2), (1, 2), (3, 4), (3, 4)] ∧
      (repeatingSample.ancestors {0, 3, 5, 17}).toList = [1, 2, 3, 4, 5] ∧
      (repeatingSample.descendants {0, 2, 4, 17}).toList = [2, 3, 4, 5] ∧
      (∀ i, i ∈ repeatingSample.searchedAncestors depthFirstNodes {0, 3, 5, 17} ↔
        i ∈ repeatingSample.ancestors {0, 3, 5, 17}) ∧
      (3 ∈ repeatingSample.descendants {1} ↔ 1 ∈ repeatingSample.ancestors {3}) := by
  have hfirst : 1 ∈ repeatingSample.indices := by decide
  have hthird : 3 ∈ repeatingSample.indices := by decide
  obtain ⟨-, -, hturned, hsearched⟩ := reachability_exact repeatingSample_obtained {0, 3, 5, 17}
  exact ⟨repeatingSample_obtained, hfirst, hthird, exact_depthFirstNodes, rfl, by decide +kernel,
    by decide +kernel, (hsearched depthFirstNodes exact_depthFirstNodes).1,
    hturned 1 hfirst 3 hthird⟩

end Trace
end Refutation
