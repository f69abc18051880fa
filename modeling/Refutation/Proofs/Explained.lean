import Mathlib.Data.Nat.Find
import Refutation.Explanation
import Refutation.Proofs.Copies
import Refutation.Proofs.Rebuild

/-! # The structure of an explanation

An explanation of clause `i` of a reduced trace has one node for each clause of the reduced trace
that is used to derive `i`.  A shortened clause has in addition a copy of its own of the derivation,
in the full trace, of the clause it was shortened from; the root of the copy is its last antecedent.
There are no other nodes, and no two of these coincide (`Explains`).

The structure holds of the copy that an explanation starts with, where no clause has a source yet.
One step leaves the tree as it is or grafts a copy at one clause (`Explains.step`), and by induction
over the clauses to be explained the structure holds at the end (`Explains.steps`).  A step fails
only for a source that the full trace does not have, and the first to fail is the one of the last
clause, since clauses are explained from the last to the first. -/

namespace Refutation

/-- The index, in the trace reduced, of the clause that a shortened clause came from. -/
def ReducedTrace.shortenedFrom? (r : ReducedTrace) (k : Nat) : Option Nat :=
  match r.origin? k with
  | some (.simplified source) => some source
  | some (.kept _) | some .contradiction | none => none

theorem ReducedTrace.shortenedFrom?_eq_some_iff {r : ReducedTrace} {k source : Nat} :
    r.shortenedFrom? k = some source ↔ r.origin? k = some (.simplified source) := by
  unfold shortenedFrom?
  split
  · next o ho => simp [ho]
  · next ho => simp [ho]
  · next ho => simp [ho]
  · next ho => simp [ho]

/-! ### One step -/

section step

variable {full : Trace} {reduced : ReducedTrace} {p : ProofTree} {k key source : Nat}

theorem explainNode_of_none (h : reduced.shortenedFrom? k = none) :
    explainNode full reduced p k key = .ok p := by
  unfold explainNode
  unfold ReducedTrace.shortenedFrom? at h
  cases ho : reduced.origin? k with
  | none => rfl
  | some o =>
      cases o with
      | simplified source => simp [ho] at h
      | kept source => rfl
      | contradiction => rfl

theorem explainNode_of_some (h : reduced.shortenedFrom? k = some source)
    (hthere : full.contains source = true) :
    explainNode full reduced p k key =
      (p.graft key (.ofClause full.graph source)).mapError .proofTree := by
  rw [explainNode, ReducedTrace.shortenedFrom?_eq_some_iff.mp h]
  simp only [Trace.proofTree?, hthere, if_true]

theorem explainNode_of_missing (h : reduced.shortenedFrom? k = some source)
    (hmissing : full.contains source = false) :
    explainNode full reduced p k key = .error (.trace (.missingClause source)) := by
  rw [explainNode, ReducedTrace.shortenedFrom?_eq_some_iff.mp h]
  simp [Trace.proofTree?, hmissing]

end step

/-! ### Structure -/

/-- Clause `k` is used to derive clause `i` of `reduced`, and clause `j` is used to derive the
source of `k` in `full`. -/
def InSource (full : Trace) (reduced : ReducedTrace) (source? : Nat → Option Nat) (i k j : Nat) :
    Prop :=
  reduced.graph.Uses i k ∧ ∃ source, source? k = some source ∧ full.graph.Uses source j

/-- The tree `p` consists of a node for each clause used to derive clause `i` of `reduced`, clause
`k` being at the key `node k`, and of a separate copy of the derivation in `full` of each source,
clause `j` of the derivation of the source of `k` being at the key `copy k j`.  The copied source is
the last antecedent of its clause. -/
structure Explains (full : Trace) (reduced : ReducedTrace) (source? : Nat → Option Nat) (i : Nat)
    (p : ProofTree) (node : Nat → Nat) (copy : Nat → Nat → Nat) : Prop where
  root_eq : p.root = node i
  node?_node : ∀ k, reduced.graph.Uses i k → ∃ c, reduced.clause? k = some c ∧
    p.node? (node k) =
      some ⟨c.literals, c.antecedents.map node ++ ((source? k).map (copy k)).toList⟩
  node_inj : ∀ k k', reduced.graph.Uses i k → reduced.graph.Uses i k' → node k = node k' → k = k'
  copied : ∀ k source, reduced.graph.Uses i k → source? k = some source →
    Copied full.graph source p.graph (copy k)
  node_ne_copy : ∀ k k' j, reduced.graph.Uses i k → InSource full reduced source? i k' j →
    node k ≠ copy k' j
  copy_disjoint : ∀ k k' j j', InSource full reduced source? i k j →
    InSource full reduced source? i k' j' → copy k j = copy k' j' → k = k'
  covered : ∀ key, p.contains key = true → (∃ k, reduced.graph.Uses i k ∧ key = node k) ∨
    ∃ k j, InSource full reduced source? i k j ∧ key = copy k j

namespace Explains

variable {full : Trace} {reduced : ReducedTrace} {source? source?' : Nat → Option Nat}
  {i k j source : Nat} {p : ProofTree} {node : Nat → Nat} {copy : Nat → Nat → Nat}

theorem contains_node (h : Explains full reduced source? i p node copy)
    (hk : reduced.graph.Uses i k) : p.contains (node k) = true := by
  obtain ⟨c, -, hc⟩ := h.node?_node k hk
  exact ProofTree.contains_iff.mpr ⟨_, hc⟩

theorem contains_copy (h : Explains full reduced source? i p node copy)
    (hj : InSource full reduced source? i k j) : p.contains (copy k j) = true := by
  obtain ⟨hk, source, hsource, hj⟩ := hj
  obtain ⟨c, -, hc⟩ := (h.copied k source hk hsource).clause?_name j hj
  exact ProofTree.contains_iff.mpr ⟨_, hc⟩

theorem antecedents_node (h : Explains full reduced source? i p node copy)
    (hk : reduced.graph.Uses i k) :
    p.graph.antecedents (node k) =
      (reduced.graph.antecedents k).map node ++ ((source? k).map (copy k)).toList := by
  obtain ⟨c, hc, hnode⟩ := h.node?_node k hk
  rw [← ProofTree.clause?_graph] at hnode
  rw [← Trace.clause?_graph] at hc
  rw [ClauseGraph.antecedents_of_clause? hnode, ClauseGraph.antecedents_of_clause? hc]

/-- **Every node is used by the root**: the nodes of the reduced trace since their clauses are used,
and the copies through the clauses they were made for. -/
theorem uses_root (h : Explains full reduced source? i p node copy) {key : Nat}
    (hkey : p.contains key = true) : p.graph.Uses p.root key := by
  have hnode : ∀ k, reduced.graph.Uses i k → p.graph.Uses p.root (node k) := by
    intro k hk
    rw [h.root_eq]
    induction hk with
    | refl => exact .refl _
    | tail hk ha ih =>
        refine .tail ih ?_
        rw [h.antecedents_node hk]
        exact List.mem_append_left _ (List.mem_map_of_mem ha)
  cases h.covered key hkey with
  | inl hkey =>
      obtain ⟨k, hk, rfl⟩ := hkey
      exact hnode k hk
  | inr hkey =>
      obtain ⟨k, j, ⟨hk, source, hsource, hj⟩, rfl⟩ := hkey
      have hroot : copy k source ∈ p.graph.antecedents (node k) := by
        rw [h.antecedents_node hk, hsource]
        exact List.mem_append_right _ (List.mem_singleton.mpr rfl)
      have hused : p.graph.Uses (copy k source) (copy k j) :=
        (h.copied k source hk hsource).uses_iff.mpr ⟨j, hj, rfl⟩
      exact (Reaches.tail (hnode k hk) hroot).trans hused

theorem congr (h : Explains full reduced source? i p node copy)
    (hsame : ∀ k, reduced.graph.Uses i k → source?' k = source? k) :
    Explains full reduced source?' i p node copy := by
  have hin : ∀ k j, InSource full reduced source?' i k j ↔ InSource full reduced source? i k j := by
    intro k j
    unfold InSource
    constructor
    · intro hj
      exact ⟨hj.1, by rw [← hsame k hj.1]; exact hj.2⟩
    · intro hj
      exact ⟨hj.1, by rw [hsame k hj.1]; exact hj.2⟩
  constructor
  · exact h.root_eq
  · intro k hk
    rw [hsame k hk]
    exact h.node?_node k hk
  · exact h.node_inj
  · intro k source hk hsource
    rw [hsame k hk] at hsource
    exact h.copied k source hk hsource
  · intro k k' j hk hj
    exact h.node_ne_copy k k' j hk ((hin k' j).mp hj)
  · intro k k' j j' hj hj'
    exact h.copy_disjoint k k' j j' ((hin k j).mp hj) ((hin k' j').mp hj')
  · intro key hkey
    refine (h.covered key hkey).imp_right fun hcopy => ?_
    obtain ⟨k, j, hj, hname⟩ := hcopy
    exact ⟨k, j, (hin k j).mpr hj, hname⟩

/-! ### Building the tree -/

theorem ofClause (full : Trace) (h : reduced.graph.Complete i) (copy : Nat → Nat → Nat) :
    Explains full reduced (fun _ => none) i (.ofClause reduced.graph i)
      (ProofTree.copyKey 0 reduced.graph i) copy where
  root_eq := (ProofTree.copyKey_self 0 h).symm
  node?_node k hk := by
    obtain ⟨c, hc, hnode⟩ := (ProofTree.copied_ofClause h).clause?_name k hk
    refine ⟨c, hc, ?_⟩
    simpa [Clause.rename] using hnode
  node_inj k k' hk hk' := (ProofTree.copied_ofClause h).name_inj k k' hk hk'
  copied _ _ _ hsource := by cases hsource
  node_ne_copy _ _ _ _ hj := by
    obtain ⟨-, source, hsource, -⟩ := hj
    cases hsource
  copy_disjoint _ _ _ _ hj := by
    obtain ⟨-, source, hsource, -⟩ := hj
    cases hsource
  covered key hkey := .inl ((ProofTree.contains_ofClause h).mp hkey)

/-- What is in a copy when clause `k` has gained a source: the derivation of that source, or what
was in the copy of another clause before. -/
theorem inSource_update {k' : Nat}
    (hj : InSource full reduced (Function.update source? k (some source)) i k' j) :
    k' = k ∧ full.graph.Uses source j ∨ k' ≠ k ∧ InSource full reduced source? i k' j := by
  obtain ⟨hk', o, ho, hj⟩ := hj
  by_cases heq : k' = k
  · subst heq
    rw [Function.update_self] at ho
    cases ho
    exact .inl ⟨rfl, hj⟩
  · rw [Function.update_of_ne heq] at ho
    exact .inr ⟨heq, hk', o, ho, hj⟩

section graft

variable (h : Explains full reduced source? i p node copy) (hk : reduced.graph.Uses i k)
include h hk

theorem lt_nextKey_node : node k < p.nextKey :=
  ProofTree.lt_nextKey_of_contains (h.contains_node hk)

variable (hsource : full.graph.Complete source)
include hsource

theorem node?_node_graft (hnone : source? k = none) {k' : Nat} (hk' : reduced.graph.Uses i k') :
    ∃ c, reduced.clause? k' = some c ∧
      (p.grafted (node k) (.ofClause full.graph source)).node? (node k') =
        some ⟨c.literals, c.antecedents.map node ++
          ((Function.update source? k (some source) k').map
            (Function.update copy k (p.graftKey full.graph source) k')).toList⟩ := by
  obtain ⟨c, hc, hnode⟩ := h.node?_node k' hk'
  refine ⟨c, hc, ?_⟩
  by_cases heq : k' = k
  · subst heq
    rw [ProofTree.node?_grafted_self hnode, hnone, Function.update_self, Function.update_self,
      Option.map_some, ProofTree.graftKey_self hsource]
    simp
  · have hne : node k ≠ node k' := fun hsame => heq (h.node_inj k k' hk hk' hsame).symm
    rw [ProofTree.node?_grafted_of_ne (h.lt_nextKey_node hk') hne, hnode,
      Function.update_of_ne heq, Function.update_of_ne heq]

theorem copied_graft {k' o : Nat} (hk' : reduced.graph.Uses i k')
    (ho : Function.update source? k (some source) k' = some o) :
    Copied full.graph o (p.grafted (node k) (.ofClause full.graph source)).graph
      (Function.update copy k (p.graftKey full.graph source) k') := by
  by_cases heq : k' = k
  · subst heq
    rw [Function.update_self] at ho ⊢
    cases ho
    exact ProofTree.copied_graftKey (h.contains_node hk) hsource
  · rw [Function.update_of_ne heq] at ho ⊢
    apply (h.copied k' o hk' ho).congr
    intro j hj
    have hj' : InSource full reduced source? i k' j := ⟨hk', o, ho, hj⟩
    have hlt := ProofTree.lt_nextKey_of_contains (h.contains_copy hj')
    rw [ProofTree.clause?_graph, ProofTree.clause?_graph]
    exact ProofTree.node?_grafted_of_ne hlt (h.node_ne_copy k k' j hk hj')

theorem covered_graft (hnone : source? k = none) {key : Nat}
    (hkey : (p.grafted (node k) (.ofClause full.graph source)).contains key = true) :
    (∃ k', reduced.graph.Uses i k' ∧ key = node k') ∨
      ∃ k' j, InSource full reduced (Function.update source? k (some source)) i k' j ∧
        key = Function.update copy k (p.graftKey full.graph source) k' j := by
  cases (ProofTree.contains_grafted_ofClause hsource).mp hkey with
  | inl hthere =>
      refine (h.covered key hthere).imp_right fun hcopy => ?_
      obtain ⟨k', j, ⟨hk', o, ho, hj⟩, rfl⟩ := hcopy
      have hne : k' ≠ k := by
        intro heq
        rw [heq, hnone] at ho
        cases ho
      refine ⟨k', j, ⟨hk', o, ?_, hj⟩, ?_⟩
      · rw [Function.update_of_ne hne, ho]
      · rw [Function.update_of_ne hne]
  | inr hcopied =>
      obtain ⟨j, hj, rfl⟩ := hcopied
      refine .inr ⟨k, j, ⟨hk, source, ?_, hj⟩, ?_⟩
      · rw [Function.update_self]
      · rw [Function.update_self]

/-- **One graft**: a clause without a source gains a copy of the derivation of one, and nothing else
changes. -/
theorem graft (hnone : source? k = none) :
    Explains full reduced (Function.update source? k (some source)) i
      (p.grafted (node k) (.ofClause full.graph source)) node
      (Function.update copy k (p.graftKey full.graph source)) := by
  have hold : ∀ {k' j}, InSource full reduced source? i k' j → copy k' j < p.nextKey := fun hj =>
    ProofTree.lt_nextKey_of_contains (h.contains_copy hj)
  constructor
  case root_eq => rw [ProofTree.root_grafted, h.root_eq]
  case node_inj => exact h.node_inj
  case node?_node => exact fun k' hk' => h.node?_node_graft hk hsource hnone hk'
  case copied => exact fun k' o hk' ho => h.copied_graft hk hsource hk' ho
  case covered => exact fun key hkey => h.covered_graft hk hsource hnone hkey
  case node_ne_copy =>
    intro k₁ k₂ j hk₁ hj
    cases inSource_update hj with
    | inl hnew =>
        rw [hnew.1, Function.update_self]
        exact ProofTree.ne_graftKey (h.lt_nextKey_node hk₁)
    | inr hkept =>
        rw [Function.update_of_ne hkept.1]
        exact h.node_ne_copy k₁ k₂ j hk₁ hkept.2
  case copy_disjoint =>
    intro k₁ k₂ j₁ j₂ hj₁ hj₂ hsame
    cases inSource_update hj₁ with
    | inl hnew₁ =>
        cases inSource_update hj₂ with
        | inl hnew₂ => rw [hnew₁.1, hnew₂.1]
        | inr hkept₂ =>
            rw [hnew₁.1, Function.update_self, Function.update_of_ne hkept₂.1] at hsame
            exact absurd hsame.symm (ProofTree.ne_graftKey (hold hkept₂.2))
    | inr hkept₁ =>
        cases inSource_update hj₂ with
        | inl hnew₂ =>
            rw [hnew₂.1, Function.update_self, Function.update_of_ne hkept₁.1] at hsame
            exact absurd hsame (ProofTree.ne_graftKey (hold hkept₁.2))
        | inr hkept₂ =>
            rw [Function.update_of_ne hkept₁.1, Function.update_of_ne hkept₂.1] at hsame
            exact h.copy_disjoint k₁ k₂ j₁ j₂ hkept₁.2 hkept₂.2 hsame

end graft

/-! ### One clause after another -/

theorem step (h : Explains full reduced source? i p node copy) (hk : reduced.graph.Uses i k)
    (hnone : source? k = none) (hfull : full.WellFormed)
    (hthere : ∀ source, reduced.shortenedFrom? k = some source → full.contains source = true) :
    ∃ q copy', explainNode full reduced p k (node k) = .ok q ∧
      Explains full reduced (Function.update source? k (reduced.shortenedFrom? k)) i q node
        copy' := by
  cases hshort : reduced.shortenedFrom? k with
  | none =>
      refine ⟨p, copy, explainNode_of_none hshort, ?_⟩
      rw [← hnone, Function.update_eq_self]
      exact h
  | some source =>
      have hcomplete := hfull.complete (hthere source hshort)
      refine ⟨_, _, ?_, h.graft hk hcomplete hnone⟩
      rw [explainNode_of_some hshort (hthere source hshort),
        ProofTree.graft_eq_ok (h.contains_node hk) (ProofTree.complete_ofClause hcomplete)]
      rfl

/-- **All steps**: each clause of a list gains the source that the reduced trace records. -/
theorem steps (h : Explains full reduced source? i p node copy) (hfull : full.WellFormed)
    {nodes : List (Nat × Nat)} (hnodup : (nodes.map Prod.fst).Nodup)
    (hnodes : ∀ n ∈ nodes, reduced.graph.Uses i n.1 ∧ n.2 = node n.1)
    (hnone : ∀ n ∈ nodes, source? n.1 = none)
    (hthere : ∀ n ∈ nodes, ∀ source, reduced.shortenedFrom? n.1 = some source →
      full.contains source = true) :
    ∃ q copy', nodes.foldlM (fun p node => explainNode full reduced p node.1 node.2) p = .ok q ∧
      Explains full reduced
        (fun k => if k ∈ nodes.map Prod.fst then reduced.shortenedFrom? k else source? k) i q node
        copy' := by
  induction nodes generalizing p source? copy with
  | nil =>
      refine ⟨p, copy, rfl, ?_⟩
      simpa using h
  | cons n rest ih =>
      obtain ⟨k, key⟩ := n
      rw [List.map_cons, List.nodup_cons] at hnodup
      have hk : reduced.graph.Uses i k := (hnodes _ List.mem_cons_self).1
      obtain rfl : key = node k := (hnodes _ List.mem_cons_self).2
      obtain ⟨q, copy₁, hq, hstep⟩ := h.step hk (hnone _ List.mem_cons_self) hfull
        (hthere _ List.mem_cons_self)
      have hnone' : ∀ n ∈ rest,
          Function.update source? k (reduced.shortenedFrom? k) n.1 = none := by
        intro n hn
        have hmem : n.1 ∈ rest.map Prod.fst := List.mem_map_of_mem hn
        have hne : n.1 ≠ k := ne_of_mem_of_not_mem hmem hnodup.1
        rw [Function.update_of_ne hne]
        exact hnone n (List.mem_cons_of_mem _ hn)
      obtain ⟨q', copy₂, hq', hrest⟩ := ih hstep hnodup.2
        (fun n hn => hnodes n (List.mem_cons_of_mem _ hn)) hnone'
        (fun n hn => hthere n (List.mem_cons_of_mem _ hn))
      refine ⟨q', copy₂, ?_, hrest.congr fun k' _ => ?_⟩
      · rw [List.foldlM_cons, hq]
        exact hq'
      · rw [List.map_cons]
        by_cases heq : k' = k
        · subst heq
          simp [hnodup.1]
        · simp only [List.mem_cons, heq, false_or, Function.update_of_ne heq]

end Explains

/-! ### The order of the steps -/

section order

variable {full : Trace} {reduced : ReducedTrace} {i k key source : Nat}

/-- The clauses used to derive a clause and the keys of their copies, from the last clause to the
first. -/
def explainOrder (reduced : ReducedTrace) (i : Nat) : List (Nat × Nat) :=
  (ProofTree.copyKeys 0 reduced.graph i).mergeSort fun a b => b.1 ≤ a.1

theorem explain_eq (hi : reduced.contains i = true) :
    explain full reduced i =
      (explainOrder reduced i).foldlM (fun p node => explainNode full reduced p node.1 node.2)
        (.ofClause reduced.graph i) := by
  rw [explain, if_pos hi]
  rfl

theorem mem_explainOrder (h : reduced.graph.Complete i) :
    (k, key) ∈ explainOrder reduced i ↔
      reduced.graph.Uses i k ∧ key = ProofTree.copyKey 0 reduced.graph i k := by
  rw [explainOrder, List.mem_mergeSort, ProofTree.mem_copyKeys h]

theorem nodup_explainOrder (reduced : ReducedTrace) (i : Nat) :
    ((explainOrder reduced i).map Prod.fst).Nodup := by
  have hperm := (List.mergeSort_perm (ProofTree.copyKeys 0 reduced.graph i)
    fun a b => decide (b.1 ≤ a.1)).map Prod.fst
  apply hperm.nodup_iff.mpr
  rw [ProofTree.copyKeys, List.zipIdx_map_fst]
  exact reduced.graph.nodup_derivation i

theorem pairwise_explainOrder (reduced : ReducedTrace) (i : Nat) :
    (explainOrder reduced i).Pairwise fun a b => b.1 < a.1 := by
  have hle : (explainOrder reduced i).Pairwise fun a b => decide (b.1 ≤ a.1) = true := by
    apply List.pairwise_mergeSort
    · intro a b c hab hbc
      simp only [decide_eq_true_eq] at hab hbc ⊢
      omega
    · intro a b
      simp only [Bool.or_eq_true, decide_eq_true_eq]
      omega
  have hne := List.pairwise_map.mp (nodup_explainOrder reduced i)
  refine (hle.and hne).imp fun h => ?_
  simp only [decide_eq_true_eq] at h
  omega

/-- In the derivation of clause `i`, clause `k` was shortened from a clause at an index that the
full trace does not have. -/
def MissingSource (full : Trace) (reduced : ReducedTrace) (i k source : Nat) : Prop :=
  reduced.graph.Uses i k ∧ reduced.origin? k = some (.simplified source) ∧
    full.contains source = false

theorem exists_explains (hfull : full.WellFormed) (hreduced : reduced.WellFormed)
    (hi : reduced.contains i = true)
    (hthere : ¬∃ k source, MissingSource full reduced i k source) :
    ∃ p node copy, explain full reduced i = .ok p ∧
      Explains full reduced reduced.shortenedFrom? i p node copy := by
  have hcomplete := hreduced.complete hi
  have hstart := Explains.ofClause full hcomplete fun _ j => j
  obtain ⟨p, copy, hp, hexplains⟩ := hstart.steps hfull (nodup_explainOrder reduced i)
    (fun n hn => (mem_explainOrder hcomplete).mp hn) (fun _ _ => rfl) (by
      intro n hn source hsource
      by_contra hcontains
      refine hthere ⟨n.1, source, ((mem_explainOrder hcomplete).mp hn).1,
        ReducedTrace.shortenedFrom?_eq_some_iff.mp hsource, Bool.eq_false_iff.mpr hcontains⟩)
  refine ⟨p, _, copy, (explain_eq hi).trans hp, hexplains.congr fun k hk => ?_⟩
  have hmem : k ∈ (explainOrder reduced i).map Prod.fst :=
    List.mem_map_of_mem ((mem_explainOrder hcomplete).mpr ⟨hk, rfl⟩)
  rw [if_pos hmem]

/-- The last clause whose source is missing decides the error: the clauses explained before it have
their sources. -/
theorem explain_of_missing (hfull : full.WellFormed) (hreduced : reduced.WellFormed)
    (hi : reduced.contains i = true) (hmissing : MissingSource full reduced i k source)
    (hlast : ∀ k' source', MissingSource full reduced i k' source' → k' ≤ k) :
    explain full reduced i = .error (.trace (.missingClause source)) := by
  have hcomplete := hreduced.complete hi
  have hmem := (mem_explainOrder hcomplete).mpr ⟨hmissing.1, rfl⟩
  obtain ⟨front, back, happend⟩ := List.append_of_mem hmem
  have hfront : ∀ n ∈ front, n ∈ explainOrder reduced i := by
    intro n hn
    rw [happend]
    exact List.mem_append_left _ hn
  have hnodup := nodup_explainOrder reduced i
  have hlater := pairwise_explainOrder reduced i
  rw [happend, List.map_append] at hnodup
  rw [happend, List.pairwise_append] at hlater
  have hthere : ∀ n ∈ front, ∀ source', reduced.shortenedFrom? n.1 = some source' →
      full.contains source' = true := by
    intro n hn source' hsource'
    by_contra hcontains
    have hle := hlast n.1 source' ⟨((mem_explainOrder hcomplete).mp (hfront n hn)).1,
      ReducedTrace.shortenedFrom?_eq_some_iff.mp hsource', Bool.eq_false_iff.mpr hcontains⟩
    have hlt : k < n.1 := hlater.2.2 n hn _ List.mem_cons_self
    omega
  have hstart := Explains.ofClause full hcomplete fun _ j => j
  obtain ⟨p, copy, hp, -⟩ := hstart.steps hfull (List.nodup_append.mp hnodup).1
    (fun n hn => (mem_explainOrder hcomplete).mp (hfront n hn)) (fun _ _ => rfl) hthere
  rw [explain_eq hi, happend, List.foldlM_append, hp]
  have hshort := ReducedTrace.shortenedFrom?_eq_some_iff.mpr hmissing.2.1
  show List.foldlM _ p _ = _
  rw [List.foldlM_cons, explainNode_of_missing hshort hmissing.2.2]
  rfl

theorem exists_last_missing (hcomplete : reduced.graph.Complete i)
    (h : ∃ k source, MissingSource full reduced i k source) :
    ∃ k source, MissingSource full reduced i k source ∧
      ∀ k' source', MissingSource full reduced i k' source' → k' ≤ k := by
  classical
  have hbound : ∀ k source, MissingSource full reduced i k source → k ≤ reduced.graph.bound :=
    fun k _ hk => Nat.le_of_lt (hcomplete.lt_bound k hk.1)
  obtain ⟨k, source, hk⟩ := h
  obtain ⟨source', hlast⟩ := Nat.findGreatest_spec
    (P := fun k => ∃ source, MissingSource full reduced i k source) (hbound k source hk)
    ⟨source, hk⟩
  exact ⟨_, source', hlast, fun k' source'' hk' =>
    Nat.le_findGreatest (hbound k' source'' hk') ⟨source'', hk'⟩⟩

theorem not_missingSource_of_reduce {options : Reduction.Options} {assumptions : List Literal}
    (hfull : full.WellFormed) (hreduce : full.reduce options assumptions = .ok reduced) :
    ¬MissingSource full reduced i k source := by
  intro hmissing
  obtain ⟨hproper, rfl⟩ := Reduction.reduce_eq_ok_iff.mp hreduce
  obtain ⟨r, hstands, rfl⟩ := Reduction.exists_stands_of_origin (.inr hmissing.2.1)
  have hsound := Reduction.sound_cascade_eraseDups hfull options hproper
  obtain ⟨c, -, hc, -⟩ := Reduction.exists_clause_of_mem_residuals hsound hstands.mem
  have hcontains := Trace.contains_iff.mpr
    (Trace.mem_indices.mp (Trace.mem_indices_of_clause? hc))
  have hlacks := hmissing.2.2
  rw [hcontains] at hlacks
  cases hlacks

end order

/-! ### Explanations -/

/-- **The structure of an explanation**, for any two traces.  An explanation fails for an index
without a clause; else for the last clause of the derivation whose source is missing; else it
consists of the derivation in the reduced trace and of a copy of the derivation of each source, and
the root uses every node.  If the one trace was obtained by reducing the other, it does not fail. -/
theorem explain_structure {full : Trace} {reduced : ReducedTrace} (hfull : full.Obtained)
    (hreduced : reduced.toTrace.Obtained) (i : Nat) :
    (reduced.contains i = false →
      explain full reduced i = .error (.trace (.missingClause i))) ∧
    (reduced.contains i = true →
      ((∃ k source, MissingSource full reduced i k source) →
        ∃ k source, MissingSource full reduced i k source ∧
          (∀ k' source', MissingSource full reduced i k' source' → k' ≤ k) ∧
          explain full reduced i = .error (.trace (.missingClause source))) ∧
      ((¬∃ k source, MissingSource full reduced i k source) →
        ∃ p node copy, explain full reduced i = .ok p ∧
          Explains full reduced reduced.shortenedFrom? i p node copy ∧
          ∀ key, p.contains key = true → p.graph.Uses p.root key)) ∧
    (∀ options assumptions, full.reduce options assumptions = .ok reduced →
      reduced.contains i = true → ∃ p, explain full reduced i = .ok p) := by
  have hwf := hfull.wellFormed
  have hwf' := hreduced.wellFormed
  refine ⟨?_, ?_, ?_⟩
  · intro hi
    rw [explain, hi]
    rfl
  · intro hi
    constructor
    · intro hmissing
      obtain ⟨k, source, hk, hlast⟩ := exists_last_missing (hwf'.complete hi) hmissing
      exact ⟨k, source, hk, hlast, explain_of_missing hwf hwf' hi hk hlast⟩
    · intro hthere
      obtain ⟨p, node, copy, hp, hexplains⟩ := exists_explains hwf hwf' hi hthere
      exact ⟨p, node, copy, hp, hexplains, fun key hkey => hexplains.uses_root hkey⟩
  · intro options assumptions hreduce hi
    have hthere : ¬∃ k source, MissingSource full reduced i k source := by
      intro hmissing
      obtain ⟨k, source, hk⟩ := hmissing
      exact not_missingSource_of_reduce hwf hreduce hk
    obtain ⟨p, -, -, hp, -⟩ := exists_explains hwf hwf' hi hthere
    exact ⟨p, hp⟩

/-- Cases of `explain_structure` for the sample trace, reduced assuming `¬1`.  What is left of the
resolvent is explained by the sample; by the first axiom alone it is not, for there its source is
missing. -/
theorem explain_structure_sample :
    Trace.sample.Obtained ∧ (Trace.mk #[⟨[1, 2], []⟩]).Obtained ∧
      ∃ r, Trace.sample.reduce .standard [-1] = .ok r ∧ r.toTrace.Obtained ∧
        r.contains 2 = true ∧ r.shortenedFrom? 2 = some 3 ∧
        (∃ p node copy, explain Trace.sample r 2 = .ok p ∧
          Explains Trace.sample r r.shortenedFrom? 2 p node copy) ∧
        ∃ k source, MissingSource ⟨#[⟨[1, 2], []⟩]⟩ r 2 k source ∧ 2 ≤ k ∧
          explain ⟨#[⟨[1, 2], []⟩]⟩ r 2 = .error (.trace (.missingClause source)) := by
  have hfirst : (Trace.mk #[⟨[1, 2], []⟩]).Obtained := Trace.obtained_iff_wellFormed.mpr (by decide)
  have hproper : ∀ l ∈ ([-1] : List Literal), l.Proper :=
    Reduction.assumptionFault?_eq_none_iff.mp rfl
  obtain ⟨r, hr⟩ : ∃ r, Trace.sample.reduce .standard [-1] = .ok r :=
    ⟨_, Reduction.reduce_eq_ok .standard Trace.sample hproper⟩
  have hrun : (Trace.sample.reduce .standard [-1]).map
      (fun r => (r.contains 2, r.shortenedFrom? 2)) = .ok (true, some 3) := by
    decide +kernel
  rw [hr] at hrun
  obtain ⟨hcontains, hshort⟩ := Prod.mk.inj (Except.ok.inj hrun)
  have hobtained : r.toTrace.Obtained := .reduce Trace.sample_obtained hr
  have hmissing : MissingSource ⟨#[⟨[1, 2], []⟩]⟩ r 2 2 3 :=
    ⟨.refl 2, ReducedTrace.shortenedFrom?_eq_some_iff.mp hshort, rfl⟩
  refine ⟨Trace.sample_obtained, hfirst, r, hr, hobtained, hcontains, hshort, ?_, ?_⟩
  · have hthere : ¬∃ k source, MissingSource Trace.sample r 2 k source := by
      intro hlacks
      obtain ⟨k, source, hk⟩ := hlacks
      exact not_missingSource_of_reduce Trace.sample_obtained.wellFormed hr hk
    obtain ⟨p, node, copy, hp, hexplains, -⟩ :=
      ((explain_structure Trace.sample_obtained hobtained 2).2.1 hcontains).2 hthere
    exact ⟨p, node, copy, hp, hexplains⟩
  · obtain ⟨k, source, hk, hlast, herror⟩ :=
      ((explain_structure hfirst hobtained 2).2.1 hcontains).1 ⟨2, 3, hmissing⟩
    exact ⟨k, source, hk, hlast 2 3 hmissing, herror⟩

end Refutation
