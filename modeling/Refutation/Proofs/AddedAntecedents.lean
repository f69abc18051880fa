import Refutation.Proofs.SameDerivation
import Refutation.Proofs.TreeHistory
import Refutation.Proofs.Walks

/-! # Adding an antecedent

An antecedent is refused exactly if it would close a circle, and otherwise appended
(`ProofTree.addAntecedent_exact`).  Whether it would is decided before anything is changed, by a
walk from the child.  After it has been appended every walk from the child to the parent goes on to
the child, so that there is a circle if and only if there was such a walk
(`WellFormed.acyclic_attach_iff`).

A node that does not use the parent uses none of what was changed, and unfolds as it did
(`unfoldsLike_attach`). -/

namespace Refutation
namespace ProofTree

variable {p q : ProofTree} {parent child key x : Nat}

/-- The tree `q` is the tree `p` with `child` appended to the antecedents of the node `parent`, and
with no other change. -/
structure Gains (p q : ProofTree) (parent child : Nat) : Prop where
  root_eq : q.root = p.root
  nextKey_eq : q.nextKey = p.nextKey
  node_parent : ∃ c, p.node? parent = some c ∧
    q.node? parent = some { c with antecedents := c.antecedents ++ [child] }
  node_of_ne : ∀ key, key ≠ parent → q.node? key = p.node? key

theorem gains_attach (hparent : p.contains parent = true) (child : Nat) :
    p.Gains (p.attach parent child) parent child where
  root_eq := rfl
  nextKey_eq := by simp [nextKey, attach]
  node_parent := by
    obtain ⟨c, hc⟩ := contains_iff.mp hparent
    exact ⟨c, hc, by rw [node?_attach_self, hc, Option.map_some]⟩
  node_of_ne _ hne := node?_attach_of_ne hne.symm

/-! ### Circles -/

theorem mem_antecedents_attach_iff (hparent : p.contains parent = true) :
    x ∈ (p.attach parent child).graph.antecedents key ↔
      x ∈ p.graph.antecedents key ∨ key = parent ∧ x = child := by
  refine ⟨mem_antecedents_attach, fun hx => ?_⟩
  obtain ⟨c, hc, hnode⟩ := (gains_attach hparent child).node_parent
  by_cases hkey : key = parent
  · subst hkey
    rw [← clause?_graph] at hc hnode
    rw [ClauseGraph.antecedents_of_clause? hc] at hx
    rw [ClauseGraph.antecedents_of_clause? hnode]
    simpa using hx
  · simpa [ClauseGraph.antecedents, node?_attach_of_ne (Ne.symm hkey), hkey] using hx

theorem WellFormed.acyclic_attach_iff (h : p.WellFormed) (hparent : p.contains parent = true)
    (hchild : p.contains child = true) :
    (p.attach parent child).graph.Acyclic ↔ ¬p.graph.Uses child parent := by
  refine ⟨fun hacyclic huses => ?_, fun hfree => (h.attach hchild hfree).acyclic⟩
  have hnew : child ∈ (p.attach parent child).graph.antecedents parent :=
    (mem_antecedents_attach_iff hparent).mpr (.inr ⟨rfl, rfl⟩)
  refine hacyclic parent child hnew (huses.mono fun key a ha => ?_)
  exact (mem_antecedents_attach_iff hparent).mpr (.inl ha)

theorem WellFormed.addAntecedent_eq_cycle_iff (h : p.WellFormed)
    (hparent : p.contains parent = true) (hchild : p.contains child = true) :
    p.addAntecedent parent child = .error .cycle ↔ p.graph.Uses child parent := by
  rw [ProofTree.addAntecedent, if_pos ⟨hparent, hchild⟩, ← h.uses_eq_true_iff hchild]
  by_cases huses : p.uses child parent = true
  · simp [huses]
  · simp [huses]

/-! ### What stays -/

theorem unfoldsLike_attach (hx : ¬p.graph.Uses x parent) :
    ClauseGraph.UnfoldsLike p.graph x (p.attach parent child).graph x := by
  refine ClauseGraph.unfoldsLike_of_agree fun j hj => ?_
  rw [clause?_graph, clause?_graph]
  refine node?_attach_of_ne fun heq => hx ?_
  exact heq ▸ hj

theorem afterAdding_of_ok (h : p.addAntecedent parent child = .ok q) :
    p.afterAdding parent child = q := by
  rw [afterAdding, h]

theorem afterAdding_of_error {e : ProofTreeError} (h : p.addAntecedent parent child = .error e) :
    p.afterAdding parent child = p := by
  rw [afterAdding, h]

/-- **Adding an antecedent is refused exactly if it would close a circle**, or one of the nodes is
missing, for any tree of the library and any keys.  A refused call leaves the tree as it was.  If
the call succeeds the child is the last antecedent of the parent, nothing else is changed, and every
node that does not use the parent unfolds to the derivation that it unfolded to before.

The call made in place, with a walk from the child to decide about circles, comes to this tree and
answer. -/
theorem addAntecedent_exact (hp : p.Obtained) (parent child : Nat) :
    ComesTo (fun limit => p.addInPlace? limit parent child)
      ⟨p.afterAdding parent child, (p.addAntecedent parent child).map fun _ => ()⟩ ∧
    (p.addAntecedent parent child = .error .missingNode ↔
      p.contains parent = false ∨ p.contains child = false) ∧
    (p.contains parent = true → p.contains child = true →
      (p.addAntecedent parent child = .error .cycle ↔ p.graph.Uses child parent) ∧
      p.Gains (p.attach parent child) parent child ∧
      (p.graph.Uses child parent ↔ ¬(p.attach parent child).graph.Acyclic)) ∧
    (∀ e, p.addAntecedent parent child = .error e → p.afterAdding parent child = p) ∧
    ∀ q, p.addAntecedent parent child = .ok q →
      p.afterAdding parent child = q ∧ p.Gains q parent child ∧
        ∀ x, p.contains x = true → ¬p.graph.Uses x parent →
          ∃ d, (ClauseView.node p x).UnfoldsTo d ∧ (ClauseView.node q x).UnfoldsTo d := by
  have hform := hp.wellFormed
  refine ⟨comesTo_addInPlace hform.complete, ?_, ?_, fun e he => afterAdding_of_error he, ?_⟩
  · rw [addAntecedent_eq_missingNode, not_and_or, Bool.not_eq_true, Bool.not_eq_true]
  · intro hparent hchild
    refine ⟨hform.addAntecedent_eq_cycle_iff hparent hchild, gains_attach hparent child, ?_⟩
    rw [hform.acyclic_attach_iff hparent hchild, not_not]
  · intro q hq
    obtain ⟨⟨hparent, -⟩, -, rfl⟩ := hform.addAntecedent_eq_ok_iff.mp hq
    refine ⟨afterAdding_of_ok hq, gains_attach hparent child, fun x hx hfree => ?_⟩
    have hview : (ClauseView.node p x).Obtained := ⟨hp, hx⟩
    obtain ⟨d, hd⟩ := hview.exists_unfoldsTo
    exact ⟨d, hd, ClauseGraph.Unfolds.of_unfoldsLike hd (unfoldsLike_attach hfree)⟩

/-- A derivation of `[1, 3]` from `[1, 2]` and `[-2, 3]`, with `[1, 2]` as an antecedent of
`[-2, 3]` too, and a node for `[7]`, with the same antecedent, that the root does not use. -/
def tangledSample : ProofTree where
  slots := #[some ⟨[1, 3], [1, 2]⟩, some ⟨[1, 2], []⟩, some ⟨[-2, 3], [1]⟩, some ⟨[7], [1]⟩]
  root := 0

theorem tangledSample_obtained : tangledSample.Obtained := by
  have hstart : (ofClause Trace.sample.graph 3).Obtained :=
    .ofTrace Trace.sample_obtained.wellFormed (by decide)
  have hcalls : ∀ call ∈ [.insert (.node (leaf [7]) 0), .addAntecedent 2 1, .addAntecedent 3 1],
      Call.Allowed call := by
    simp only [List.forall_mem_cons]
    exact ⟨⟨.leaf [7], rfl⟩, trivial, trivial, by simp⟩
  have hmade : (ofClause Trace.sample.graph 3).afterAll
      [.insert (.node (leaf [7]) 0), .addAntecedent 2 1, .addAntecedent 3 1] = tangledSample := by
    decide +kernel
  exact hmade ▸ hstart.afterAll hcalls

/-- The root uses node 1 and cannot become its antecedent.  It becomes an antecedent of node 3,
which nothing uses, and node 1 becomes an antecedent of node 2 once more. -/
theorem addAntecedent_exact_tangled :
    tangledSample.Obtained ∧ tangledSample.graph.Uses 0 1 ∧
      tangledSample.addAntecedent 1 0 = .error .cycle ∧
      tangledSample.afterAdding 1 0 = tangledSample ∧
      ¬(tangledSample.attach 1 0).graph.Acyclic ∧
      (tangledSample.afterAdding 3 0).node? 3 = some ⟨[7], [1, 0]⟩ ∧
      (∃ d, (ClauseView.node tangledSample 0).UnfoldsTo d ∧
        (ClauseView.node (tangledSample.afterAdding 3 0) 0).UnfoldsTo d) ∧
      (tangledSample.afterAdding 2 1).node? 2 = some ⟨[-2, 3], [1, 1]⟩ := by
  have hp := tangledSample_obtained
  have hcycle : tangledSample.addAntecedent 1 0 = .error .cycle := by decide +kernel
  obtain ⟨-, -, hclosed, herror, -⟩ := addAntecedent_exact hp 1 0
  obtain ⟨hrefused, -, hcircle⟩ := hclosed (by decide) (by decide)
  have huses := hrefused.mp hcycle
  obtain ⟨-, -, -, -, hunattached⟩ := addAntecedent_exact hp 3 0
  obtain ⟨hafter, ⟨-, -, ⟨c, hc, hnode⟩, -⟩, hkept⟩ :=
    hunattached (tangledSample.attach 3 0) (by decide +kernel)
  obtain ⟨-, -, -, -, hagain⟩ := addAntecedent_exact hp 2 1
  obtain ⟨hafter', ⟨-, -, ⟨c', hc', hnode'⟩, -⟩, -⟩ :=
    hagain (tangledSample.attach 2 1) (by decide +kernel)
  cases hc
  cases hc'
  refine ⟨hp, huses, hcycle, herror _ hcycle, hcircle.mp huses, ?_, ?_, ?_⟩
  · rw [hafter, hnode]
    rfl
  · rw [hafter]
    refine hkept 0 (by decide) fun hfrom => ?_
    have hmem := (hp.wellFormed.complete (by decide)).mem_derivation.mpr hfrom
    revert hmem
    decide +kernel
  · rw [hafter', hnode']
    rfl

end ProofTree
end Refutation
