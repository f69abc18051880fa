import Refutation.Proofs.AddedAntecedents
import Refutation.Proofs.StackCopy

/-! # Grafting is all or nothing

A graft copies a derivation into the tree before it attaches the copy to a node, and attaching might
be refused.  It is not: the nodes of a copy have new keys and antecedents among each other only, so
that the copy uses none of the nodes that were there, and the parent in particular
(`ExactCopy.not_uses`).  So a graft fails exactly if the parent is missing, which is found out
before anything is copied (`ProofTree.graft_exact`).

This holds for any exact copy, whatever keys its nodes get (`ExactCopy.grafts`): for the one that
`ProofTree.insert` makes, and for the one made with a stack when a tree is edited in place. -/

namespace Refutation
namespace ProofTree

variable {p q other : ProofTree} {parent key x : Nat} {keys : Std.TreeMap Nat Nat}

/-- The tree `q` is the tree `p` with the derivation of the root of `other` copied into it, node for
node, and the copied root, which has the key `key`, appended to the antecedents of the node
`parent`. -/
structure Grafts (p : ProofTree) (parent : Nat) (other q : ProofTree) (key : Nat) : Prop where
  root_eq : q.root = p.root
  /-- There is a node more for each node that the root of `other` uses, and for no other. -/
  size_eq : ∃ used : List Nat, used.Nodup ∧ (∀ x, x ∈ used ↔ other.graph.Uses other.root x) ∧
    q.size = p.size + used.length
  /-- The key was not handed out before. -/
  nextKey_le : p.nextKey ≤ key
  contains_key : q.contains key = true
  same : (ClauseView.node q key).sameAs (.node other other.root) = true
  node_parent : ∃ c, p.node? parent = some c ∧
    q.node? parent = some { c with antecedents := c.antecedents ++ [key] }
  node_of_ne : ∀ x, x < p.nextKey → x ≠ parent → q.node? x = p.node? x

/-! ### Attaching a copy -/

theorem size_attach (p : ProofTree) (parent child : Nat) :
    (p.attach parent child).size = p.size := by
  have hsome : (p.attach parent child).slots.map Option.isSome = p.slots.map Option.isSome := by
    refine Array.ext_getElem? fun i => ?_
    simp only [attach, Array.getElem?_map, Array.getElem?_modify]
    split
    · cases p.slots[i]? with
      | none => rfl
      | some node => simp
    · rfl
  have hcount : ∀ slots : Array (Option Clause),
      slots.countP Option.isSome = (slots.map Option.isSome).countP id := fun slots => by
    rw [Array.countP_map]
    rfl
  rw [size, size, hcount, hsome, ← hcount]

namespace ExactCopy

section attached

variable (h : ExactCopy p other.graph other.root q key keys)
include h

theorem not_uses (hx : x < p.nextKey) : ¬q.graph.Uses key x := by
  intro huses
  rw [← h.getD_keys_self, h.copied.uses_iff] at huses
  obtain ⟨j, hj, rfl⟩ := huses
  have hle := h.nextKey_le_name hj
  omega

theorem copied_attach (hparent : parent < p.nextKey) :
    Copied other.graph other.root (q.attach parent key).graph fun j => keys[j]?.getD 0 := by
  refine h.copied.congr fun j hj => ?_
  have hle := h.nextKey_le_name hj
  rw [clause?_graph, clause?_graph]
  exact node?_attach_of_ne (by omega)

variable (hparent : p.contains parent = true)
include hparent

/-- **A copy is never refused as an antecedent** of a node that was there. -/
theorem addAntecedent_eq_ok : q.addAntecedent parent key = .ok (q.attach parent key) := by
  have hthere : q.contains parent = true := (h.contains_iff parent).mpr (.inl hparent)
  have hfree : ¬q.uses key parent = true := fun huses =>
    h.not_uses (lt_nextKey_of_contains hparent) ((uses_iff_of_complete h.complete).mp huses)
  rw [addAntecedent, if_pos ⟨hthere, h.contains_key⟩, if_neg hfree]

/-- **An exact copy that is attached is a graft.** -/
theorem grafts (hroot : q.root = p.root) (hother : other.graph.Complete other.root) :
    p.Grafts parent other (q.attach parent key) key := by
  have hlt := lt_nextKey_of_contains hparent
  have hgains := gains_attach ((h.contains_iff parent).mpr (.inl hparent)) key
  constructor
  case root_eq => exact hgains.root_eq.trans hroot
  case size_eq =>
    have hnodup := other.graph.nodup_derivation other.root
    have hsize : keys.size = (other.graph.derivation other.root).length :=
      size_eq_length hnodup fun j => (h.mem_keys j).trans hother.mem_derivation.symm
    exact ⟨_, hnodup, fun x => hother.mem_derivation, by rw [size_attach, h.size_eq, hsize]⟩
  case nextKey_le => exact h.nextKey_le_key
  case contains_key => rw [contains_attach, h.contains_key]
  case same =>
    have hcopy := h.copied_attach hlt
    have hcomplete := complete_of_copied hcopy
    have hlike := hcopy.unfoldsLike (.refl _)
    rw [h.getD_keys_self] at hcomplete hlike
    exact (ClauseGraph.sameDerivation_iff_unfoldsLike hcomplete hother).mpr hlike.symm
  case node_parent =>
    obtain ⟨c, hc, hnode⟩ := hgains.node_parent
    exact ⟨c, (h.node_of_lt parent hlt).symm.trans hc, hnode⟩
  case node_of_ne =>
    intro x hx hne
    rw [hgains.node_of_ne x hne, h.node_of_lt x hx]

end attached

end ExactCopy

/-! ### Grafts -/

theorem grafts_grafted (hparent : p.contains parent = true)
    (hother : other.graph.Complete other.root) :
    p.Grafts parent other (p.grafted parent other) p.nextKey :=
  (exactCopy_insert hother).grafts hparent rfl hother

/-- A graft made in place attaches the copy that is made with a stack. -/
theorem comesTo_graftInPlace {copy : Copying.Result} (hparent : p.contains parent = true)
    (hends : Copying.EndsWith p.slots other.graph other.root copy)
    (hcopy : ExactCopy p other.graph other.root (copy.addedTo p) copy.key copy.keys) :
    ComesTo (fun limit => p.graftInPlace? limit parent other)
      ⟨(copy.addedTo p).attach parent copy.key, .ok copy.key⟩ := by
  have hadd : ComesTo (fun limit => (copy.addedTo p).addInPlace? limit parent copy.key) _ :=
    comesTo_addInPlace fun _ => hcopy.complete
  have hok := hcopy.addAntecedent_eq_ok hparent
  rw [afterAdding_of_ok hok, hok] at hadd
  simp only [graftInPlace?, if_pos hparent]
  exact ComesTo.bind hends (hadd.map _)

theorem comesTo_graftInPlace_of_missing (hparent : p.contains parent = false) (other : ProofTree) :
    ComesTo (fun limit => p.graftInPlace? limit parent other) ⟨p, .error .missingNode⟩ := by
  simp only [graftInPlace?, hparent]
  exact .const _

theorem exists_comesTo_graftInPlace (hparent : p.contains parent = true)
    (hother : other.WellFormed) :
    ∃ q key, ComesTo (fun limit => p.graftInPlace? limit parent other) ⟨q, .ok key⟩ ∧
      p.Grafts parent other q key := by
  have hcomplete := hother.complete hother.root_mem
  obtain ⟨copy, hends, hexact⟩ := Copying.exists_endsWith hcomplete hother.wellFounded p
  have hcopy : ExactCopy p other.graph other.root (copy.addedTo p) copy.key copy.keys :=
    hexact p.root
  exact ⟨_, copy.key, comesTo_graftInPlace hparent hends hcopy, hcopy.grafts hparent rfl hcomplete⟩

/-- **A graft is all or nothing**, whatever the tree and the key, for any other tree of the library.
It fails exactly if the parent is missing, never for a circle, and then the tree is as it was: no
copy is left behind.  If it succeeds there is a node more for each node that the root of `other`
uses, the copied root has a new key, the same derivation as the root of `other`, and is the last
antecedent of the parent; and all other nodes that were there stay as they were.

The same holds of the call made in place, which copies with a stack and decides about circles by a
walk. -/
theorem graft_exact (p : ProofTree) (hother : other.Obtained) (parent : Nat) :
    ((∃ e, p.graft parent other = .error e) ↔ p.contains parent = false) ∧
    p.graft parent other ≠ .error .cycle ∧
    (p.contains parent = false →
      p.graft parent other = .error .missingNode ∧ p.after (.graft parent other) = p ∧
        ComesTo (fun limit => p.graftInPlace? limit parent other) ⟨p, .error .missingNode⟩) ∧
    (p.contains parent = true →
      (∃ q, p.graft parent other = .ok q ∧ p.after (.graft parent other) = q ∧
        p.Grafts parent other q p.nextKey) ∧
      ∃ q key, ComesTo (fun limit => p.graftInPlace? limit parent other) ⟨q, .ok key⟩ ∧
        p.Grafts parent other q key) := by
  have hform := hother.wellFormed
  have hcomplete := hform.complete hform.root_mem
  cases hparent : p.contains parent with
  | false =>
      have hrefused : p.graft parent other = .error .missingNode := by simp [graft, hparent]
      exact ⟨iff_of_true ⟨_, hrefused⟩ rfl, by simp [hrefused],
        fun _ => ⟨hrefused, by simp [after, hparent],
          comesTo_graftInPlace_of_missing hparent other⟩,
        fun h => absurd h (by decide)⟩
  | true =>
      have hok := graft_eq_ok hparent hcomplete
      exact ⟨by simp [hok], by simp [hok], fun h => absurd h (by decide),
        fun _ => ⟨⟨_, hok, after_graft_of_ok hok, grafts_grafted hparent hcomplete⟩,
          exists_comesTo_graftInPlace hparent hform⟩⟩

/-- The tangled derivation grafted into itself: node 3 is not copied, and the copied root gets the
key 4. -/
theorem graft_exact_tangled :
    tangledSample.Obtained ∧
      tangledSample.graft 9 tangledSample = .error .missingNode ∧
      tangledSample.after (.graft 9 tangledSample) = tangledSample ∧
      ∃ q, tangledSample.graft 1 tangledSample = .ok q ∧ q.size = 7 ∧
        q.node? 1 = some ⟨[1, 2], [4]⟩ ∧ q.node? 3 = tangledSample.node? 3 ∧
        (ClauseView.node q 4).sameAs (.node tangledSample 0) = true := by
  have hother := tangledSample_obtained
  obtain ⟨-, -, hmissing, -⟩ := graft_exact tangledSample hother 9
  obtain ⟨hrefused, hsame, -⟩ := hmissing (by decide)
  obtain ⟨-, -, -, hthere⟩ := graft_exact tangledSample hother 1
  obtain ⟨⟨q, hq, -, hgrafts⟩, -⟩ := hthere (by decide)
  obtain ⟨used, hnodup, hused, hsize⟩ := hgrafts.size_eq
  obtain ⟨c, hc, hnode⟩ := hgrafts.node_parent
  cases hc
  have hlength : used.length = 3 := by
    have hderivation : tangledSample.derivation = [0, 1, 2] := by decide +kernel
    have hperm : used.Perm [0, 1, 2] := by
      rw [← hderivation]
      refine (List.perm_ext_iff_of_nodup hnodup (tangledSample.graph.nodup_derivation 0)).mpr ?_
      exact fun x => (hused x).trans hother.wellFormed.mem_derivation_root.symm
    exact hperm.length_eq
  refine ⟨hother, hrefused, hsame, q, hq, ?_, hnode, ?_, hgrafts.same⟩
  · rw [hsize, hlength]
    rfl
  · exact hgrafts.node_of_ne 3 (by decide) (by decide)

end ProofTree
end Refutation
