import Refutation.NamedDerivation
import Refutation.Proofs.AddedAntecedents

/-! # Pruning

Dropping the unused nodes leaves the nodes that the root uses, each with what it had, so that the
tree is the same derivation as before, and there is nothing more to drop (`prunes_dropUnused`,
`dropUnused_dropUnused`).

If the antecedents of a node are dropped first, what the root uses then is what it used before
without going through these antecedents (`ClauseGraph.UsesAround`, `uses_clearAntecedents_iff`).  A
node below is kept if it is used in another way as well.  The derivation of the root becomes the old
one with every occurrence of the node cut down to its clause (`ClauseGraph.UnfoldsNamed.cutAt`). -/

namespace Refutation

namespace ClauseGraph

variable {g h : ClauseGraph} {i j key : Nat} {d e : NamedDerivation}

/-! ### Going around a clause -/

/-- `g.UsesAround key i j`: clause `j` is found by following antecedents from clause `i`, but never
those of the clause `key`. -/
inductive UsesAround (g : ClauseGraph) (key : Nat) : Nat → Nat → Prop where
  | refl (i : Nat) : UsesAround g key i i
  | tail {i j a : Nat} : UsesAround g key i j → j ≠ key → a ∈ g.antecedents j → UsesAround g key i a

theorem uses_iff_usesAround (hkey : h.antecedents key = [])
    (hother : ∀ j, j ≠ key → h.antecedents j = g.antecedents j) :
    h.Uses i j ↔ g.UsesAround key i j := by
  constructor
  · intro huses
    induction huses with
    | refl => exact .refl _
    | @tail k a _ ha ih =>
        have hne : k ≠ key := by
          rintro rfl
          simp [hkey] at ha
        exact .tail ih hne (hother k hne ▸ ha)
  · intro haround
    induction haround with
    | refl => exact .refl _
    | @tail k a _ hne ha ih => exact .tail ih (hother k hne ▸ ha)

/-! ### Derivations with names -/

theorem UnfoldsNamed.unique (hd : g.UnfoldsNamed i d) (he : g.UnfoldsNamed i e) : d = e := by
  induction hd generalizing e with
  | @step i c ds hc hlength hds ih =>
      cases he with
      | @step _ c' es hc' hlength' hes =>
          obtain rfl : c = c' := Option.some.inj (hc.symm.trans hc')
          congr 1
          exact eq_of_forall_antecedents hlength hlength' fun n a d e ha hd he =>
            ih n a d ha hd (hes n a e ha he)

theorem UnfoldsNamed.of_agree (hd : g.UnfoldsNamed i d)
    (hagree : ∀ j, g.Uses i j → h.clause? j = g.clause? j) : h.UnfoldsNamed i d := by
  induction hd with
  | @step i c ds hc hlength hds ih =>
      refine .step ((hagree i (.refl i)).trans hc) hlength fun n a d ha hd => ?_
      have hmem : a ∈ g.antecedents i := by
        rw [antecedents_of_clause? hc]
        exact List.mem_of_getElem? ha
      exact ih n a d ha hd fun j hj => hagree j ((Reaches.single hmem).trans hj)

/-- **If a clause loses its antecedents, every derivation is cut down there**: by induction on the
derivation, where a step of the clause itself becomes a step without antecedents. -/
theorem UnfoldsNamed.cutAt (hd : g.UnfoldsNamed i d)
    (hkey : h.clause? key = (g.clause? key).map fun c => { c with antecedents := [] })
    (hother : ∀ j, j ≠ key → h.clause? j = g.clause? j) : h.UnfoldsNamed i (d.cutAt key) := by
  induction hd with
  | @step i c ds hc hlength hds ih =>
      rw [NamedDerivation.cutAt]
      by_cases hi : i = key
      · subst hi
        rw [if_pos rfl]
        rw [hc, Option.map_some] at hkey
        exact .step (c := ⟨c.literals, []⟩) hkey rfl fun n a d ha _ => by simp at ha
      · rw [if_neg hi, NamedDerivation.cutAllAt_eq_map]
        refine .step ((hother i hi).trans hc) (by simp [hlength]) fun n a e ha he => ?_
        rw [List.getElem?_map, Option.map_eq_some_iff] at he
        obtain ⟨d, hd, rfl⟩ := he
        exact ih n a d ha hd

end ClauseGraph

namespace ProofTree

variable {p q : ProofTree} {key x : Nat}

theorem ext_node? (hroot : p.root = q.root) (hkeys : p.nextKey = q.nextKey)
    (hnode : ∀ key, p.node? key = q.node? key) : p = q := by
  have hslots : p.slots = q.slots := by
    refine Array.ext hkeys fun key hp hq => ?_
    simpa [node?, hp, hq] using hnode key
  cases p
  cases q
  simp_all

/-! ### Dropping unused nodes -/

/-- The tree `q` has exactly those nodes of the tree `p` that the root uses, with what they had. -/
structure Prunes (p q : ProofTree) : Prop where
  root_eq : q.root = p.root
  nextKey_eq : q.nextKey = p.nextKey
  contains_iff : ∀ key, q.contains key = true ↔ p.graph.Uses p.root key
  node_eq : ∀ key, q.contains key = true → q.node? key = p.node? key

theorem nextKey_dropUnused (p : ProofTree) : p.dropUnused.nextKey = p.nextKey := by
  simp [nextKey, dropUnused]

theorem nextKey_clearAntecedents (p : ProofTree) (key : Nat) :
    (p.clearAntecedents key).nextKey = p.nextKey := by
  simp [nextKey, clearAntecedents]

theorem dropUnused_eq_self (h : ∀ key, p.contains key = true → key ∈ p.derivation) :
    p.dropUnused = p := by
  refine ext_node? rfl (nextKey_dropUnused p) fun key => ?_
  rw [node?_dropUnused]
  split
  · rfl
  · next hunused =>
    have hgone : p.node? key = none := by simpa [contains] using mt (h key) hunused
    exact hgone.symm

namespace WellFormed

variable (h : p.WellFormed)
include h

/-- **Exactly what the root does not use is dropped.** -/
theorem prunes_dropUnused : p.Prunes p.dropUnused where
  root_eq := rfl
  nextKey_eq := nextKey_dropUnused p
  contains_iff key := by
    rw [contains_dropUnused, h.mem_derivation_root]
    exact ⟨fun hkey => hkey.1, fun huses => ⟨huses, h.contains_of_uses h.root_mem huses⟩⟩
  node_eq key hkey := by rw [node?_dropUnused, if_pos (contains_dropUnused.mp hkey).1]

theorem node?_dropUnused_of_uses (hx : p.graph.Uses p.root x) :
    p.dropUnused.node? x = p.node? x := by
  rw [node?_dropUnused, if_pos (h.mem_derivation_root.mpr hx)]

theorem uses_root_dropUnused_iff :
    p.dropUnused.graph.Uses p.root x ↔ p.graph.Uses p.root x :=
  Reaches.congr fun y hy => by
    simp only [ClauseGraph.antecedents, clause?_graph, h.node?_dropUnused_of_uses hy]

theorem dropUnused_dropUnused : p.dropUnused.dropUnused = p.dropUnused := by
  refine dropUnused_eq_self fun key hkey => ?_
  rw [h.dropUnused.mem_derivation_root, root_dropUnused, h.uses_root_dropUnused_iff]
  exact (h.prunes_dropUnused.contains_iff key).mp hkey

theorem sameAs_dropUnused : p.dropUnused.sameAs p = true := by
  have hlike : ClauseGraph.UnfoldsLike p.graph p.root p.dropUnused.graph p.root :=
    ClauseGraph.unfoldsLike_of_agree fun x hx => h.node?_dropUnused_of_uses hx
  have hcomplete := h.dropUnused.complete h.dropUnused.root_mem
  have hroot := h.complete h.root_mem
  exact (ClauseGraph.sameDerivation_iff_unfoldsLike hcomplete hroot).mpr hlike.symm

end WellFormed

/-! ### Dropping the antecedents of a node -/

/-- The tree `q` has exactly those nodes of the tree `p` that are found from the root without
following the antecedents of the node `key`.  They have what they had, except that the node `key`
has no antecedents. -/
structure Cuts (p : ProofTree) (key : Nat) (q : ProofTree) : Prop where
  root_eq : q.root = p.root
  nextKey_eq : q.nextKey = p.nextKey
  contains_iff : ∀ x, q.contains x = true ↔ p.graph.UsesAround key p.root x
  node_of_ne : ∀ x, x ≠ key → q.contains x = true → q.node? x = p.node? x
  node_key : q.contains key = true →
    ∃ c, p.node? key = some c ∧ q.node? key = some { c with antecedents := [] }

theorem node?_clearAntecedents_self (p : ProofTree) (key : Nat) :
    (p.clearAntecedents key).node? key =
      (p.node? key).map fun c => { c with antecedents := [] } := by
  rw [node?_clearAntecedents, if_pos rfl]

theorem node?_clearAntecedents_of_ne (h : x ≠ key) :
    (p.clearAntecedents key).node? x = p.node? x := by
  rw [node?_clearAntecedents, if_neg h.symm]

theorem uses_clearAntecedents_iff {y : Nat} :
    (p.clearAntecedents key).graph.Uses x y ↔ p.graph.UsesAround key x y := by
  refine ClauseGraph.uses_iff_usesAround ?_ fun z hz => ?_
  · rw [ClauseGraph.antecedents, clause?_graph, node?_clearAntecedents_self]
    cases p.node? key <;> rfl
  · simp only [ClauseGraph.antecedents, clause?_graph, node?_clearAntecedents_of_ne hz]

theorem clearAntecedents_eq_self (hkey : p.contains key = false) : p.clearAntecedents key = p := by
  refine ext_node? rfl (nextKey_clearAntecedents p key) fun x => ?_
  by_cases hx : x = key
  · subst hx
    have hgone : p.node? x = none := by simpa [contains] using hkey
    rw [node?_clearAntecedents_self, hgone, Option.map_none]
  · exact node?_clearAntecedents_of_ne hx

theorem forgetAntecedents_eq_dropUnused (hkey : p.contains key = false) :
    p.forgetAntecedents key = p.dropUnused := by
  rw [forgetAntecedents, clearAntecedents_eq_self hkey]

namespace WellFormed

variable (h : p.WellFormed) (key : Nat)
include h

/-- **Exactly what is not found around the node is dropped.** -/
theorem cuts_forgetAntecedents : p.Cuts key (p.forgetAntecedents key) := by
  have hprunes := (h.clearAntecedents key).prunes_dropUnused
  constructor
  case root_eq => rfl
  case nextKey_eq => exact hprunes.nextKey_eq.trans (nextKey_clearAntecedents p key)
  case contains_iff => exact fun x => (hprunes.contains_iff x).trans uses_clearAntecedents_iff
  case node_of_ne =>
    exact fun x hne hx => (hprunes.node_eq x hx).trans (node?_clearAntecedents_of_ne hne)
  case node_key =>
    intro hkey
    have hnode := (hprunes.node_eq key hkey).trans (node?_clearAntecedents_self p key)
    obtain ⟨c, hc⟩ := contains_iff.mp hkey
    obtain ⟨c', hc', rfl⟩ := Option.map_eq_some_iff.mp (hnode.symm.trans hc)
    exact ⟨c', hc', hc⟩

/-- **The derivation of the root is cut down at the node.** -/
theorem unfoldsNamed_forgetAntecedents {d : NamedDerivation} (hd : p.graph.UnfoldsNamed p.root d) :
    (p.forgetAntecedents key).graph.UnfoldsNamed p.root (d.cutAt key) := by
  have hcut : (p.clearAntecedents key).graph.UnfoldsNamed p.root (d.cutAt key) :=
    hd.cutAt (node?_clearAntecedents_self p key) fun x hx => node?_clearAntecedents_of_ne hx
  exact hcut.of_agree fun x hx => (h.clearAntecedents key).node?_dropUnused_of_uses hx

theorem exists_unfoldsNamed_root : ∃ d, p.graph.UnfoldsNamed p.root d := by
  obtain ⟨d, hd⟩ := ClauseGraph.exists_unfolds h.wellFounded (h.complete h.root_mem)
  obtain ⟨d', hd', -⟩ := hd.exists_unfoldsNamed
  exact ⟨d', hd'⟩

end WellFormed

/-- **Pruning removes exactly the unused nodes**, for any tree of the library and any key.

After `dropUnused` the nodes are exactly those that the root uses, with the literals and antecedents
that they had.  The tree is equal to what it was, and a second call changes nothing.

After `forgetAntecedents` the nodes are exactly those found from the root without following the
antecedents of the node `key`, with what they had, except that the node `key` has no antecedents.
The derivation that the root unfolds to is the old one with every occurrence of the node cut down to
its clause.  If there is no node `key`, the call does what `dropUnused` does.

The calls made in place, with a walk from the root, come to these trees. -/
theorem pruning_exact (hp : p.Obtained) (key : Nat) :
    ComesTo (fun limit => p.dropUnusedInPlace? limit) p.dropUnused ∧
    p.Prunes p.dropUnused ∧ p.dropUnused.sameAs p = true ∧
    p.dropUnused.dropUnused = p.dropUnused ∧
    ComesTo (fun limit => p.forgetInPlace? limit key) (p.forgetAntecedents key) ∧
    p.Cuts key (p.forgetAntecedents key) ∧
    (∃ d, p.graph.UnfoldsNamed p.root d ∧ p.graph.Unfolds p.root d.unnamed ∧
      (∀ e, p.graph.UnfoldsNamed p.root e → e = d) ∧
      (p.forgetAntecedents key).graph.UnfoldsNamed p.root (d.cutAt key) ∧
      (p.forgetAntecedents key).graph.Unfolds p.root (d.cutAt key).unnamed) ∧
    (p.contains key = false → p.forgetAntecedents key = p.dropUnused) := by
  have h := hp.wellFormed
  obtain ⟨d, hd⟩ := h.exists_unfoldsNamed_root
  have hcut := h.unfoldsNamed_forgetAntecedents key hd
  exact ⟨h.comesTo_dropUnusedInPlace, h.prunes_dropUnused, h.sameAs_dropUnused,
    h.dropUnused_dropUnused, h.comesTo_forgetInPlace key, h.cuts_forgetAntecedents key,
    ⟨d, hd, hd.unfolds, fun e he => he.unique hd, hcut, hcut.unfolds⟩,
    forgetAntecedents_eq_dropUnused⟩

/-- Node 3 is dropped since the root does not use it.  Node 1, an antecedent of node 2, stays when
the antecedents of node 2 are dropped, since the root has it as an antecedent too. -/
theorem pruning_exact_tangled :
    tangledSample.Obtained ∧ tangledSample.dropUnused.contains 3 = false ∧
      tangledSample.dropUnused.sameAs tangledSample = true ∧
      (tangledSample.forgetAntecedents 2).node? 1 = tangledSample.node? 1 ∧
      (tangledSample.forgetAntecedents 2).node? 2 = some ⟨[-2, 3], []⟩ ∧
      tangledSample.contains 9 = false ∧
      tangledSample.forgetAntecedents 9 = tangledSample.dropUnused := by
  have hp := tangledSample_obtained
  obtain ⟨-, hprunes, hsame, -, -, hcuts, -, -⟩ := pruning_exact hp 2
  obtain ⟨-, -, -, -, -, -, -, hdead⟩ := pruning_exact hp 9
  have hone : tangledSample.graph.UsesAround 2 0 1 := .tail (.refl 0) (by decide) (by decide)
  have htwo : tangledSample.graph.UsesAround 2 0 2 := .tail (.refl 0) (by decide) (by decide)
  have hthree : ¬tangledSample.graph.Uses 0 3 := by
    intro huses
    have hmem := hp.wellFormed.mem_derivation_root.mpr huses
    revert hmem
    decide +kernel
  obtain ⟨c, hc, hnode⟩ := hcuts.node_key ((hcuts.contains_iff 2).mpr htwo)
  cases hc
  refine ⟨hp, ?_, hsame, ?_, hnode, by decide, hdead (by decide)⟩
  · exact Bool.eq_false_iff.mpr fun hthere => hthree ((hprunes.contains_iff 3).mp hthere)
  · exact hcuts.node_of_ne 1 (by decide) ((hcuts.contains_iff 1).mpr hone)

end ProofTree
end Refutation
