import Refutation.ProofTree.Calls
import Refutation.Proofs.Copies
import Refutation.Proofs.Rebuild

/-! # Edits keep proof trees well formed

A tree is well formed if its root is there, antecedents are there, and no node is used in its own
derivation (`ProofTree.WellFormed`).  Each edit keeps this:

* a copy brings nodes that use only each other (`WellFormed.insert`);
* a new antecedent closes no circle, since it is refused if the parent is used by the child
  (`WellFormed.addAntecedent`);
* what is dropped is not used by what stays (`WellFormed.dropUnused`,
  `WellFormed.forgetAntecedents`);
* a tree under other keys has the same derivations (`Rekeyed.wellFormed`).

Hence every tree of the library is well formed (`Obtained.wellFormed`).  In a well-formed tree the
derivation of a node is longer than those of its antecedents, so that every walk over antecedents
ends (`WellFormed.wellFounded`). -/

namespace Refutation

/-! ### Acyclic graphs -/

namespace ClauseGraph

variable {g h : ClauseGraph} {i j : Nat}

/-- No clause is used in the derivation of one of its antecedents. -/
def Acyclic (g : ClauseGraph) : Prop := ∀ j, ∀ a ∈ g.antecedents j, ¬g.Uses a j

theorem antecedents_of_none (h : g.clause? i = none) : g.antecedents i = [] := by
  simp [antecedents, h]

theorem exists_clause_of_mem_antecedents {a : Nat} (ha : a ∈ g.antecedents i) :
    ∃ c, g.clause? i = some c ∧ a ∈ c.antecedents := by
  cases hc : g.clause? i with
  | none => simp [antecedents_of_none hc] at ha
  | some c => exact ⟨c, rfl, by rwa [antecedents_of_clause? hc] at ha⟩

theorem Acyclic.mono (hacyclic : h.Acyclic)
    (hsub : ∀ j, ∀ a ∈ g.antecedents j, a ∈ h.antecedents j) : g.Acyclic := by
  intro j a ha huses
  exact hacyclic j a (hsub j a ha) (Reaches.mono huses hsub)

end ClauseGraph

namespace Trace.WellFormed

variable {t : Trace} {i j : Nat}

theorem le_of_uses (h : t.WellFormed) (huses : t.graph.Uses i j) : j ≤ i := by
  refine huses.mem_of_reaches (P := (· ≤ i)) ?_ (Nat.le_refl i)
  intro k hk a ha
  have hlt : a < k := h.lt_of_mem_antecedents ha
  exact Nat.le_of_lt (Nat.lt_of_lt_of_le hlt hk)

theorem acyclic (h : t.WellFormed) : t.graph.Acyclic := by
  intro j a ha huses
  have hlt : a < j := h.lt_of_mem_antecedents ha
  have hle := h.le_of_uses huses
  omega

end Trace.WellFormed

namespace Copied

variable {g h : ClauseGraph} {i j : Nat} {name : Nat → Nat}

theorem of_uses (hcopy : Copied g i h name) (hj : g.Uses i j) : Copied g j h name where
  name_inj k l hk hl := hcopy.name_inj k l (hj.trans hk) (hj.trans hl)
  clause?_name k hk := hcopy.clause?_name k (hj.trans hk)

theorem exists_of_mem_antecedents (hcopy : Copied g i h name) (hj : g.Uses i j) {x : Nat}
    (hx : x ∈ h.antecedents (name j)) : ∃ a ∈ g.antecedents j, x = name a := by
  rw [hcopy.antecedents_name hj] at hx
  obtain ⟨a, ha, rfl⟩ := List.mem_map.mp hx
  exact ⟨a, ha, rfl⟩

theorem not_uses (hcopy : Copied g i h name) (hacyclic : g.Acyclic) (hj : g.Uses i j) :
    ∀ a ∈ h.antecedents (name j), ¬h.Uses a (name j) := by
  intro x hx huses
  obtain ⟨a, ha, rfl⟩ := hcopy.exists_of_mem_antecedents hj hx
  have hia : g.Uses i a := .tail hj ha
  obtain ⟨k, hk, hname⟩ := (hcopy.of_uses hia).uses_iff.mp huses
  obtain rfl : j = k := hcopy.name_inj j k hj (hia.trans hk) hname
  exact hacyclic j a ha hk

end Copied

namespace ProofTree

variable {p q other : ProofTree} {g : ClauseGraph} {i key parent child x y : Nat} {c : Clause}

/-! ### Walks over antecedents -/

theorem contains_of_mem_antecedents (h : x ∈ p.graph.antecedents key) :
    p.contains key = true := by
  obtain ⟨c, hc, -⟩ := ClauseGraph.exists_clause_of_mem_antecedents h
  exact contains_iff.mpr ⟨c, hc⟩

theorem wellFormed_of_antecedents (hroot : p.contains p.root = true)
    (hstay : ∀ key, ∀ a ∈ p.graph.antecedents key, p.contains a = true)
    (hacyclic : p.graph.Acyclic) : p.WellFormed where
  root_mem := hroot
  antecedent_mem key c hc a ha := by
    rw [← clause?_graph] at hc
    rw [← ClauseGraph.antecedents_of_clause? hc] at ha
    exact hstay key a ha
  acyclic := hacyclic

namespace WellFormed

theorem contains_antecedent (h : p.WellFormed) (hx : x ∈ p.graph.antecedents key) :
    p.contains x = true := by
  obtain ⟨c, hc, hx⟩ := ClauseGraph.exists_clause_of_mem_antecedents hx
  exact h.antecedent_mem key c hc x hx

/-- **Whatever a node uses is there.** -/
theorem contains_of_uses (h : p.WellFormed) (hkey : p.contains key = true)
    (huses : p.graph.Uses key x) : p.contains x = true :=
  huses.mem_of_reaches (P := fun x => p.contains x = true)
    (fun _ _ _ ha => h.contains_antecedent ha) hkey

theorem complete (h : p.WellFormed) (hkey : p.contains key = true) : p.graph.Complete key :=
  complete_of_contains fun _ hx => h.contains_of_uses hkey hx

theorem mem_derivation_root (h : p.WellFormed) : x ∈ p.derivation ↔ p.graph.Uses p.root x :=
  (h.complete h.root_mem).mem_derivation

/-- The derivation of a node is longer than that of an antecedent: it lists the node itself and
whatever the antecedent uses. -/
theorem length_derivation_lt (h : p.WellFormed) (hx : x ∈ p.graph.antecedents key) :
    (p.graph.derivation x).length < (p.graph.derivation key).length := by
  have hkey := h.complete (contains_of_mem_antecedents hx)
  have hcomplete := h.complete (h.contains_antecedent hx)
  have hnot : key ∉ p.graph.derivation x := fun hmem =>
    h.acyclic key x hx (hcomplete.mem_derivation.mp hmem)
  have hnodup : (key :: p.graph.derivation x).Nodup :=
    List.nodup_cons.mpr ⟨hnot, p.graph.nodup_derivation x⟩
  have hsub : key :: p.graph.derivation x ⊆ p.graph.derivation key := by
    intro y hy
    rw [hkey.mem_derivation]
    rcases List.mem_cons.mp hy with rfl | hy
    · exact .refl _
    · exact (Reaches.single hx).trans (hcomplete.mem_derivation.mp hy)
  exact hnodup.length_le_of_subset hsub

/-- **Every walk over antecedents ends.** -/
theorem wellFounded (h : p.WellFormed) :
    WellFounded fun x key => x ∈ p.graph.antecedents key :=
  Subrelation.wf (fun hx => h.length_derivation_lt hx)
    (measure fun key => (p.graph.derivation key).length).wf

end WellFormed

/-! ### Copies -/

theorem antecedents_insert_of_lt (h : key < p.nextKey) :
    (p.insert g i).graph.antecedents key = p.graph.antecedents key := by
  unfold ClauseGraph.antecedents
  rw [clause?_graph, clause?_graph, node?_insert_of_lt h]

theorem WellFormed.uses_of_uses_insert (h : p.WellFormed) (hkey : p.contains key = true)
    (huses : (p.insert g i).graph.Uses key x) : p.graph.Uses key x := by
  refine huses.mem_of_reaches (P := fun x => p.graph.Uses key x) ?_ (.refl key)
  intro y hy z hz
  have hlt := lt_nextKey_of_contains (h.contains_of_uses hkey hy)
  rw [antecedents_insert_of_lt hlt] at hz
  exact .tail hy hz

/-- **Inserting a copy keeps a tree well formed**: the nodes that were there use nothing new, and
the copies use each other as the clauses they were made of do. -/
theorem WellFormed.insert (h : p.WellFormed) (hg : g.Complete i) (hacyclic : g.Acyclic) :
    (p.insert g i).WellFormed := by
  have hcopy := copied_insert (p := p) hg
  apply wellFormed_of_antecedents
  case hroot => exact (contains_insert hg).mpr (.inl h.root_mem)
  case hstay =>
    intro key a ha
    rcases (contains_insert hg).mp (contains_of_mem_antecedents ha) with hold | ⟨j, hj, rfl⟩
    · rw [antecedents_insert_of_lt (lt_nextKey_of_contains hold)] at ha
      exact (contains_insert hg).mpr (.inl (h.contains_antecedent ha))
    · obtain ⟨b, hb, rfl⟩ := hcopy.exists_of_mem_antecedents hj ha
      exact (contains_insert hg).mpr (.inr ⟨b, .tail hj hb, rfl⟩)
  case hacyclic =>
    intro key a ha huses
    rcases (contains_insert hg).mp (contains_of_mem_antecedents ha) with hold | ⟨j, hj, rfl⟩
    · rw [antecedents_insert_of_lt (lt_nextKey_of_contains hold)] at ha
      exact h.acyclic key a ha (h.uses_of_uses_insert (h.contains_antecedent ha) huses)
    · exact hcopy.not_uses hacyclic hj a ha huses

theorem wellFormed_ofClause (hg : g.Complete i) (hacyclic : g.Acyclic) :
    (ofClause g i).WellFormed := by
  have hcopy := copied_ofClause hg
  apply wellFormed_of_antecedents
  case hroot =>
    rw [ofClause_root hg]
    exact (contains_ofClause hg).mpr ⟨i, .refl i, rfl⟩
  case hstay =>
    intro key a ha
    obtain ⟨j, hj, rfl⟩ := (contains_ofClause hg).mp (contains_of_mem_antecedents ha)
    obtain ⟨b, hb, rfl⟩ := hcopy.exists_of_mem_antecedents hj ha
    exact (contains_ofClause hg).mpr ⟨b, .tail hj hb, rfl⟩
  case hacyclic =>
    intro key a ha
    obtain ⟨j, hj, rfl⟩ := (contains_ofClause hg).mp (contains_of_mem_antecedents ha)
    exact hcopy.not_uses hacyclic hj a ha

/-! ### Adding an antecedent -/

theorem contains_attach (p : ProofTree) (parent child key : Nat) :
    (p.attach parent child).contains key = p.contains key := by
  unfold contains
  by_cases hne : parent = key
  · subst hne
    rw [node?_attach_self, Option.isSome_map]
  · rw [node?_attach_of_ne hne]

theorem mem_antecedents_attach (h : x ∈ (p.attach parent child).graph.antecedents key) :
    x ∈ p.graph.antecedents key ∨ key = parent ∧ x = child := by
  obtain ⟨c, hc, hx⟩ := ClauseGraph.exists_clause_of_mem_antecedents h
  rw [clause?_graph] at hc
  by_cases hne : parent = key
  · subst hne
    rw [node?_attach_self] at hc
    obtain ⟨d, hd, rfl⟩ := Option.map_eq_some_iff.mp hc
    rw [← clause?_graph] at hd
    rw [ClauseGraph.antecedents_of_clause? hd]
    simpa using hx
  · rw [node?_attach_of_ne hne, ← clause?_graph] at hc
    rw [ClauseGraph.antecedents_of_clause? hc]
    exact .inl hx

/-- A walk after the child was attached either was there before, or passes from the parent to the
child: then there was a walk to the parent before, and one from the child. -/
theorem uses_of_uses_attach (h : (p.attach parent child).graph.Uses x y) :
    p.graph.Uses x y ∨ p.graph.Uses x parent ∧ p.graph.Uses child y := by
  induction h with
  | refl => exact .inl (.refl _)
  | tail _ hz ih =>
      rcases mem_antecedents_attach hz with hold | ⟨rfl, rfl⟩
      · exact ih.imp (fun hy => .tail hy hold) (fun hy => ⟨hy.1, .tail hy.2 hold⟩)
      · rcases ih with hparent | ⟨hparent, -⟩
        · exact .inr ⟨hparent, .refl _⟩
        · exact .inr ⟨hparent, .refl _⟩

theorem WellFormed.attach (h : p.WellFormed) (hchild : p.contains child = true)
    (hfree : ¬p.graph.Uses child parent) : (p.attach parent child).WellFormed := by
  have hgained : ∀ {key a}, a ∈ (p.attach parent child).graph.antecedents key →
      p.contains a = true := by
    intro key a ha
    rcases mem_antecedents_attach ha with hold | ⟨-, rfl⟩
    · exact h.contains_antecedent hold
    · exact hchild
  apply wellFormed_of_antecedents
  case hroot => exact (contains_attach p parent child p.root).trans h.root_mem
  case hstay =>
    intro key a ha
    rw [contains_attach]
    exact hgained ha
  case hacyclic =>
    intro key a ha huses
    rcases mem_antecedents_attach ha with hold | ⟨rfl, rfl⟩
    · rcases uses_of_uses_attach huses with hback | ⟨hparent, hkey⟩
      · exact h.acyclic key a hold hback
      · exact hfree ((Reaches.tail hkey hold).trans hparent)
    · rcases uses_of_uses_attach huses with hback | ⟨hback, -⟩
      · exact hfree hback
      · exact hfree hback

theorem uses_iff_of_complete (hchild : p.graph.Complete child) :
    p.uses child parent = true ↔ p.graph.Uses child parent := by
  rw [uses, List.contains_iff_mem, hchild.mem_derivation]

theorem WellFormed.uses_eq_true_iff (h : p.WellFormed) (hchild : p.contains child = true) :
    p.uses child parent = true ↔ p.graph.Uses child parent :=
  uses_iff_of_complete (h.complete hchild)

theorem WellFormed.addAntecedent_eq_ok_iff (h : p.WellFormed) :
    p.addAntecedent parent child = .ok q ↔
      (p.contains parent = true ∧ p.contains child = true) ∧
        ¬p.graph.Uses child parent ∧ p.attach parent child = q := by
  unfold ProofTree.addAntecedent
  split
  · next hthere =>
    rw [← h.uses_eq_true_iff hthere.2]
    split
    · next huses => simp [huses]
    · next huses => simp [huses, hthere]
  · next hthere => simp [hthere]

theorem WellFormed.addAntecedent (h : p.WellFormed) (hadd : p.addAntecedent parent child = .ok q) :
    q.WellFormed := by
  obtain ⟨hthere, hfree, rfl⟩ := h.addAntecedent_eq_ok_iff.mp hadd
  exact h.attach hthere.2 hfree

theorem WellFormed.graft (h : p.WellFormed) (hother : other.WellFormed)
    (hgraft : p.graft parent other = .ok q) : q.WellFormed := by
  have hinsert : (p.insert other.graph other.root).WellFormed :=
    h.insert (hother.complete hother.root_mem) hother.acyclic
  unfold ProofTree.graft at hgraft
  split at hgraft
  · exact hinsert.addAntecedent hgraft
  · cases hgraft

/-! ### Removing nodes -/

/-- Removing nodes and antecedents keeps a tree well formed if the root stays, and with a node the
antecedents that it keeps. -/
theorem WellFormed.of_removal (h : p.WellFormed) (hroot : q.contains q.root = true)
    (hsub : ∀ key, ∀ a ∈ q.graph.antecedents key, a ∈ p.graph.antecedents key)
    (hstay : ∀ key, ∀ a ∈ q.graph.antecedents key, q.contains a = true) : q.WellFormed :=
  wellFormed_of_antecedents hroot hstay (ClauseGraph.Acyclic.mono h.acyclic hsub)

theorem contains_dropUnused :
    p.dropUnused.contains key = true ↔ key ∈ p.derivation ∧ p.contains key = true := by
  unfold contains
  rw [node?_dropUnused]
  split
  · next hmem => simp [hmem]
  · next hmem => simp [hmem]

theorem mem_antecedents_dropUnused :
    x ∈ p.dropUnused.graph.antecedents key ↔
      key ∈ p.derivation ∧ x ∈ p.graph.antecedents key := by
  simp only [ClauseGraph.antecedents, clause?_graph, node?_dropUnused]
  split
  · next hmem => simp [hmem]
  · next hmem => simp [hmem]

/-- **Dropping the unused nodes keeps a tree well formed**: with a node, its antecedents are
used. -/
theorem WellFormed.dropUnused (h : p.WellFormed) : p.dropUnused.WellFormed := by
  refine h.of_removal ?_ (fun key a ha => (mem_antecedents_dropUnused.mp ha).2) ?_
  · exact contains_dropUnused.mpr ⟨h.mem_derivation_root.mpr (.refl _), h.root_mem⟩
  · intro key a ha
    obtain ⟨hkey, ha⟩ := mem_antecedents_dropUnused.mp ha
    have hused := h.mem_derivation_root.mp hkey
    exact contains_dropUnused.mpr
      ⟨h.mem_derivation_root.mpr (.tail hused ha), h.contains_antecedent ha⟩

theorem node?_clearAntecedents (p : ProofTree) (key x : Nat) :
    (p.clearAntecedents key).node? x =
      if key = x then (p.node? x).map fun c => { c with antecedents := [] } else p.node? x := by
  simp only [node?, clearAntecedents, Array.getElem?_modify]
  split
  · cases p.slots[x]? <;> simp
  · rfl

theorem contains_clearAntecedents (p : ProofTree) (key x : Nat) :
    (p.clearAntecedents key).contains x = p.contains x := by
  unfold contains
  rw [node?_clearAntecedents]
  split
  · rw [Option.isSome_map]
  · rfl

theorem mem_antecedents_clearAntecedents
    (h : y ∈ (p.clearAntecedents key).graph.antecedents x) : y ∈ p.graph.antecedents x := by
  simp only [ClauseGraph.antecedents, clause?_graph, node?_clearAntecedents] at h ⊢
  split at h
  · cases hx : p.node? x <;> simp [hx] at h
  · exact h

theorem WellFormed.clearAntecedents (h : p.WellFormed) (key : Nat) :
    (p.clearAntecedents key).WellFormed := by
  refine h.of_removal ?_ (fun x a ha => mem_antecedents_clearAntecedents ha) ?_
  · exact (contains_clearAntecedents p key p.root).trans h.root_mem
  · intro x a ha
    rw [contains_clearAntecedents]
    exact h.contains_antecedent (mem_antecedents_clearAntecedents ha)

theorem WellFormed.forgetAntecedents (h : p.WellFormed) (key : Nat) :
    (p.forgetAntecedents key).WellFormed :=
  (h.clearAntecedents key).dropUnused

/-! ### Other keys -/

namespace Rekeyed

variable {name : Nat → Nat}

theorem refl (p : ProofTree) : p.Rekeyed p id where
  root_eq := rfl
  name_inj _ _ _ _ heq := heq
  node?_name x c hc := by rw [List.map_id, ← hc, id]
  exists_name y hy := ⟨y, hy, rfl⟩

theorem contains_name (h : p.Rekeyed q name) (hx : p.contains x = true) :
    q.contains (name x) = true := by
  obtain ⟨c, hc⟩ := contains_iff.mp hx
  exact contains_iff.mpr ⟨_, h.node?_name x c hc⟩

theorem copied (h : p.Rekeyed q name) (hp : p.WellFormed) (hx : p.contains x = true) :
    Copied p.graph x q.graph name where
  name_inj j k hj hk := h.name_inj j k (hp.contains_of_uses hx hj) (hp.contains_of_uses hx hk)
  clause?_name j hj := by
    obtain ⟨c, hc⟩ := contains_iff.mp (hp.contains_of_uses hx hj)
    exact ⟨c, hc, h.node?_name j c hc⟩

/-- **A tree is well formed under other keys** if it was. -/
theorem wellFormed (h : p.Rekeyed q name) (hp : p.WellFormed) : q.WellFormed := by
  apply wellFormed_of_antecedents
  case hroot =>
    rw [h.root_eq]
    exact h.contains_name hp.root_mem
  case hstay =>
    intro y a ha
    obtain ⟨x, hx, rfl⟩ := h.exists_name y (contains_of_mem_antecedents ha)
    obtain ⟨b, hb, rfl⟩ := (h.copied hp hx).exists_of_mem_antecedents (.refl x) ha
    exact h.contains_name (hp.contains_antecedent hb)
  case hacyclic =>
    intro y a ha
    obtain ⟨x, hx, rfl⟩ := h.exists_name y (contains_of_mem_antecedents ha)
    exact (h.copied hp hx).not_uses hp.acyclic (.refl x) a ha

theorem attach (h : p.Rekeyed q name) (hparent : p.contains parent = true) (child : Nat) :
    (p.attach parent child).Rekeyed (q.attach (name parent) (name child)) name where
  root_eq := h.root_eq
  name_inj x y hx hy := by
    rw [contains_attach] at hx hy
    exact h.name_inj x y hx hy
  node?_name x c hc := by
    by_cases hne : parent = x
    · subst hne
      rw [node?_attach_self] at hc ⊢
      obtain ⟨d, hd, rfl⟩ := Option.map_eq_some_iff.mp hc
      simp only [h.node?_name parent d hd, Option.map_some, List.map_append, List.map_singleton]
    · rw [node?_attach_of_ne hne] at hc
      have hx : p.contains x = true := contains_iff.mpr ⟨c, hc⟩
      rw [node?_attach_of_ne fun heq => hne (h.name_inj parent x hparent hx heq)]
      exact h.node?_name x c hc
  exists_name y hy := by
    rw [contains_attach] at hy
    obtain ⟨x, hx, hname⟩ := h.exists_name y hy
    exact ⟨x, (contains_attach p parent child x).trans hx, hname⟩

end Rekeyed
end ProofTree

/-! ### Explanations -/

section explain

variable {full : Trace} {reduced : ReducedTrace} {p q : ProofTree} {index key : Nat}

theorem wellFormed_of_explainNode (hfull : full.WellFormed) (hp : p.WellFormed)
    (h : explainNode full reduced p index key = .ok q) : q.WellFormed := by
  unfold explainNode at h
  split at h
  · next source _ =>
    split at h
    · next derivation hderivation =>
      unfold Trace.proofTree? at hderivation
      split at hderivation
      · next hcontains =>
        cases hderivation
        have hcopy : (ProofTree.ofClause full.graph source).WellFormed :=
          ProofTree.wellFormed_ofClause (hfull.complete hcontains) hfull.acyclic
        cases hgraft : p.graft key (.ofClause full.graph source) with
        | ok p' =>
            rw [hgraft] at h
            cases h
            exact hp.graft hcopy hgraft
        | error e =>
            rw [hgraft] at h
            cases h
      · cases hderivation
    · cases h
  all_goals
    cases h
    exact hp

theorem wellFormed_of_explainNodes {nodes : List (Nat × Nat)} (hfull : full.WellFormed)
    (hp : p.WellFormed)
    (h : nodes.foldlM (fun p node => explainNode full reduced p node.1 node.2) p = .ok q) :
    q.WellFormed := by
  induction nodes generalizing p with
  | nil =>
      cases h
      exact hp
  | cons node nodes ih =>
      rw [List.foldlM_cons] at h
      cases hstep : explainNode full reduced p node.1 node.2 with
      | ok p' =>
          rw [hstep] at h
          exact ih (wellFormed_of_explainNode hfull hp hstep) h
      | error e =>
          rw [hstep] at h
          cases h

theorem wellFormed_of_explain (hfull : full.WellFormed) (hreduced : reduced.toTrace.WellFormed)
    (h : explain full reduced index = .ok p) : p.WellFormed := by
  unfold explain at h
  split at h
  · next hcontains =>
    have hstart : (ProofTree.ofClause reduced.graph index).WellFormed :=
      ProofTree.wellFormed_ofClause (hreduced.complete hcontains) hreduced.acyclic
    exact wellFormed_of_explainNodes hfull hstart h
  · cases h

end explain

namespace ProofTree

variable {p : ProofTree}

/-- **Every proof tree of the library is well formed.** -/
theorem Obtained.wellFormed (h : p.Obtained) : p.WellFormed := by
  induction h with
  | leaf literals => exact wellFormed_leaf literals
  | ofTrace ht hi => exact wellFormed_ofClause (ht.complete hi) ht.acyclic
  | ofNode _ hkey ih => exact wellFormed_ofClause (ih.complete hkey) ih.acyclic
  | explain hfull hreduced h => exact wellFormed_of_explain hfull hreduced h
  | insertClause _ ht hi ih => exact ih.insert (ht.complete hi) ht.acyclic
  | insertNode _ _ hkey ih ihq => exact ih.insert (ihq.complete hkey) ihq.acyclic
  | addAntecedent _ h ih => exact ih.addAntecedent h
  | graft _ _ h ih ihq => exact ih.graft ihq h
  | dropUnused _ ih => exact ih.dropUnused
  | forgetAntecedents _ ih => exact ih.forgetAntecedents _
  | rekey _ h ih => exact h.wellFormed ih

end ProofTree

/-! ### Views -/

namespace ClauseView.Obtained

variable {v : ClauseView}

theorem complete (hv : v.Obtained) : v.graph.Complete v.name := by
  cases v with
  | clause t i => exact hv.1.wellFormed.complete hv.2
  | node p key => exact hv.1.wellFormed.complete hv.2

theorem wellFounded (hv : v.Obtained) : WellFounded fun a j => a ∈ v.graph.antecedents j := by
  cases v with
  | clause t i =>
      exact Subrelation.wf (fun ha => hv.1.wellFormed.lt_of_mem_antecedents ha) Nat.lt_wfRel.wf
  | node p key => exact hv.1.wellFormed.wellFounded

end ClauseView.Obtained
end Refutation
