import Refutation.Proofs.Grafts

/-! # Calls made in place

A copy made with a stack is an insertion under other keys (`ExactCopy.rekeyed`), and keys are names
only.  So the trees that such copies leave are trees of the library
(`ClauseView.obtained_of_endsWith`), and a call made in place comes to the tree that
`ProofTree.after` gives, under other keys for the nodes that it adds
(`ProofTree.exists_comesTo_afterInPlace`).

Calls made in place, one after the other, therefore always come to a tree of the library, whatever
keys their copies got, and it is well formed (`ProofTree.wellFormed_afterAllInPlace`). -/

namespace Refutation

/-! ### Copies -/

namespace ClauseView

variable {v : ClauseView} {p q : ProofTree} {key : Nat} {keys : Std.TreeMap Nat Nat}

theorem Obtained.ofClause (hv : v.Obtained) : (ProofTree.ofClause v.graph v.name).Obtained := by
  cases v with
  | clause t i => exact .ofTrace hv.1.wellFormed hv.2
  | node p key => exact .ofNode hv.1 hv.2

namespace CopiedTo

theorem rekeyed (h : v.CopiedTo p q key keys) (hv : v.Obtained) (hp : p.WellFormed)
    (hroot : q.root = p.root) :
    (p.insert v.graph v.name).Rekeyed q (p.rekeying v.graph v.name keys) := by
  refine h.exact.rekeyed hv.complete (fun _ _ => hp.contains_antecedent) ?_
  rw [ProofTree.rekeying_of_lt (ProofTree.lt_nextKey_of_contains hp.root_mem), hroot]

theorem rekeyed_grafted {other : ProofTree} {parent : Nat}
    (h : (node other other.root).CopiedTo p q key keys)
    (hother : (node other other.root).Obtained) (hp : p.WellFormed) (hroot : q.root = p.root)
    (hparent : p.contains parent = true) :
    (p.grafted parent other).Rekeyed (q.attach parent key)
      (p.rekeying other.graph other.root keys) := by
  have hcomplete : other.graph.Complete other.root := hother.complete
  have hkept : (p.insert other.graph other.root).contains parent = true :=
    (ProofTree.contains_insert hcomplete).mpr (.inl hparent)
  have hinsert : (p.insert other.graph other.root).Rekeyed q
      (p.rekeying other.graph other.root keys) := h.rekeyed hother hp hroot
  have hkey : p.rekeying other.graph other.root keys p.nextKey = key :=
    h.exact.rekeying_nextKey hcomplete
  have hattached := hinsert.attach hkept p.nextKey
  rwa [ProofTree.rekeying_of_lt (ProofTree.lt_nextKey_of_contains hparent), hkey] at hattached

/-- **A tree that a clause is copied into stays a tree of the library**, whatever keys the copies
get. -/
theorem obtained (h : v.CopiedTo p q key keys) (hv : v.Obtained) (hp : p.Obtained)
    (hroot : q.root = p.root) : q.Obtained := by
  have hinsert : (p.after (.insert v)).Obtained := hp.after hv
  exact hinsert.rekey (h.rekeyed hv hp.wellFormed hroot)

theorem obtained_detached (h : v.CopiedTo ⟨#[], 0⟩ q q.root keys) (hv : v.Obtained) :
    q.Obtained := by
  have hcomplete := hv.complete
  have hroot : q.root = ProofTree.rekeying ⟨#[], 0⟩ v.graph v.name keys 0 :=
    (h.exact.rekeying_nextKey hcomplete).symm
  have hnone : ∀ x, ∀ a ∈ (⟨#[], 0⟩ : ProofTree).graph.antecedents x,
      (⟨#[], 0⟩ : ProofTree).contains a = true := by
    intro x a ha
    simp [ClauseGraph.antecedents, ProofTree.node?] at ha
  have hrekeyed := h.exact.rekeyed hcomplete hnone hroot
  rw [← ProofTree.ofClause_eq_insert] at hrekeyed
  exact hv.ofClause.rekey hrekeyed

theorem continues (h : v.CopiedTo p q key keys) (hroot : q.root = p.root) : p.Continues q where
  root_eq := hroot
  nextKey_le := Nat.le_of_lt (Nat.lt_of_le_of_lt h.exact.nextKey_le_key
    (ProofTree.lt_nextKey_of_contains h.exact.contains_key))
  literals_eq x hx d hd := ⟨d, by rw [← h.exact.node_of_lt x hx, hd], rfl⟩

end CopiedTo

/-- **The trees that copying with a stack leaves are trees of the library**, where the copies are
put behind the nodes of such a tree and where they are put into a tree of their own. -/
theorem obtained_of_endsWith (hv : v.Obtained) (hp : p.Obtained) :
    (∀ r, Copying.EndsWith p.slots v.graph v.name r → (r.addedTo p).Obtained) ∧
      ∀ r, Copying.EndsWith #[] v.graph v.name r → r.tree.Obtained := by
  obtain ⟨⟨added, hadded, hcopied⟩, ⟨detached, hdetached, hcopied'⟩, -⟩ := copiedTo_of_obtained hv p
  constructor
  · intro r hends
    obtain rfl : r = added := ComesTo.unique hends hadded
    exact hcopied.obtained hv hp rfl
  · intro r hends
    obtain rfl : r = detached := ComesTo.unique hends hdetached
    exact hcopied'.obtained_detached hv

end ClauseView

namespace ProofTree

/-! ### Calls -/

variable {p : ProofTree} {call : Call} {calls : List Call}

/-- **A call made in place** comes to the tree after the call, under other keys for the nodes that
it adds.  The nodes that were there keep their keys. -/
theorem exists_comesTo_afterInPlace (hp : p.Obtained) (hcall : call.Allowed) :
    ∃ q name, ComesTo (fun limit => p.afterInPlace? limit call) q ∧ (p.after call).Rekeyed q name ∧
      (∀ x < p.nextKey, name x = x) ∧ p.Continues q := by
  have hform := hp.wellFormed
  cases call with
  | insert source =>
      obtain ⟨⟨copy, hends, hcopied⟩, -⟩ := ClauseView.copiedTo_of_obtained hcall p
      exact ⟨_, _, ComesTo.map hends (·.addedTo p), hcopied.rekeyed hcall hform rfl,
        fun x hx => rekeying_of_lt hx, hcopied.continues rfl⟩
  | addAntecedent parent child =>
      exact ⟨_, id, (comesTo_addInPlace hform.complete).map (·.tree), .refl _, fun _ _ => rfl,
        .afterAdding p parent child⟩
  | graft parent other =>
      have hother : other.Obtained := hcall
      have hview : (ClauseView.node other other.root).Obtained :=
        ⟨hother, hother.wellFormed.root_mem⟩
      cases hparent : p.contains parent with
      | true =>
          obtain ⟨⟨copy, hends, hcopied⟩, -⟩ := ClauseView.copiedTo_of_obtained hview p
          have hafter : p.after (.graft parent other) = p.grafted parent other :=
            after_graft_of_ok (graft_eq_ok hparent hview.complete)
          rw [hafter]
          exact ⟨_, _, (comesTo_graftInPlace hparent hends hcopied.exact).map (·.tree),
            hcopied.rekeyed_grafted hview hform rfl hparent, fun x hx => rekeying_of_lt hx,
            (hcopied.continues rfl).trans (.attach _ _ _)⟩
      | false =>
          have hsame : p.after (.graft parent other) = p := by simp [after, hparent]
          refine ⟨p, id, (comesTo_graftInPlace_of_missing hparent other).map (·.tree), ?_,
            fun _ _ => rfl, .refl p⟩
          rw [hsame]
          exact .refl p
  | forgetAntecedents key =>
      exact ⟨_, id, hform.comesTo_forgetInPlace key, .refl _, fun _ _ => rfl,
        .after p (.forgetAntecedents key)⟩
  | dropUnused =>
      exact ⟨_, id, hform.comesTo_dropUnusedInPlace, .refl _, fun _ _ => rfl, .dropUnused p⟩

theorem exists_comesTo_afterAllInPlace (hp : p.Obtained) (hcalls : ∀ call ∈ calls, call.Allowed) :
    ∃ q, ComesTo (fun limit => p.afterAllInPlace? limit calls) q ∧ q.Obtained ∧ p.Continues q := by
  induction calls generalizing p with
  | nil => exact ⟨p, .const p, hp, .refl p⟩
  | cons call calls ih =>
      have hcall := hcalls call List.mem_cons_self
      obtain ⟨q, name, hcomes, hrekeyed, -, hcontinues⟩ := exists_comesTo_afterInPlace hp hcall
      obtain ⟨q', hcomes', hobtained, hcontinues'⟩ :=
        ih ((hp.after hcall).rekey hrekeyed) fun c hc => hcalls c (List.mem_cons_of_mem _ hc)
      exact ⟨q', hcomes.bind hcomes', hobtained, hcontinues.trans hcontinues'⟩

/-- **Proof trees keep their form under any calls made in place**, with any keys, also where calls
are refused.  The calls end, and the tree that they come to continues the one it was and is well
formed: whatever is found from a node by following antecedents is a node, and every walk over
antecedents ends. -/
theorem wellFormed_afterAllInPlace (hp : p.Obtained) (hcalls : ∀ call ∈ calls, call.Allowed) :
    ∃ q, ComesTo (fun limit => p.afterAllInPlace? limit calls) q ∧ q.Obtained ∧ p.Continues q ∧
      q.WellFormed ∧
      (∀ key, q.contains key = true → ∀ x, q.graph.Uses key x → ∃ c, q.node? x = some c) ∧
      WellFounded fun x key => x ∈ q.graph.antecedents key := by
  obtain ⟨q, hcomes, hobtained, hcontinues⟩ := exists_comesTo_afterAllInPlace hp hcalls
  have hform := hobtained.wellFormed
  refine ⟨q, hcomes, hobtained, hcontinues, hform, ?_, hform.wellFounded⟩
  intro key hkey x hx
  exact contains_iff.mp (hform.contains_of_uses hkey hx)

/-- Copied in place the resolvent of the sample trace gets the last key, and not the first. -/
example : (leaf [7]).afterAllInPlace? 6 [.insert (.clause Trace.sample 3)] =
    some ⟨#[some ⟨[7], []⟩, some ⟨[-2, 3], []⟩, some ⟨[1, 2], []⟩, some ⟨[1, 3], [2, 1]⟩], 0⟩ := by
  decide +kernel

end ProofTree
end Refutation
