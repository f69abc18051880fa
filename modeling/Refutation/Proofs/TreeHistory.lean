import Refutation.Proofs.TreeWellFormed

/-! # Proof trees under any sequence of calls

Whatever calls are made on a tree, and whether they succeed or not, the tree continues the one it
was: its root is the same, and a key that was handed out names the same node for as long as it names
any (`ProofTree.Continues`).  The tree is one that the library can produce (`Obtained.afterAll`),
and so it is well formed: no view of a node leads to a key without a node, and no walk over
antecedents goes on for ever (`wellFormed_afterAll`). -/

namespace Refutation
namespace ProofTree

variable {p q r other : ProofTree} {g : ClauseGraph} {i parent child key : Nat}

/-! ### What stays -/

/-- The tree `q` is a later state of the tree `p`: the root has the same key, keys are not taken
back, and a key handed out before names the node it named, by its literals, or nothing. -/
structure Continues (p q : ProofTree) : Prop where
  root_eq : q.root = p.root
  nextKey_le : p.nextKey ≤ q.nextKey
  literals_eq : ∀ key < p.nextKey, ∀ d, q.node? key = some d →
    ∃ c, p.node? key = some c ∧ c.literals = d.literals

namespace Continues

theorem refl (p : ProofTree) : Continues p p := ⟨rfl, Nat.le_refl _, fun _ _ d hd => ⟨d, hd, rfl⟩⟩

theorem trans (h : Continues p q) (h' : Continues q r) : Continues p r where
  root_eq := h'.root_eq.trans h.root_eq
  nextKey_le := Nat.le_trans h.nextKey_le h'.nextKey_le
  literals_eq key hkey e he := by
    obtain ⟨d, hd, hliterals⟩ :=
      h'.literals_eq key (Nat.lt_of_lt_of_le hkey h.nextKey_le) e he
    obtain ⟨c, hc, hliterals'⟩ := h.literals_eq key hkey d hd
    exact ⟨c, hc, hliterals'.trans hliterals⟩

theorem insert (p : ProofTree) (g : ClauseGraph) (i : Nat) : Continues p (p.insert g i) where
  root_eq := rfl
  nextKey_le := by
    simp only [nextKey, ProofTree.insert, Array.size_append]
    omega
  literals_eq key hkey d hd := by
    rw [node?_insert_of_lt hkey] at hd
    exact ⟨d, hd, rfl⟩

theorem attach (p : ProofTree) (parent child : Nat) : Continues p (p.attach parent child) where
  root_eq := rfl
  nextKey_le := by simp [nextKey, ProofTree.attach]
  literals_eq key _ d hd := by
    by_cases hne : parent = key
    · subst hne
      rw [node?_attach_self] at hd
      obtain ⟨c, hc, rfl⟩ := Option.map_eq_some_iff.mp hd
      exact ⟨c, hc, rfl⟩
    · rw [node?_attach_of_ne hne] at hd
      exact ⟨d, hd, rfl⟩

theorem clearAntecedents (p : ProofTree) (key : Nat) : Continues p (p.clearAntecedents key) where
  root_eq := rfl
  nextKey_le := by simp [nextKey, ProofTree.clearAntecedents]
  literals_eq x _ d hd := by
    rw [node?_clearAntecedents] at hd
    split at hd
    · obtain ⟨c, hc, rfl⟩ := Option.map_eq_some_iff.mp hd
      exact ⟨c, hc, rfl⟩
    · exact ⟨d, hd, rfl⟩

theorem dropUnused (p : ProofTree) : Continues p p.dropUnused where
  root_eq := rfl
  nextKey_le := by simp [nextKey, ProofTree.dropUnused]
  literals_eq key _ d hd := by
    rw [node?_dropUnused] at hd
    split at hd
    · exact ⟨d, hd, rfl⟩
    · cases hd

theorem afterAdding (p : ProofTree) (parent child : Nat) :
    Continues p (p.afterAdding parent child) := by
  unfold ProofTree.afterAdding ProofTree.addAntecedent
  split
  · next q hadd =>
    split at hadd
    · split at hadd
      · cases hadd
      · cases hadd
        exact attach p parent child
    · cases hadd
  · exact refl p

/-- **A call leaves a later state of the tree**, also a call that is refused. -/
theorem after (p : ProofTree) (call : Call) : Continues p (p.after call) := by
  cases call with
  | insert source => exact insert p source.graph source.name
  | addAntecedent parent child => exact afterAdding p parent child
  | graft parent other =>
      simp only [ProofTree.after]
      split
      · exact (insert p other.graph other.root).trans (afterAdding _ _ _)
      · exact refl p
  | forgetAntecedents key => exact (clearAntecedents p key).trans (dropUnused _)
  | dropUnused => exact dropUnused p

theorem afterAll (p : ProofTree) (calls : List Call) : Continues p (p.afterAll calls) := by
  induction calls generalizing p with
  | nil => exact refl p
  | cons call calls ih => exact (after p call).trans (ih (p.after call))

end Continues

/-! ### The trees of the library -/

namespace Obtained

theorem afterAdding (hp : p.Obtained) (parent child : Nat) :
    (p.afterAdding parent child).Obtained := by
  unfold ProofTree.afterAdding
  split
  · next q hadd => exact hp.addAntecedent hadd
  · exact hp

/-- **A call leaves a tree of the library**, also a call that is refused. -/
theorem after (hp : p.Obtained) {call : Call} (hcall : call.Allowed) : (p.after call).Obtained := by
  cases call with
  | insert source =>
      cases source with
      | clause t index => exact hp.insertClause hcall.1.wellFormed hcall.2
      | node q key => exact hp.insertNode hcall.1 hcall.2
  | addAntecedent parent child => exact hp.afterAdding parent child
  | graft parent other =>
      have hother : other.Obtained := hcall
      simp only [ProofTree.after]
      split
      · exact (hp.insertNode hother hother.wellFormed.root_mem).afterAdding parent p.nextKey
      · exact hp
  | forgetAntecedents key => exact hp.forgetAntecedents
  | dropUnused => exact hp.dropUnused

theorem afterAll (hp : p.Obtained) {calls : List Call} (hcalls : ∀ call ∈ calls, call.Allowed) :
    (p.afterAll calls).Obtained := by
  induction calls generalizing p with
  | nil => exact hp
  | cons call calls ih =>
      exact ih (hp.after (hcalls call List.mem_cons_self))
        fun c hc => hcalls c (List.mem_cons_of_mem _ hc)

end Obtained

/-- **Proof trees keep their form under any calls**, with any keys, also where calls are refused.
The tree continues the one it was, its root is in it, antecedents are in it, and no node is used in
its own derivation.  Hence whatever is found from a node by following antecedents is a node, and
every walk over antecedents ends. -/
theorem wellFormed_afterAll (hp : p.Obtained) {calls : List Call}
    (hcalls : ∀ call ∈ calls, call.Allowed) :
    (p.afterAll calls).Obtained ∧ Continues p (p.afterAll calls) ∧ (p.afterAll calls).WellFormed ∧
      (∀ key, (p.afterAll calls).contains key = true →
        ∀ x, (p.afterAll calls).graph.Uses key x → ∃ c, (p.afterAll calls).node? x = some c) ∧
      WellFounded fun x key => x ∈ (p.afterAll calls).graph.antecedents key := by
  have hobtained := hp.afterAll hcalls
  have hform := hobtained.wellFormed
  refine ⟨hobtained, Continues.afterAll p calls, hform, ?_, hform.wellFounded⟩
  intro key hkey x hx
  exact contains_iff.mp (hform.contains_of_uses hkey hx)

/-- Calls on the derivation of the resolvent of the sample trace, whose nodes are 0, 1 and 2: a
graft, an antecedent refused since it would close a circle, one refused since there is no node 9,
the dropping of the antecedents of the root, and a copy that the next call drops again. -/
def sampleCalls : List Call :=
  [.graft 1 (leaf [7]), .addAntecedent 1 0, .addAntecedent 9 0, .forgetAntecedents 0,
    .insert (.clause Trace.sample 3), .dropUnused]

/-- After the sample calls the root is left alone, under its old key. -/
theorem wellFormed_afterAll_sample :
    (ofClause Trace.sample.graph 3).Obtained ∧ (∀ call ∈ sampleCalls, call.Allowed) ∧
      ((ofClause Trace.sample.graph 3).afterAll sampleCalls).WellFormed ∧
      ((ofClause Trace.sample.graph 3).afterAll sampleCalls).root = 0 ∧
      ((ofClause Trace.sample.graph 3).afterAll sampleCalls).node? 0 = some ⟨[1, 3], []⟩ := by
  have hp : (ofClause Trace.sample.graph 3).Obtained :=
    .ofTrace Trace.sample_obtained.wellFormed (by decide)
  have hcalls : ∀ call ∈ sampleCalls, call.Allowed := by
    simp only [sampleCalls, List.forall_mem_cons]
    exact ⟨.leaf [7], trivial, trivial, trivial, ⟨Trace.sample_obtained, by decide⟩, trivial,
      by simp⟩
  obtain ⟨-, hcontinues, hform, -, -⟩ := wellFormed_afterAll hp hcalls
  exact ⟨hp, hcalls, hform, hcontinues.root_eq, by decide +kernel⟩

end ProofTree
end Refutation
