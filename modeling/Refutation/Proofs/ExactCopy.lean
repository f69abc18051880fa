import Refutation.Proofs.SameDerivation

/-! # Exact copies

A copy of a derivation is exact if one node is added to the tree for each clause that is used and
nothing else is changed, and if the table of the copies' keys is a bijection between the clauses
and the nodes added that carries antecedents to antecedents (`ProofTree.ExactCopy`).

Nothing is said about the order in which the copies are made: whenever clauses that are used are
copied one behind the other, each once, the copy is exact (`ProofTree.exactCopy_of_order`).  So it
is for an insertion, and for a copy made with a stack.  The copy of a clause has the same derivation
as the clause (`ProofTree.ExactCopy.sameDerivation`). -/

namespace Refutation
namespace ProofTree

/-- The tree `q` is the tree `p` together with an exact copy of the derivation of clause `i` of `g`:
the copy of a clause is the node at the key found in the table, which for clause `i` itself is
`key`. -/
structure ExactCopy (p : ProofTree) (g : ClauseGraph) (i : Nat) (q : ProofTree) (key : Nat)
    (keys : Std.TreeMap Nat Nat) : Prop where
  /-- The clauses copied are those that are used. -/
  mem_keys : ∀ j, j ∈ keys ↔ g.Uses i j
  keys_self : keys[i]? = some key
  /-- No two clauses share a copy. -/
  keys_inj : ∀ (j k x : Nat), keys[j]? = some x → keys[k]? = some x → j = k
  /-- A copy has the literals of its clause and, for the antecedents of the clause, their copies, in
  order and with repeats. -/
  node : ∀ (j x : Nat), keys[j]? = some x → ∃ c as,
    g.clause? j = some c ∧ q.node? x = some ⟨c.literals, as⟩ ∧
      c.antecedents.map (keys[·]?) = as.map some
  /-- The keys of the copies were not handed out before. -/
  nextKey_le : ∀ (j x : Nat), keys[j]? = some x → p.nextKey ≤ x
  /-- Nothing but the copies is added, and nothing is removed. -/
  contains_iff : ∀ x, q.contains x = true ↔ p.contains x = true ∨ ∃ j : Nat, keys[j]? = some x
  /-- The nodes that were there are not changed. -/
  node_of_lt : ∀ x < p.nextKey, q.node? x = p.node? x
  size_eq : q.size = p.size + keys.size

section order

variable {p q : ProofTree} {g : ClauseGraph} {i key : Nat} {order : List Nat}
  {keys : Std.TreeMap Nat Nat}

theorem size_inOrder (hslots : q.slots = p.slots ++ (copyInOrder p.nextKey g order).toArray)
    (hthere : ∀ j ∈ order, ∃ c, g.clause? j = some c) : q.size = p.size + order.length := by
  have hcopies : (copyInOrder p.nextKey g order).toArray.countP Option.isSome = order.length := by
    rw [List.countP_toArray, List.countP_eq_length.mpr, copyInOrder, List.length_map]
    intro slot hslot
    obtain ⟨j, hj, rfl⟩ := List.mem_map.mp hslot
    obtain ⟨c, hc⟩ := hthere j hj
    simp [hc]
  rw [size, hslots, Array.countP_append, hcopies, size]

/-- **Clauses copied one behind the other, each once, are an exact copy** if they are the clauses
that are used, and the table numbers them. -/
theorem exactCopy_of_order (hg : g.Complete i)
    (hslots : q.slots = p.slots ++ (copyInOrder p.nextKey g order).toArray)
    (hnodup : order.Nodup) (hmem : ∀ j, j ∈ order ↔ g.Uses i j)
    (hkeys : ∀ j : Nat, keys[j]? = (Std.TreeMap.ofList (order.zipIdx p.nextKey))[j]?)
    (hself : keys[i]? = some key) : ExactCopy p g i q key keys := by
  have hthere : ∀ j ∈ order, ∃ c, g.clause? j = some c := fun j hj =>
    hg.clause_mem j ((hmem j).mp hj)
  have hlookup : ∀ j x : Nat, keys[j]? = some x ↔ j ∈ order ∧ x = p.nextKey + order.idxOf j := by
    intro j x
    rw [hkeys, getElem?_ofList_zipIdx hnodup, mem_zipIdx_iff_idxOf hnodup]
  have hdom : ∀ j, j ∈ keys ↔ j ∈ order := by
    intro j
    rw [Std.TreeMap.mem_iff_isSome_getElem?, Option.isSome_iff_exists]
    simp [hlookup]
  constructor
  case mem_keys => exact fun j => (hdom j).trans (hmem j)
  case keys_self => exact hself
  case keys_inj =>
    intro j k x hj hk
    obtain ⟨hmemj, rfl⟩ := (hlookup j x).mp hj
    obtain ⟨-, heq⟩ := (hlookup k _).mp hk
    exact (List.idxOf_inj hmemj).mp (Nat.add_left_cancel heq)
  case node =>
    intro j x hx
    obtain ⟨hj, rfl⟩ := (hlookup j x).mp hx
    obtain ⟨c, hc⟩ := hthere j hj
    have hants : ∀ a ∈ c.antecedents, a ∈ order := by
      intro a ha
      rw [← ClauseGraph.antecedents_of_clause? hc] at ha
      exact (hmem a).mpr (.tail ((hmem j).mp hj) ha)
    refine ⟨c, c.antecedents.map fun a => p.nextKey + order.idxOf a, hc,
      node?_inOrder hslots hnodup hj hc hants, ?_⟩
    rw [List.map_map]
    exact List.map_congr_left fun a ha => (hlookup a _).mpr ⟨hants a ha, rfl⟩
  case nextKey_le =>
    intro j x hx
    obtain ⟨-, rfl⟩ := (hlookup j x).mp hx
    exact Nat.le_add_right ..
  case contains_iff =>
    intro x
    rw [contains_inOrder hslots hthere hnodup]
    simp only [hlookup]
  case node_of_lt =>
    intro x hx
    rw [node?, hslots, Array.getElem?_append_left hx, node?]
  case size_eq => rw [size_inOrder hslots hthere, size_eq_length hnodup hdom]

end order

/-! ### What an exact copy is worth -/

section copied

variable {q : ProofTree} {g : ClauseGraph} {i : Nat} {name : Nat → Nat}

theorem complete_of_copied (h : Copied g i q.graph name) : q.graph.Complete (name i) := by
  refine complete_of_contains fun x hx => ?_
  obtain ⟨j, hj, rfl⟩ := h.uses_iff.mp hx
  obtain ⟨c, -, hc⟩ := h.clause?_name j hj
  exact ProofTree.contains_iff.mpr ⟨_, hc⟩

theorem sameDerivation_of_copied (h : Copied g i q.graph name) (hg : g.Complete i) :
    g.sameDerivation i q.graph (name i) = true := by
  rw [ClauseGraph.sameDerivation_iff_unfoldsLike hg (complete_of_copied h)]
  exact h.unfoldsLike (.refl i)

end copied

namespace ExactCopy

variable {p q : ProofTree} {g : ClauseGraph} {i key : Nat} {keys : Std.TreeMap Nat Nat}

theorem exists_key (h : ExactCopy p g i q key keys) {j : Nat} (hj : g.Uses i j) :
    ∃ x, keys[j]? = some x := by
  rwa [← h.mem_keys, Std.TreeMap.mem_iff_isSome_getElem?, Option.isSome_iff_exists] at hj

theorem copied (h : ExactCopy p g i q key keys) :
    Copied g i q.graph fun j => keys[j]?.getD 0 := by
  constructor
  case name_inj =>
    intro j k hj hk heq
    obtain ⟨x, hx⟩ := h.exists_key hj
    obtain ⟨y, hy⟩ := h.exists_key hk
    simp only [hx, hy, Option.getD_some] at heq
    exact h.keys_inj j k x hx (heq ▸ hy)
  case clause?_name =>
    intro j hj
    obtain ⟨x, hx⟩ := h.exists_key hj
    obtain ⟨c, as, hc, hnode, hants⟩ := h.node j x hx
    refine ⟨c, hc, ?_⟩
    have has : as = c.antecedents.map fun a => keys[a]?.getD 0 := by
      have hgetD := congrArg (List.map (·.getD 0)) hants
      simpa [List.map_map, Function.comp_def] using hgetD.symm
    simp only [hx, Option.getD_some, clause?_graph, hnode, Clause.rename, has]

theorem nextKey_le_key (h : ExactCopy p g i q key keys) : p.nextKey ≤ key :=
  h.nextKey_le i key h.keys_self

theorem contains_key (h : ExactCopy p g i q key keys) : q.contains key = true :=
  (h.contains_iff key).mpr (.inr ⟨i, h.keys_self⟩)

theorem nextKey_le_name (h : ExactCopy p g i q key keys) {j : Nat} (hj : g.Uses i j) :
    p.nextKey ≤ keys[j]?.getD 0 := by
  obtain ⟨x, hx⟩ := h.exists_key hj
  rw [hx]
  exact h.nextKey_le j x hx

theorem getD_keys_self (h : ExactCopy p g i q key keys) : keys[i]?.getD 0 = key := by
  rw [h.keys_self, Option.getD_some]

theorem complete (h : ExactCopy p g i q key keys) : q.graph.Complete key := by
  have hcomplete := complete_of_copied h.copied
  rwa [h.getD_keys_self] at hcomplete

theorem sameDerivation (h : ExactCopy p g i q key keys) (hg : g.Complete i) :
    g.sameDerivation i q.graph key = true := by
  have hsame := sameDerivation_of_copied h.copied hg
  rwa [h.getD_keys_self] at hsame

end ExactCopy

/-! ### Insertions and detached copies -/

section insert

variable {p : ProofTree} {g : ClauseGraph} {i : Nat}

theorem exactCopy_insert (hg : g.Complete i) :
    ExactCopy p g i (p.insert g i) p.nextKey (.ofList (copyKeys p.nextKey g i)) := by
  refine exactCopy_of_order hg (slots_insert p g i) (g.nodup_derivation i)
    (fun j => hg.mem_derivation) (fun _ => rfl) ?_
  rw [copyKeys, getElem?_ofList_zipIdx (g.nodup_derivation i), ← copyKeys, mem_copyKeys hg,
    copyKey_self p.nextKey hg]
  exact ⟨.refl i, rfl⟩

theorem exactCopy_ofClause (hg : g.Complete i) :
    ExactCopy ⟨#[], 0⟩ g i (ofClause g i) (ofClause g i).root (.ofList (copyKeys 0 g i)) := by
  rw [ofClause_eq_insert]
  exact exactCopy_insert hg

end insert

/-! ### Copies made in another order -/

section rekeying

variable {p q : ProofTree} {g : ClauseGraph} {i j key x : Nat} {keys : Std.TreeMap Nat Nat}

/-- The key that a node of a tree after an insertion has if the copies get the keys in the table.
Nodes that were there keep their keys. -/
def rekeying (p : ProofTree) (g : ClauseGraph) (i : Nat) (keys : Std.TreeMap Nat Nat) (x : Nat) :
    Nat :=
  if x < p.nextKey then x else keys[(g.derivation i)[x - p.nextKey]?.getD 0]?.getD 0

theorem rekeying_of_lt (hx : x < p.nextKey) : rekeying p g i keys x = x := if_pos hx

theorem rekeying_copyKey (hg : g.Complete i) (hj : g.Uses i j) :
    rekeying p g i keys (copyKey p.nextKey g i j) = keys[j]?.getD 0 := by
  have hmem : j ∈ g.derivation i := hg.mem_derivation.mpr hj
  have hfound : (g.derivation i)[(g.derivation i).idxOf j]? = some j := List.getElem?_idxOf hmem
  rw [rekeying, if_neg (Nat.not_lt.mpr (le_copyKey ..)), copyKey, Nat.add_sub_cancel_left, hfound,
    Option.getD_some]

theorem ExactCopy.rekeying_nextKey (h : ExactCopy p g i q key keys) (hg : g.Complete i) :
    rekeying p g i keys p.nextKey = key :=
  calc rekeying p g i keys p.nextKey
      = rekeying p g i keys (copyKey p.nextKey g i i) := by rw [copyKey_self p.nextKey hg]
    _ = keys[i]?.getD 0 := rekeying_copyKey hg (.refl i)
    _ = key := h.getD_keys_self

/-- **Any exact copy is an insertion under other keys.** -/
theorem ExactCopy.rekeyed (h : ExactCopy p g i q key keys) (hg : g.Complete i)
    (hp : ∀ x, ∀ a ∈ p.graph.antecedents x, p.contains a = true)
    (hroot : q.root = rekeying p g i keys p.root) :
    (p.insert g i).Rekeyed q (rekeying p g i keys) := by
  constructor
  case root_eq => exact hroot
  case name_inj =>
    intro x y hx hy heq
    rcases (contains_insert hg).mp hx with hx | ⟨j, hj, rfl⟩
    · rcases (contains_insert hg).mp hy with hy | ⟨k, hk, rfl⟩
      · rwa [rekeying_of_lt (lt_nextKey_of_contains hx),
          rekeying_of_lt (lt_nextKey_of_contains hy)] at heq
      · have hlt := lt_nextKey_of_contains hx
        have hle := h.nextKey_le_name hk
        rw [rekeying_of_lt hlt, rekeying_copyKey hg hk] at heq
        omega
    · rcases (contains_insert hg).mp hy with hy | ⟨k, hk, rfl⟩
      · have hlt := lt_nextKey_of_contains hy
        have hle := h.nextKey_le_name hj
        rw [rekeying_of_lt hlt, rekeying_copyKey hg hj] at heq
        omega
      · rw [rekeying_copyKey hg hj, rekeying_copyKey hg hk] at heq
        rw [h.copied.name_inj j k hj hk heq]
  case node?_name =>
    intro x c hc
    rcases (contains_insert hg).mp (ProofTree.contains_iff.mpr ⟨c, hc⟩) with hx | ⟨j, hj, rfl⟩
    · have hlt := lt_nextKey_of_contains hx
      rw [node?_insert_of_lt hlt] at hc
      have hkept : ∀ a ∈ c.antecedents, rekeying p g i keys a = a := by
        intro a ha
        rw [← ClauseGraph.antecedents_of_clause? ((clause?_graph p x).trans hc)] at ha
        exact rekeying_of_lt (lt_nextKey_of_contains (hp x a ha))
      rw [rekeying_of_lt hlt, h.node_of_lt x hlt, hc, List.map_congr_left hkept, List.map_id']
    · obtain ⟨d, hd, hnode⟩ := h.copied.clause?_name j hj
      rw [node?_insert_copyKey hg hj hd] at hc
      cases hc
      rw [rekeying_copyKey hg hj, ← clause?_graph, hnode, Clause.rename, Clause.rename,
        List.map_map]
      congr 2
      refine List.map_congr_left fun a ha => ?_
      rw [← ClauseGraph.antecedents_of_clause? hd] at ha
      exact (rekeying_copyKey hg (.tail hj ha)).symm
  case exists_name =>
    intro y hy
    rcases (h.contains_iff y).mp hy with hold | ⟨j, hj⟩
    · exact ⟨y, (contains_insert hg).mpr (.inl hold),
        (rekeying_of_lt (lt_nextKey_of_contains hold)).symm⟩
    · have huses : g.Uses i j := (h.mem_keys j).mp
        (Std.TreeMap.mem_iff_isSome_getElem?.mpr (Option.isSome_iff_exists.mpr ⟨y, hj⟩))
      refine ⟨copyKey p.nextKey g i j, (contains_insert hg).mpr (.inr ⟨j, huses, rfl⟩), ?_⟩
      rw [rekeying_copyKey hg huses, hj, Option.getD_some]

end rekeying

end ProofTree
end Refutation
