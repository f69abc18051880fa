import Refutation.ProofTree.WellFormed
import Refutation.Proofs.Ancestry
import Refutation.Proofs.Numbering

/-! # Copies of derivations

A copy of the derivation of a clause has one node for each clause that is used, with the literals
of the clause and with its antecedents in order, under new names that keep different clauses apart
(`Copied`).  Whatever a copied clause uses in its new place is a copy again (`Copied.uses_iff`), and
a copy of a copy is a copy (`Copied.comp`).

Inserting a clause into a proof tree copies its derivation (`ProofTree.copied_insert`), at keys
that were not handed out before.  The nodes that were there are not used by the copy, so that a
graft is never refused for a cycle (`ProofTree.graft_eq_ok`). -/

namespace Refutation

@[simp]
theorem ProofTree.clause?_graph (p : ProofTree) (key : Nat) :
    p.graph.clause? key = p.node? key := rfl

@[simp]
theorem Trace.clause?_graph (t : Trace) (i : Nat) : t.graph.clause? i = t.clause? i := rfl

/-- The clause with every antecedent renamed. -/
def Clause.rename (name : Nat → Nat) (c : Clause) : Clause :=
  { c with antecedents := c.antecedents.map name }

namespace ClauseGraph

variable {g : ClauseGraph} {i j : Nat} {c : Clause}

theorem antecedents_of_clause? (h : g.clause? i = some c) : g.antecedents i = c.antecedents := by
  simp [antecedents, h]

/-- The derivation of a clause is complete: every clause it uses is there, under a name below the
bound. -/
structure Complete (g : ClauseGraph) (i : Nat) : Prop where
  lt_bound : ∀ j, g.Uses i j → j < g.bound
  clause_mem : ∀ j, g.Uses i j → ∃ c, g.clause? j = some c

theorem Complete.mem_derivation (h : g.Complete i) : j ∈ g.derivation i ↔ g.Uses i j :=
  mem_derivation_iff h.lt_bound

theorem Complete.head_derivation (h : g.Complete i) : (g.derivation i).head? = some i := by
  have hbound : i < g.bound := h.lt_bound i (.refl i)
  obtain ⟨b, hb⟩ : ∃ b, g.bound = b + 1 := ⟨g.bound - 1, by omega⟩
  simp [derivation, hb, explore]

end ClauseGraph

/-! ### Copies -/

/-- The derivation of clause `i` of `g` is copied in `h`: under their new names, the clauses that
are used have the same literals and the same antecedents in order, and no two of them share a
name. -/
structure Copied (g : ClauseGraph) (i : Nat) (h : ClauseGraph) (name : Nat → Nat) : Prop where
  name_inj : ∀ j k, g.Uses i j → g.Uses i k → name j = name k → j = k
  clause?_name : ∀ j, g.Uses i j →
    ∃ c, g.clause? j = some c ∧ h.clause? (name j) = some (c.rename name)

namespace Copied

variable {g h h' : ClauseGraph} {i j x : Nat} {name name' : Nat → Nat}

theorem antecedents_name (hcopy : Copied g i h name) (hj : g.Uses i j) :
    h.antecedents (name j) = (g.antecedents j).map name := by
  obtain ⟨c, hc, hname⟩ := hcopy.clause?_name j hj
  rw [ClauseGraph.antecedents_of_clause? hname, ClauseGraph.antecedents_of_clause? hc]
  rfl

/-- **A copy uses the copies of what is used**, and nothing else. -/
theorem uses_iff (hcopy : Copied g i h name) :
    h.Uses (name i) x ↔ ∃ j, g.Uses i j ∧ x = name j := by
  constructor
  · intro huses
    refine huses.mem_of_reaches (P := fun x => ∃ j, g.Uses i j ∧ x = name j) ?_ ⟨i, .refl i, rfl⟩
    intro x hx y hy
    obtain ⟨j, hj, rfl⟩ := hx
    rw [hcopy.antecedents_name hj] at hy
    obtain ⟨k, hk, rfl⟩ := List.mem_map.mp hy
    exact ⟨k, .tail hj hk, rfl⟩
  · intro hx
    obtain ⟨j, hj, rfl⟩ := hx
    induction hj with
    | refl => exact .refl _
    | tail hj hk ih =>
        refine .tail ih ?_
        rw [hcopy.antecedents_name hj]
        exact List.mem_map_of_mem hk

theorem congr (hcopy : Copied g i h name)
    (hsame : ∀ j, g.Uses i j → h'.clause? (name j) = h.clause? (name j)) :
    Copied g i h' name where
  name_inj := hcopy.name_inj
  clause?_name j hj := by
    rw [hsame j hj]
    exact hcopy.clause?_name j hj

theorem comp (hcopy : Copied g i h name) (hcopy' : Copied h (name i) h' name') :
    Copied g i h' (name' ∘ name) where
  name_inj j k hj hk heq := by
    have hj' := hcopy.uses_iff.mpr ⟨j, hj, rfl⟩
    have hk' := hcopy.uses_iff.mpr ⟨k, hk, rfl⟩
    exact hcopy.name_inj j k hj hk (hcopy'.name_inj _ _ hj' hk' heq)
  clause?_name j hj := by
    obtain ⟨c, hc, hname⟩ := hcopy.clause?_name j hj
    obtain ⟨d, hd, hname'⟩ := hcopy'.clause?_name _ (hcopy.uses_iff.mpr ⟨j, hj, rfl⟩)
    rw [hname] at hd
    cases hd
    refine ⟨c, hc, ?_⟩
    rw [Function.comp_apply, hname', Clause.rename, Clause.rename, Clause.rename, List.map_map]

end Copied

namespace ProofTree

/-! ### Clauses copied in some order -/

/-- Copies of some clauses in the order given, the first of them getting the key `start`: their
antecedents are renamed to the keys of the copies. -/
def copyInOrder (start : Nat) (g : ClauseGraph) (order : List Nat) : List (Option Clause) :=
  order.map fun source => (g.clause? source).map
    (Clause.renameAntecedents ((Std.TreeMap.ofList (order.zipIdx start))[·]?))

section order

variable {p q : ProofTree} {g : ClauseGraph} {start j : Nat} {order : List Nat} {c : Clause}

theorem renameAntecedents_inOrder (hnodup : order.Nodup) (hants : ∀ a ∈ c.antecedents, a ∈ order) :
    c.renameAntecedents ((Std.TreeMap.ofList (order.zipIdx start))[·]?) =
      c.rename fun a => start + order.idxOf a := by
  unfold Clause.renameAntecedents Clause.rename
  congr 1
  rw [List.filterMap_congr fun a ha => getElem?_ofList_zipIdx_of_mem hnodup (hants a ha)]
  exact congrFun List.filterMap_eq_map' _

theorem node?_inOrder (hslots : q.slots = p.slots ++ (copyInOrder p.nextKey g order).toArray)
    (hnodup : order.Nodup) (hj : j ∈ order) (hc : g.clause? j = some c)
    (hants : ∀ a ∈ c.antecedents, a ∈ order) :
    q.node? (p.nextKey + order.idxOf j) =
      some (c.rename fun a => p.nextKey + order.idxOf a) := by
  have hlt := List.idxOf_lt_length_iff.mpr hj
  have hslot : q.slots[p.nextKey + order.idxOf j]? =
      some (some (c.rename fun a => p.nextKey + order.idxOf a)) := by
    simp only [hslots, nextKey, copyInOrder]
    rw [Array.getElem?_append_right (Nat.le_add_right ..), Nat.add_sub_cancel_left,
      List.getElem?_toArray, List.getElem?_map, List.getElem?_eq_getElem hlt,
      List.getElem_idxOf hlt, Option.map_some, hc, Option.map_some,
      renameAntecedents_inOrder hnodup hants]
  rw [node?, hslot]
  rfl

theorem contains_inOrder (hslots : q.slots = p.slots ++ (copyInOrder p.nextKey g order).toArray)
    (hthere : ∀ j ∈ order, ∃ c, g.clause? j = some c) (hnodup : order.Nodup) {key : Nat} :
    q.contains key = true ↔
      p.contains key = true ∨ ∃ j ∈ order, key = p.nextKey + order.idxOf j := by
  have hold : ∀ key < p.nextKey, q.node? key = p.node? key := fun key hkey => by
    rw [node?, hslots, Array.getElem?_append_left hkey, node?]
  have hnew : ∀ n (hn : n < order.length), ∃ c, q.node? (p.nextKey + n) = some c := by
    intro n hn
    obtain ⟨c, hc⟩ := hthere _ (List.getElem_mem hn)
    simp only [node?, hslots, copyInOrder, nextKey]
    rw [Array.getElem?_append_right (Nat.le_add_right ..), Nat.add_sub_cancel_left,
      List.getElem?_toArray, List.getElem?_map, List.getElem?_eq_getElem hn, Option.map_some, hc]
    exact ⟨_, rfl⟩
  constructor
  · intro hkey
    have hbound : key < q.slots.size := lt_nextKey_of_contains hkey
    by_cases hlt : key < p.nextKey
    · left
      rwa [contains, hold key hlt] at hkey
    · right
      have hn : key - p.nextKey < order.length := by
        simp only [hslots, Array.size_append, List.size_toArray, copyInOrder,
          List.length_map] at hbound
        simp only [nextKey] at hlt ⊢
        omega
      refine ⟨order[key - p.nextKey], List.getElem_mem hn, ?_⟩
      rw [hnodup.idxOf_getElem]
      omega
  · intro hkey
    rcases hkey with hkey | ⟨j, hj, rfl⟩
    · rwa [contains, hold key (lt_nextKey_of_contains hkey)]
    · exact contains_iff.mpr (hnew _ (List.idxOf_lt_length_iff.mpr hj))

/-- Where antecedents are copied before the clauses that use them, a clause more to copy is one
copy more, with the antecedents that the clauses before it give it. -/
theorem copyInOrder_concat (hnodup : (order ++ [j]).Nodup)
    (hbefore : ∀ k ∈ order ++ [j], ∀ a ∈ g.antecedents k, a ∈ order) :
    copyInOrder start g (order ++ [j]) = copyInOrder start g order ++
      [(g.clause? j).map
        (Clause.renameAntecedents ((Std.TreeMap.ofList (order.zipIdx start))[·]?))] := by
  have hsame : ∀ k ∈ order ++ [j],
      (g.clause? k).map
          (Clause.renameAntecedents ((Std.TreeMap.ofList ((order ++ [j]).zipIdx start))[·]?)) =
        (g.clause? k).map
          (Clause.renameAntecedents ((Std.TreeMap.ofList (order.zipIdx start))[·]?)) := by
    intro k hk
    cases hc : g.clause? k with
    | none => rfl
    | some c =>
        simp only [Option.map_some, Clause.renameAntecedents]
        congr 2
        refine List.filterMap_congr fun a ha => ?_
        rw [← ClauseGraph.antecedents_of_clause? hc] at ha
        have hne : a ≠ j := fun heq =>
          List.disjoint_of_nodup_append hnodup (hbefore k hk a ha) (heq ▸ List.mem_cons_self)
        rw [getElem?_ofList_zipIdx_concat hnodup, if_neg hne]
  rw [copyInOrder, List.map_congr_left hsame, List.map_append, List.map_singleton, copyInOrder]

end order

/-! ### Inserting a copy -/

/-- The key that the copy of clause `j` gets when the derivation of clause `i` is copied. -/
def copyKey (start : Nat) (g : ClauseGraph) (i j : Nat) : Nat := start + (g.derivation i).idxOf j

section insert

variable {p : ProofTree} {g : ClauseGraph} {start i j key : Nat}

theorem mem_copyKeys (h : g.Complete i) :
    (j, key) ∈ copyKeys start g i ↔ g.Uses i j ∧ key = copyKey start g i j := by
  rw [copyKeys, mem_zipIdx_iff_idxOf (g.nodup_derivation i), h.mem_derivation, copyKey]

theorem le_copyKey (start : Nat) (g : ClauseGraph) (i j : Nat) : start ≤ copyKey start g i j :=
  Nat.le_add_right ..

theorem copyKey_self (start : Nat) (h : g.Complete i) : copyKey start g i i = start := by
  have hhead := h.head_derivation
  cases hlist : g.derivation i with
  | nil => simp [hlist] at hhead
  | cons x rest =>
      rw [hlist, List.head?_cons, Option.some.injEq] at hhead
      simp [copyKey, hlist, hhead]

theorem copyKey_inj (h : g.Complete i) {k : Nat} (hj : g.Uses i j)
    (heq : copyKey start g i j = copyKey start g i k) : j = k := by
  have hidx : (g.derivation i).idxOf j = (g.derivation i).idxOf k := by
    unfold copyKey at heq
    omega
  exact (List.idxOf_inj (h.mem_derivation.mpr hj)).mp hidx

theorem slots_insert (p : ProofTree) (g : ClauseGraph) (i : Nat) :
    (p.insert g i).slots =
      p.slots ++ (copyInOrder p.nextKey g (g.derivation i)).toArray := rfl

theorem node?_insert_copyKey (h : g.Complete i) (hj : g.Uses i j) {c : Clause}
    (hc : g.clause? j = some c) :
    (p.insert g i).node? (copyKey p.nextKey g i j) =
      some (c.rename (copyKey p.nextKey g i)) := by
  refine node?_inOrder (slots_insert p g i) (g.nodup_derivation i)
    (h.mem_derivation.mpr hj) hc fun a ha => h.mem_derivation.mpr (.tail hj ?_)
  rwa [ClauseGraph.antecedents_of_clause? hc]

/-- **Inserting a clause copies its derivation.** -/
theorem copied_insert (h : g.Complete i) :
    Copied g i (p.insert g i).graph (copyKey p.nextKey g i) where
  name_inj _ _ hj _ heq := copyKey_inj h hj heq
  clause?_name j hj := by
    obtain ⟨c, hc⟩ := h.clause_mem j hj
    exact ⟨c, hc, node?_insert_copyKey h hj hc⟩

theorem contains_insert (h : g.Complete i) :
    (p.insert g i).contains key = true ↔
      p.contains key = true ∨ ∃ j, g.Uses i j ∧ key = copyKey p.nextKey g i j := by
  rw [contains_inOrder (slots_insert p g i)
    (fun j hj => h.clause_mem j (h.mem_derivation.mp hj)) (g.nodup_derivation i)]
  simp only [h.mem_derivation, copyKey]

theorem ofClause_eq_insert (g : ClauseGraph) (i : Nat) :
    ofClause g i = insert ⟨#[], 0⟩ g i := by
  simp [ofClause, insert, nextKey]

theorem ofClause_root (h : g.Complete i) : (ofClause g i).root = copyKey 0 g i i :=
  (copyKey_self 0 h).symm

theorem copied_ofClause (h : g.Complete i) :
    Copied g i (ofClause g i).graph (copyKey 0 g i) := by
  rw [ofClause_eq_insert]
  exact copied_insert h

theorem contains_ofClause (h : g.Complete i) :
    (ofClause g i).contains key = true ↔ ∃ j, g.Uses i j ∧ key = copyKey 0 g i j := by
  rw [ofClause_eq_insert, contains_insert h]
  simp [contains, node?, nextKey]

end insert

/-! ### Complete derivations of trees and traces -/

theorem complete_of_contains {p : ProofTree} {i : Nat}
    (h : ∀ j, p.graph.Uses i j → p.contains j = true) : p.graph.Complete i where
  lt_bound j hj := lt_nextKey_of_contains (h j hj)
  clause_mem j hj := contains_iff.mp (h j hj)

theorem complete_ofClause {g : ClauseGraph} {i : Nat} (h : g.Complete i) :
    (ofClause g i).graph.Complete (ofClause g i).root := by
  apply complete_of_contains
  intro key hkey
  rw [ofClause_root h, (copied_ofClause h).uses_iff] at hkey
  exact (contains_ofClause h).mpr hkey

end ProofTree

theorem Trace.WellFormed.complete {t : Trace} (ht : t.WellFormed) {i : Nat}
    (hi : t.contains i = true) : t.graph.Complete i := by
  have hmem : ∀ j, t.graph.Uses i j → j ∈ t.indices := fun j hj =>
    ht.mem_indices_of_reaches (mem_indices.mpr (contains_iff.mp hi)) hj
  constructor
  · intro j hj
    have hle := mem_indices.mp (hmem j hj)
    show j < t.size + 1
    omega
  · exact fun j hj => Option.isSome_iff_exists.mp (mem_indices_iff_isSome.mp (hmem j hj))

namespace ProofTree

/-! ### Grafting a copy -/

section graft

variable {p other : ProofTree} {parent key : Nat}

/-- What a graft makes of a tree, when it succeeds. -/
def grafted (p : ProofTree) (parent : Nat) (other : ProofTree) : ProofTree :=
  (p.insert other.graph other.root).attach parent p.nextKey

@[simp]
theorem root_grafted (p : ProofTree) (parent : Nat) (other : ProofTree) :
    (p.grafted parent other).root = p.root := by
  simp only [grafted, attach, insert]

/-- **A graft is never refused for a cycle**: the copied derivation uses none of the nodes that
were there, and so not the parent. -/
theorem graft_eq_ok (hparent : p.contains parent = true)
    (hother : other.graph.Complete other.root) :
    p.graft parent other = .ok (p.grafted parent other) := by
  have hlt := lt_nextKey_of_contains hparent
  have hkept : (p.insert other.graph other.root).contains parent = true :=
    (contains_insert hother).mpr (.inl hparent)
  have hcopied : (p.insert other.graph other.root).contains p.nextKey = true :=
    (contains_insert hother).mpr (.inr ⟨other.root, .refl _, (copyKey_self _ hother).symm⟩)
  have huses : (p.insert other.graph other.root).uses p.nextKey parent = false := by
    rw [uses, Bool.eq_false_iff]
    intro hmem
    have hreach := ClauseGraph.uses_of_mem_derivation (List.contains_iff_mem.mp hmem)
    have hcopy := copied_insert (p := p) hother
    rw [← copyKey_self p.nextKey hother, hcopy.uses_iff] at hreach
    obtain ⟨j, -, hj⟩ := hreach
    have hle := le_copyKey p.nextKey other.graph other.root j
    omega
  rw [graft, if_pos hparent, addAntecedent, if_pos ⟨hkept, hcopied⟩, huses]
  rfl

theorem node?_grafted_of_ne (hkey : key < p.nextKey) (hne : parent ≠ key) :
    (p.grafted parent other).node? key = p.node? key := by
  rw [grafted, node?_attach_of_ne hne, node?_insert_of_lt hkey]

theorem node?_grafted_self {c : Clause} (hparent : p.node? parent = some c) :
    (p.grafted parent other).node? parent =
      some { c with antecedents := c.antecedents ++ [p.nextKey] } := by
  have hlt := lt_nextKey_of_contains (contains_iff.mpr ⟨c, hparent⟩)
  rw [grafted, node?_attach_self, node?_insert_of_lt hlt, hparent]
  rfl

theorem copied_grafted (hparent : p.contains parent = true)
    (hother : other.graph.Complete other.root) :
    Copied other.graph other.root (p.grafted parent other).graph
      (copyKey p.nextKey other.graph other.root) := by
  have hlt := lt_nextKey_of_contains hparent
  apply (copied_insert hother).congr
  intro j _
  have hle := le_copyKey p.nextKey other.graph other.root j
  have hne : parent ≠ copyKey p.nextKey other.graph other.root j := by omega
  rw [clause?_graph, clause?_graph]
  exact node?_attach_of_ne hne

theorem contains_grafted (hother : other.graph.Complete other.root) :
    (p.grafted parent other).contains key = true ↔ p.contains key = true ∨
      ∃ j, other.graph.Uses other.root j ∧ key = copyKey p.nextKey other.graph other.root j := by
  rw [← contains_insert hother]
  by_cases hne : parent = key
  · subst hne
    rw [contains, contains, grafted, node?_attach_self, Option.isSome_map]
  · rw [contains, contains, grafted, node?_attach_of_ne hne]

/-! ### Grafting the derivation of a clause -/

variable {g : ClauseGraph} {i j : Nat}

/-- The key that clause `j` gets when a detached copy of the derivation of clause `i` is grafted. -/
def graftKey (p : ProofTree) (g : ClauseGraph) (i j : Nat) : Nat :=
  copyKey p.nextKey (ofClause g i).graph (ofClause g i).root (copyKey 0 g i j)

theorem graftKey_self (h : g.Complete i) : p.graftKey g i i = p.nextKey := by
  rw [graftKey, ← ofClause_root h, copyKey_self _ (complete_ofClause h)]

theorem ne_graftKey (hkey : key < p.nextKey) : key ≠ p.graftKey g i j :=
  Nat.ne_of_lt (Nat.lt_of_lt_of_le hkey (le_copyKey ..))

/-- A detached copy and its graft are, together, one copy. -/
theorem copied_graftKey (hparent : p.contains parent = true) (h : g.Complete i) :
    Copied g i (p.grafted parent (ofClause g i)).graph (p.graftKey g i) := by
  apply (copied_ofClause h).comp
  rw [← ofClause_root h]
  exact copied_grafted hparent (complete_ofClause h)

theorem contains_grafted_ofClause (h : g.Complete i) :
    (p.grafted parent (ofClause g i)).contains key = true ↔
      p.contains key = true ∨ ∃ j, g.Uses i j ∧ key = p.graftKey g i j := by
  rw [contains_grafted (complete_ofClause h)]
  apply or_congr_right
  constructor
  · intro hkey
    obtain ⟨x, hx, rfl⟩ := hkey
    rw [ofClause_root h, (copied_ofClause h).uses_iff] at hx
    obtain ⟨j, hj, rfl⟩ := hx
    exact ⟨j, hj, rfl⟩
  · intro hkey
    obtain ⟨j, hj, rfl⟩ := hkey
    refine ⟨copyKey 0 g i j, ?_, rfl⟩
    rw [ofClause_root h]
    exact (copied_ofClause h).uses_iff.mpr ⟨j, hj, rfl⟩

end graft

end ProofTree
end Refutation
