import Refutation.Proofs.Reachability

/-! # What can be learnt again

`Trace.learnable` goes through the trace once, from the clause after the first of a set to the last,
and adds each resolvent whose antecedents it has.  Since antecedents are earlier clauses, it has
them by then or never will (`learn_closed`).  So the pass computes the closure of the set under
resolvents that can be derived from it, `Trace.Learnt` (`Trace.mem_learnable_iff`).

The axioms a clause was derived from are found the other way round, by following antecedents from
the clause.  From a set of axioms a clause can be learnt exactly if the set contains these
(`Trace.learnt_iff_of_axioms`), and the core is what is found in this way from the conflict: it is
the least set of axioms from which the conflict can be learnt again (`Trace.core_least`). -/

namespace Refutation
namespace Trace

variable {t : Trace} {s : IndexSet} {i j : Nat}

/-! ### Kinds of clauses -/

theorem isResolvent_iff : t.isResolvent i = true ↔ t.antecedents i ≠ [] := by
  unfold isResolvent antecedents
  cases t.clause? i with
  | none => simp
  | some c => simp [Clause.isAxiom]

theorem isAxiom_iff : t.isAxiom i = true ↔ i ∈ t.indices ∧ t.antecedents i = [] := by
  rw [mem_indices_iff_isSome]
  unfold isAxiom antecedents
  cases t.clause? i with
  | none => simp
  | some c => simp [Clause.isAxiom]

theorem isAxiom_or_isResolvent (hi : i ∈ t.indices) :
    t.isAxiom i = true ∨ t.isResolvent i = true := by
  rw [isAxiom_iff, isResolvent_iff]
  by_cases h : t.antecedents i = []
  · exact .inl ⟨hi, h⟩
  · exact .inr h

/-! ### One pass over the trace -/

/-- `t.Learnt s i`: clause `i` is in the set `s`, or it is a resolvent of learnt clauses. -/
inductive Learnt (t : Trace) (s : IndexSet) : Nat → Prop where
  | given {i : Nat} (h : i ∈ t.present s) : Learnt t s i
  | resolved {i : Nat} (h : t.isResolvent i = true) (hants : ∀ a ∈ t.antecedents i, Learnt t s a) :
      Learnt t s i

/-- What the pass does at an index. -/
def learn (t : Trace) (learnt : IndexSet) (i : Nat) : IndexSet :=
  if t.resolvesFrom learnt i then learnt.insert i else learnt

theorem resolvesFrom_iff :
    t.resolvesFrom s i = true ↔ t.isResolvent i = true ∧ ∀ a ∈ t.antecedents i, a ∈ s := by
  simp [resolvesFrom]

theorem learnt_of_mem_foldl_learn {l : List Nat} {learnt : IndexSet}
    (hlearnt : ∀ i ∈ learnt, t.Learnt s i) (h : j ∈ l.foldl t.learn learnt) : t.Learnt s j := by
  refine foldl_grow_induction t.resolvesFrom ?_ hlearnt h
  intro found i hfound hres
  rw [resolvesFrom_iff] at hres
  exact .resolved hres.1 fun a ha => hfound a (hres.2 a ha)

/-- A resolvent that the pass visits is learnt if its antecedents are.  These are earlier clauses,
so that none of them is learnt only after the resolvent has been visited. -/
theorem learn_closed (h : t.WellFormed) {l : List Nat} (hl : l.Pairwise (· < ·))
    {learnt : IndexSet} (hi : i ∈ l) (hres : t.isResolvent i = true)
    (hants : ∀ a ∈ t.antecedents i, a ∈ l.foldl t.learn learnt) : i ∈ l.foldl t.learn learnt := by
  refine mem_foldl_grow_of_holds t.resolvesFrom hl hi ?_
    (resolvesFrom_iff.mpr ⟨hres, hants⟩)
  intro before after hbefore hholds
  rw [resolvesFrom_iff] at hholds ⊢
  exact ⟨hholds.1, fun a ha => hbefore a (hholds.2 a ha) (h.lt_of_mem_antecedents ha)⟩

theorem learnable_of_min? {first : Nat} (h : (t.present s).min? = some first) :
    t.learnable s =
      (List.range' (first + 1) (t.size - first)).foldl t.learn (t.present s) := by
  simp only [learnable, h]
  rfl

theorem exists_antecedent (hres : t.isResolvent i = true) : ∃ a, a ∈ t.antecedents i :=
  List.exists_mem_of_ne_nil _ (isResolvent_iff.mp hres)

theorem Learnt.mem_present (hnone : ∀ k, k ∉ t.present s) (h : t.Learnt s i) :
    i ∈ t.present s := by
  induction h with
  | given h => exact h
  | resolved hres _ ih =>
      obtain ⟨a, ha⟩ := exists_antecedent hres
      exact (hnone a (ih a ha)).elim

/-- The clauses up to some index may be passed over when looking for resolvents that have no
antecedent before it, for a resolvent comes after its antecedents. -/
theorem WellFormed.mem_range'_of_isResolvent (h : t.WellFormed) {first : Nat}
    (hres : t.isResolvent i = true) (hfirst : ∀ a ∈ t.antecedents i, first ≤ a) :
    i ∈ List.range' (first + 1) (t.size - first) := by
  obtain ⟨a, ha⟩ := exists_antecedent hres
  have hle := hfirst a ha
  have hlt := h.lt_of_mem_antecedents ha
  obtain ⟨c, hc, -⟩ := mem_antecedents ha
  have hidx := mem_indices.mp (mem_indices_of_clause? hc)
  rw [List.mem_range'_1]
  omega

/-- The pass learns what can be learnt.  It may leave out the clauses up to the first of the set,
for the antecedents of a resolvent are learnt, and thus not among these. -/
theorem Learnt.mem_foldl_learn (h : t.WellFormed) {first : Nat}
    (hmin : (t.present s).min? = some first) (hi : t.Learnt s i) :
    i ∈ (List.range' (first + 1) (t.size - first)).foldl t.learn (t.present s) := by
  rw [Std.TreeSet.min?_eq_some_iff_mem_and_forall] at hmin
  induction hi with
  | given hi => exact mem_foldl_grow_of_mem hi
  | resolved hres _ ih =>
      refine learn_closed h List.pairwise_lt_range' (h.mem_range'_of_isResolvent hres ?_) hres ih
      intro a ha
      rcases mem_or_mem_of_mem_foldl_grow (ih a ha) with hmem | hmem
      · exact Nat.isLE_compare.mp (hmin.2 a hmem)
      · rw [List.mem_range'_1] at hmem
        omega

/-- **What can be learnt from a set is its closure** under resolvents of learnt clauses. -/
theorem mem_learnable_iff (h : t.WellFormed) : i ∈ t.learnable s ↔ t.Learnt s i := by
  cases hmin : (t.present s).min? with
  | none =>
      have hnone : ∀ k, k ∉ t.present s := by
        rwa [Std.TreeSet.min?_eq_none_iff, Std.TreeSet.isEmpty_iff_forall_not_mem] at hmin
      have hlearnable : t.learnable s = t.present s := by simp only [learnable, hmin]
      rw [hlearnable]
      exact ⟨.given, Learnt.mem_present hnone⟩
  | some first =>
      rw [learnable_of_min? hmin]
      exact ⟨learnt_of_mem_foldl_learn fun k hk => .given hk, Learnt.mem_foldl_learn h hmin⟩

/-! ### Learning from axioms -/

/-- **A clause can be learnt from some axioms exactly if they contain the axioms it was derived
from.** -/
theorem learnt_iff_of_axioms (h : t.WellFormed) (hs : ∀ k ∈ s, t.isAxiom k = true)
    (hi : i ∈ t.indices) :
    t.Learnt s i ↔ ∀ a, Reaches t.antecedents i a → t.isAxiom a = true → a ∈ s := by
  constructor
  · intro hlearnt
    induction hlearnt with
    | @given i hgiven =>
        have hmem := (mem_present.mp hgiven).1
        have hnil := (isAxiom_iff.mp (hs i hmem)).2
        intro a hreach _
        rcases hreach.eq_or_exists_next with rfl | ⟨k, hk, -⟩
        · exact hmem
        · rw [hnil] at hk
          exact (List.not_mem_nil hk).elim
    | @resolved i hres _ ih =>
        intro a hreach hax
        rcases hreach.eq_or_exists_next with rfl | ⟨k, hk, hreach⟩
        · exact (isResolvent_iff.mp hres (isAxiom_iff.mp hax).2).elim
        · exact ih k hk (h.mem_indices_of_mem_antecedents hk) a hreach hax
  · intro haxioms
    induction i using Nat.strongRecOn with
    | ind i ih =>
        rcases isAxiom_or_isResolvent hi with hax | hres
        · exact .given (mem_present.mpr ⟨haxioms i (.refl i) hax, mem_indices.mp hi⟩)
        · refine .resolved hres fun k hk => ih k (h.lt_of_mem_antecedents hk)
            (h.mem_indices_of_mem_antecedents hk) fun a hreach hax => ?_
          exact haxioms a ((Reaches.single hk).trans hreach) hax

/-! ### The core -/

/-- **The core is the least set of axioms from which the conflict can be learnt again**, and empty
if there is no conflict.  It consists of the axioms that any exact search of the graph of
derivations finds from the conflict. -/
theorem core_least (ht : t.Obtained) :
    (∀ conflict, t.conflict? = some conflict →
      (∀ i ∈ t.core, t.isAxiom i = true) ∧ conflict ∈ t.learnable t.core ∧
      (∀ s : IndexSet, (∀ i ∈ s, t.isAxiom i = true) →
        (conflict ∈ t.learnable s ↔ ∀ i ∈ t.core, i ∈ s)) ∧
      ∀ search : NodeSearch, search.Exact → ∀ i,
        i ∈ t.core ↔ i ∈ t.searchedAncestors search {conflict} ∧ t.isAxiom i = true) ∧
    (t.conflict? = none → ∀ i, i ∉ t.core) := by
  have hwf := ht.wellFormed
  refine ⟨fun conflict hconflict => ?_, fun hnone i hi => ?_⟩
  · have hidx := mem_indices_of_conflict? hconflict
    have hcore : ∀ i, i ∈ t.core ↔ Reaches t.antecedents conflict i ∧ t.isAxiom i = true :=
      fun i => mem_core_iff hwf hconflict
    have haxioms : ∀ i ∈ t.core, t.isAxiom i = true := fun i hi => ((hcore i).mp hi).2
    have hlearnable : ∀ s : IndexSet, (∀ i ∈ s, t.isAxiom i = true) →
        (conflict ∈ t.learnable s ↔ ∀ i ∈ t.core, i ∈ s) := by
      intro s hs
      rw [mem_learnable_iff hwf, learnt_iff_of_axioms hwf hs hidx]
      simp only [hcore, and_imp]
    refine ⟨haxioms, (hlearnable t.core haxioms).mpr fun i hi => hi, hlearnable, ?_⟩
    intro search hsearch i
    rw [hcore, mem_searchedAncestors_iff hwf hsearch, mem_ancestors_singleton_iff hwf hidx]
  · rw [core_eq_empty hnone] at hi
    exact Std.TreeSet.not_mem_emptyc hi

/-- The clauses `1`, `¬1 ∨ 2` and `¬2` with the resolvents to the empty clause.  The axiom `3` is
not used, and the empty axiom comes too late to be the conflict. -/
def coreSample : Trace :=
  ⟨#[⟨[1], []⟩, ⟨[-1, 2], []⟩, ⟨[3], []⟩, ⟨[2], [1, 2]⟩, ⟨[-2], []⟩, ⟨[], [4, 5]⟩, ⟨[], []⟩]⟩

theorem coreSample_obtained : coreSample.Obtained := obtained_iff_wellFormed.mpr (by decide)

/-- The conflict of the sample can be learnt from the axioms `1`, `2`, `3` and `5`, and not without
`5`.  The core is what a depth-first search finds. -/
theorem core_least_sample :
    coreSample.Obtained ∧ coreSample.conflict? = some 6 ∧ depthFirstNodes.Exact ∧
      6 ∈ coreSample.learnable (.ofList [1, 2, 3, 5]) ∧
      6 ∉ coreSample.learnable (.ofList [1, 2, 3]) ∧
      ∀ i, i ∈ coreSample.core ↔
        i ∈ coreSample.searchedAncestors depthFirstNodes {6} ∧ coreSample.isAxiom i = true := by
  have hconflict : coreSample.conflict? = some 6 := by decide
  have hcore : coreSample.core.toList = [1, 2, 5] := by decide +kernel
  have hmem : ∀ i, i ∈ coreSample.core ↔ i ∈ [1, 2, 5] := fun i => by
    rw [← hcore, Std.TreeSet.mem_toList]
  have hofList : ∀ (l : List Nat) (i : Nat), i ∈ Std.TreeSet.ofList l ↔ i ∈ l := fun l i => by
    rw [Std.TreeSet.mem_ofList, List.contains_iff_mem]
  obtain ⟨hleast, -⟩ := core_least coreSample_obtained
  obtain ⟨-, -, hlearnable, hsearch⟩ := hleast 6 hconflict
  refine ⟨coreSample_obtained, hconflict, exact_depthFirstNodes, ?_, ?_,
    hsearch depthFirstNodes exact_depthFirstNodes⟩
  · rw [hlearnable _ fun i hi => ?_]
    · intro i hi
      rw [hmem] at hi
      rw [hofList]
      exact (by decide : [1, 2, 5] ⊆ [1, 2, 3, 5]) hi
    · rw [hofList] at hi
      exact (by decide : ∀ i ∈ [1, 2, 3, 5], coreSample.isAxiom i = true) i hi
  · rw [hlearnable _ fun i hi => ?_]
    · intro hall
      have hfive := hall 5 ((hmem 5).mpr (by decide))
      rw [hofList] at hfive
      exact absurd hfive (by decide)
    · rw [hofList] at hi
      exact (by decide : ∀ i ∈ [1, 2, 3], coreSample.isAxiom i = true) i hi

end Trace
end Refutation
