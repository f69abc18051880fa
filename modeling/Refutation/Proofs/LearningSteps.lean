import Mathlib.Logic.Function.Iterate
import Refutation.Proofs.Learning

/-! # Learning step by step

`Trace.directlyLearnable` adds the resolvents of clauses that are given, and `Trace.learnable` those
of clauses that are given or learnt.  The one is a step and the other is what repeated steps come
to.  A clause that can be learnt has been learnt after as many steps as there are clauses up to it,
since its antecedents come before it (`Trace.Learnt.mem_iterate`); so it takes no more steps than
the trace has clauses, and one to leave out the indices that name none (`Trace.mem_iterate_iff`).

What can be learnt is the least set that is closed under such steps (`Trace.LeastLearned`).  A
larger set gives more to learn, nothing more can be learnt from what has been learnt, and all of it
is derived from the set (`Trace.learnable_closure`). -/

namespace Refutation
namespace Trace

variable {t : Trace} {s s' : IndexSet} {i : Nat}

/-! ### One step -/

theorem mem_indices_of_isResolvent (h : t.isResolvent i = true) : i ∈ t.indices := by
  obtain ⟨a, ha⟩ := exists_antecedent h
  obtain ⟨c, hc, -⟩ := mem_antecedents ha
  exact mem_indices_of_clause? hc

/-- **A step adds the resolvents of clauses of the set.**  Those among the clauses up to the first
of the set are not overlooked, for there are none. -/
theorem mem_directlyLearnable_iff (h : t.WellFormed) :
    i ∈ t.directlyLearnable s ↔
      i ∈ t.present s ∨ t.isResolvent i = true ∧ ∀ a ∈ t.antecedents i, a ∈ s := by
  have hpresent : (∀ a ∈ t.antecedents i, a ∈ s) → ∀ a ∈ t.antecedents i, a ∈ t.present s :=
    fun hants a ha =>
      mem_present.mpr ⟨hants a ha, mem_indices.mp (h.mem_indices_of_mem_antecedents ha)⟩
  cases hmin : (t.present s).min? with
  | none =>
      have hempty : ∀ k, k ∉ t.present s := by
        rwa [Std.TreeSet.min?_eq_none_iff, Std.TreeSet.isEmpty_iff_forall_not_mem] at hmin
      have hnone : ¬(t.isResolvent i = true ∧ ∀ a ∈ t.antecedents i, a ∈ s) := by
        rintro ⟨hres, hants⟩
        obtain ⟨a, ha⟩ := exists_antecedent hres
        exact hempty a (hpresent hants a ha)
      simp only [directlyLearnable, hmin, hnone, or_false]
  | some first =>
      have hrange : (t.isResolvent i = true ∧ ∀ a ∈ t.antecedents i, a ∈ s) →
          i ∈ List.range' (first + 1) (t.size - first) := by
        rintro ⟨hres, hants⟩
        rw [Std.TreeSet.min?_eq_some_iff_mem_and_forall] at hmin
        exact h.mem_range'_of_isResolvent hres fun a ha =>
          Nat.isLE_compare.mp (hmin.2 a (hpresent hants a ha))
      simp only [directlyLearnable, hmin, Std.TreeSet.mem_insertMany_list, List.contains_iff_mem,
        List.mem_filter, resolvesFrom_iff, and_iff_right_of_imp hrange]

theorem learnt_of_mem_directlyLearnable (h : t.WellFormed)
    (hlearnt : ∀ j ∈ s', j ∈ t.indices → t.Learnt s j) (hi : i ∈ t.directlyLearnable s') :
    t.Learnt s i := by
  rcases (mem_directlyLearnable_iff h).mp hi with hi | ⟨hres, hants⟩
  · rw [mem_present, ← mem_indices] at hi
    exact hlearnt i hi.1 hi.2
  · exact .resolved hres fun a ha => hlearnt a (hants a ha) (h.mem_indices_of_mem_antecedents ha)

/-! ### Repeated steps -/

theorem mem_iterate_of_mem_present (h : t.WellFormed) (hi : i ∈ t.present s) (m : Nat) :
    i ∈ t.directlyLearnable^[m] s := by
  have hidx := (mem_present.mp hi).2
  induction m with
  | zero => exact (mem_present.mp hi).1
  | succ m ih =>
      rw [Function.iterate_succ_apply', mem_directlyLearnable_iff h]
      exact .inl (mem_present.mpr ⟨ih, hidx⟩)

theorem learnt_of_mem_iterate (h : t.WellFormed) {m : Nat} (hidx : i ∈ t.indices)
    (hi : i ∈ t.directlyLearnable^[m] s) : t.Learnt s i := by
  induction m generalizing i with
  | zero => exact .given (mem_present.mpr ⟨hi, mem_indices.mp hidx⟩)
  | succ m ih =>
      rw [Function.iterate_succ_apply'] at hi
      exact learnt_of_mem_directlyLearnable h (fun j hj hidx => ih hidx hj) hi

/-- A clause that can be learnt has been learnt after as many steps as there are clauses up to it:
one step fewer is enough for its antecedents. -/
theorem Learnt.mem_iterate (h : t.WellFormed) (hi : t.Learnt s i) {m : Nat} (hm : i ≤ m) :
    i ∈ t.directlyLearnable^[m] s := by
  induction hi generalizing m with
  | given hi => exact mem_iterate_of_mem_present h hi m
  | resolved hres _ ih =>
      have hpos := (Trace.mem_indices.mp (mem_indices_of_isResolvent hres)).1
      obtain ⟨m, rfl⟩ := Nat.exists_eq_add_of_lt (Nat.lt_of_lt_of_le hpos hm)
      rw [Nat.zero_add] at hm ⊢
      rw [Function.iterate_succ_apply', mem_directlyLearnable_iff h]
      refine .inr ⟨hres, fun a ha => ih a ha ?_⟩
      have hlt := h.lt_of_mem_antecedents ha
      omega

theorem Learnt.mem_indices (hi : t.Learnt s i) : i ∈ t.indices := by
  cases hi with
  | given hi => exact Trace.mem_indices.mpr (Trace.mem_present.mp hi).2
  | resolved hres _ => exact mem_indices_of_isResolvent hres

/-- **Repeated steps come to what can be learnt.** -/
theorem mem_iterate_iff (h : t.WellFormed) {m : Nat} (hm : t.size < m) :
    i ∈ t.directlyLearnable^[m] s ↔ t.Learnt s i := by
  constructor
  · intro hi
    obtain ⟨m, rfl⟩ := Nat.exists_eq_add_of_lt hm
    rw [Function.iterate_succ_apply'] at hi
    exact learnt_of_mem_directlyLearnable h (fun j hj hidx => learnt_of_mem_iterate h hidx hj) hi
  · intro hi
    have hle := (Trace.mem_indices.mp hi.mem_indices).2
    exact hi.mem_iterate h (Nat.le_of_lt (Nat.lt_of_le_of_lt hle hm))

/-! ### The closure -/

/-- `LeastLearned t s set`: the set is the least one that contains the clauses of `s` and is closed
under resolvents of its members. -/
structure LeastLearned (t : Trace) (s set : IndexSet) : Prop where
  given_mem : ∀ i, i ∈ s → i ∈ t.indices → i ∈ set
  closed : ∀ i, t.isResolvent i = true → (∀ a ∈ t.antecedents i, a ∈ set) → i ∈ set
  least : ∀ P : Nat → Prop, (∀ i, i ∈ s → i ∈ t.indices → P i) →
    (∀ i, t.isResolvent i = true → (∀ a ∈ t.antecedents i, P a) → P i) → ∀ i ∈ set, P i

theorem leastLearned_learnable (h : t.WellFormed) (s : IndexSet) :
    LeastLearned t s (t.learnable s) := by
  constructor
  case given_mem =>
    intro i hi hidx
    exact (mem_learnable_iff h).mpr (.given (mem_present.mpr ⟨hi, mem_indices.mp hidx⟩))
  case closed =>
    intro i hres hants
    refine (mem_learnable_iff h).mpr (.resolved hres fun a ha => ?_)
    exact (mem_learnable_iff h).mp (hants a ha)
  case least =>
    intro P hgiven hstep i hi
    rw [mem_learnable_iff h] at hi
    induction hi with
    | given hi => exact hgiven _ (mem_present.mp hi).1 (mem_indices.mpr (mem_present.mp hi).2)
    | resolved hres _ ih => exact hstep _ hres ih

/-- **What can be learnt is the closure of one step.**

One step gives the clauses of the set and the resolvents all of whose antecedents are in the set;
what can be learnt is the least set closed under this, and what repeated steps come to.  It grows
with the set, is closed under learning, and consists of descendants of the set. -/
theorem learnable_closure (ht : t.Obtained) (s : IndexSet) :
    (∀ i, i ∈ t.directlyLearnable s ↔
      i ∈ s ∧ i ∈ t.indices ∨ t.isResolvent i = true ∧ ∀ a ∈ t.antecedents i, a ∈ s) ∧
    LeastLearned t s (t.learnable s) ∧
    (∀ m > t.size, ∀ i, i ∈ t.directlyLearnable^[m] s ↔ i ∈ t.learnable s) ∧
    (∀ s' : IndexSet, (∀ i ∈ s, i ∈ s') → ∀ i ∈ t.learnable s, i ∈ t.learnable s') ∧
    (∀ i, i ∈ t.learnable (t.learnable s) ↔ i ∈ t.learnable s) ∧
    ∀ i ∈ t.learnable s, i ∈ t.descendants s := by
  have h := ht.wellFormed
  have hleast := leastLearned_learnable h
  refine ⟨fun i => ?_, hleast s, fun m hm i => ?_, fun s' hsub => ?_, fun i => ⟨?_, ?_⟩, ?_⟩
  · rw [mem_directlyLearnable_iff h, mem_present, mem_indices]
  · rw [mem_iterate_iff h hm, mem_learnable_iff h]
  · exact (hleast s).least _ (fun i hi => (hleast s').given_mem i (hsub i hi)) (hleast s').closed
  · exact (hleast _).least (· ∈ t.learnable s) (fun i hi _ => hi) (hleast s).closed i
  · intro hi
    exact (hleast _).given_mem i hi ((mem_learnable_iff h).mp hi).mem_indices
  · refine (hleast s).least _ (fun i hi hidx => ?_) fun i hres hants => ?_
    · exact (mem_descendants_iff h).mpr ⟨i, hi, hidx, .refl i⟩
    · obtain ⟨a, ha⟩ := exists_antecedent hres
      exact descendants_closed h (hants a ha) ha

/-- From the clauses `1`, `2` and `5` of the sample, one step leads to `4`, and only a second one to
the conflict `6`.  The indices `0` and `19` name no clause, and the axioms `3` and `7` are not
learnt. -/
theorem learnable_closure_coreSample :
    coreSample.Obtained ∧
      (coreSample.directlyLearnable {0, 1, 2, 5, 19}).toList = [1, 2, 4, 5] ∧
      (coreSample.learnable {0, 1, 2, 5, 19}).toList = [1, 2, 4, 5, 6] ∧
      LeastLearned coreSample {0, 1, 2, 5, 19} (coreSample.learnable {0, 1, 2, 5, 19}) ∧
      (∀ i, i ∈ coreSample.directlyLearnable^[8] {0, 1, 2, 5, 19} ↔
        i ∈ coreSample.learnable {0, 1, 2, 5, 19}) ∧
      (∀ i ∈ coreSample.learnable {0, 1, 2, 5, 19}, i ∈ coreSample.learnable {0, 1, 2, 3, 5, 19}) ∧
      ∀ i ∈ coreSample.learnable {0, 1, 2, 5, 19}, i ∈ coreSample.descendants {0, 1, 2, 5, 19} := by
  have hsub : ∀ i ∈ ({0, 1, 2, 5, 19} : IndexSet), i ∈ ({0, 1, 2, 3, 5, 19} : IndexSet) := by
    intro i hi
    simp only [Std.TreeSet.mem_insert, Std.TreeSet.insert_eq_insert] at hi ⊢
    tauto
  obtain ⟨-, hleast, hsteps, hmono, -, hderived⟩ :=
    learnable_closure coreSample_obtained {0, 1, 2, 5, 19}
  exact ⟨coreSample_obtained, by cbv, by cbv, hleast, hsteps 8 (by decide),
    hmono _ hsub, hderived⟩

end Trace
end Refutation
