import Refutation.Exploration
import Refutation.Trace.Query
import Refutation.Reduction.Basic

/-! # Ancestries

`Trace.ancestors` collects the clauses that a set was derived from in one pass over the trace, from
the last clause to the first.  Since antecedents are earlier clauses, nothing is missed: an index
that the pass has already left behind cannot be found any more (`collect_closed`).  The pass
therefore computes the closure under antecedents (`Trace.mem_ancestors_iff`).

`Trace.descendants` goes the other way, from the first clause to the last, and adds a clause if it
has one of its antecedents.  Whatever such a pass asks about earlier clauses only is settled when it
comes to a clause (`mem_foldl_grow_of_holds`), so that it finds what is derived from the set, which
is what leads to the set by antecedents (`Trace.mem_descendants_iff`).

The scope of a reduction is the whole trace or such a closure.  In either case it lists indices of
clauses in ascending order, and with a clause it lists the antecedents of the clause. -/

namespace Refutation
namespace Trace

variable {t : Trace} {s : IndexSet} {i j : Nat}

/-! ### One pass over the trace -/

/-- What the pass does at an index. -/
def collect (t : Trace) (i : Nat) (found : IndexSet) : IndexSet :=
  if i ∈ found then found.insertMany (t.antecedents i) else found

theorem ancestors_eq_foldr : t.ancestors s = t.indices.foldr t.collect (t.present s) := rfl

theorem mem_collect_iff {found : IndexSet} :
    j ∈ t.collect i found ↔ j ∈ found ∨ i ∈ found ∧ j ∈ t.antecedents i := by
  unfold collect
  split
  · next hi => simp [Std.TreeSet.mem_insertMany_list, hi]
  · next hi => simp [hi]

theorem mem_foldr_collect_of_mem {l : List Nat} {found : IndexSet} (h : j ∈ found) :
    j ∈ l.foldr t.collect found := by
  induction l with
  | nil => exact h
  | cons i l ih => exact mem_collect_iff.mpr (.inl ih)

theorem reaches_of_mem_foldr_collect {l : List Nat} {found : IndexSet}
    (h : j ∈ l.foldr t.collect found) : ∃ i ∈ found, Reaches t.antecedents i j := by
  induction l generalizing j with
  | nil => exact ⟨j, h, .refl j⟩
  | cons i l ih =>
      rcases mem_collect_iff.mp h with hj | ⟨hi, hj⟩
      · exact ih hj
      · obtain ⟨k, hk, hreach⟩ := ih hi
        exact ⟨k, hk, .tail hreach hj⟩

theorem mem_antecedents {a : Nat} (h : a ∈ t.antecedents i) :
    ∃ c, t.clause? i = some c ∧ a ∈ c.antecedents := by
  unfold antecedents at h
  cases hc : t.clause? i with
  | none => simp [hc] at h
  | some c => exact ⟨c, rfl, by simpa [hc] using h⟩

theorem antecedents_eq {c : Clause} (h : t.clause? i = some c) :
    t.antecedents i = c.antecedents := by
  simp [antecedents, h]

theorem mem_indices_iff_isSome : i ∈ t.indices ↔ (t.clause? i).isSome := by
  rw [mem_indices, isSome_clause?_iff]

theorem mem_indices_of_clause? {c : Clause} (h : t.clause? i = some c) : i ∈ t.indices := by
  rw [mem_indices_iff_isSome, h]
  rfl

theorem any_isEmpty_iff :
    (t.clause? i).any Clause.isEmpty = true ↔ ∃ c, t.clause? i = some c ∧ c.literals = [] := by
  simp only [Option.any_eq_true, Clause.isEmpty, List.isEmpty_iff]

/-- **The conflict is the earliest empty clause.** -/
theorem conflict?_eq_some_iff :
    t.conflict? = some i ↔ (∃ c, t.clause? i = some c ∧ c.literals = []) ∧
      ∀ j < i, ∀ c, t.clause? j = some c → c.literals ≠ [] := by
  have hearlier : (∀ j, 1 ≤ j → j < i → (!(t.clause? j).any Clause.isEmpty) = true) ↔
      ∀ j < i, ∀ c, t.clause? j = some c → c.literals ≠ [] := by
    simp only [Bool.not_eq_true', ← Bool.not_eq_true, any_isEmpty_iff]
    constructor
    · intro hall j hlt c hc hempty
      exact hall j (mem_indices.mp (mem_indices_of_clause? hc)).1 hlt ⟨c, hc, hempty⟩
    · rintro hall j - hlt ⟨c, hc, hempty⟩
      exact hall j hlt c hc hempty
  rw [conflict?, indices, List.find?_range'_eq_some, hearlier, any_isEmpty_iff, ← indices]
  constructor
  · rintro ⟨hempty, -, hfirst⟩
    exact ⟨hempty, hfirst⟩
  · rintro ⟨⟨c, hc, hempty⟩, hfirst⟩
    exact ⟨⟨c, hc, hempty⟩, mem_indices_of_clause? hc, hfirst⟩

theorem mem_indices_of_conflict? (h : t.conflict? = some i) : i ∈ t.indices := by
  obtain ⟨⟨c, hc, -⟩, -⟩ := conflict?_eq_some_iff.mp h
  exact mem_indices_of_clause? hc

namespace WellFormed

theorem lt_of_mem_antecedents (h : t.WellFormed) (hj : j ∈ t.antecedents i) : j < i := by
  obtain ⟨c, hc, ha⟩ := mem_antecedents hj
  exact (h i c hc).antecedent_lt j ha

theorem mem_indices_of_mem_antecedents (h : t.WellFormed) (hj : j ∈ t.antecedents i) :
    j ∈ t.indices := by
  obtain ⟨c, hc, ha⟩ := mem_antecedents hj
  have hi := mem_indices.mp (mem_indices_of_clause? hc)
  have hpos := (h i c hc).antecedent_pos j ha
  have hlt := (h i c hc).antecedent_lt j ha
  rw [mem_indices]
  omega

/-- The pass is closed under antecedents at the indices it has visited.  The antecedents added at
an index are smaller than all indices visited before, so they cannot reopen one of these. -/
theorem collect_closed (h : t.WellFormed) {l : List Nat} (hl : l.Pairwise (· < ·))
    {found : IndexSet} (hi : i ∈ l) (hfound : i ∈ l.foldr t.collect found)
    (hj : j ∈ t.antecedents i) : j ∈ l.foldr t.collect found := by
  induction l with
  | nil => simp at hi
  | cons k l ih =>
      rw [List.pairwise_cons] at hl
      rw [List.foldr_cons, mem_collect_iff] at hfound ⊢
      rcases List.mem_cons.mp hi with rfl | hi
      · rcases hfound with hfound | ⟨hfound, _⟩
        · exact .inr ⟨hfound, hj⟩
        · exact .inr ⟨hfound, hj⟩
      · rcases hfound with hfound | ⟨_, hfound⟩
        · exact .inl (ih hl.2 hi hfound)
        · have hki := hl.1 i hi
          have hik := h.lt_of_mem_antecedents hfound
          omega

end WellFormed

theorem pairwise_lt_indices (t : Trace) : t.indices.Pairwise (· < ·) := List.pairwise_lt_range'

/-- **The ancestry of a set is its closure under antecedents.** -/
theorem mem_ancestors_iff (h : t.WellFormed) :
    i ∈ t.ancestors s ↔ ∃ j ∈ s, j ∈ t.indices ∧ Reaches t.antecedents j i := by
  rw [ancestors_eq_foldr]
  constructor
  · intro hi
    obtain ⟨j, hj, hreach⟩ := reaches_of_mem_foldr_collect hi
    rw [mem_present] at hj
    exact ⟨j, hj.1, mem_indices.mpr hj.2, hreach⟩
  · rintro ⟨j, hj, hidx, hreach⟩
    have hstart : j ∈ t.indices.foldr t.collect (t.present s) :=
      mem_foldr_collect_of_mem (mem_present.mpr ⟨hj, mem_indices.mp hidx⟩)
    refine hreach.mem_of_reaches (P := (· ∈ t.indices.foldr t.collect (t.present s))) ?_ hstart
    intro k hk a ha
    obtain ⟨c, hc, _⟩ := mem_antecedents ha
    exact h.collect_closed (pairwise_lt_indices t) (mem_indices_of_clause? hc) hk ha

theorem WellFormed.mem_indices_of_reaches (h : t.WellFormed) (hi : i ∈ t.indices)
    (hreach : Reaches t.antecedents i j) : j ∈ t.indices :=
  hreach.mem_of_reaches (P := (· ∈ t.indices))
    (fun _ _ _ ha => h.mem_indices_of_mem_antecedents ha) hi

theorem mem_ancestors_singleton_iff (h : t.WellFormed) (hj : j ∈ t.indices) :
    i ∈ t.ancestors {j} ↔ Reaches t.antecedents j i := by
  rw [mem_ancestors_iff h]
  constructor
  · rintro ⟨k, hk, -, hreach⟩
    obtain rfl : j = k := by simpa using hk
    exact hreach
  · exact fun hreach => ⟨j, by simp, hj, hreach⟩

/-! ### One pass in order -/

/-- What a pass does at an index that adds the index if a condition on what has been found holds. -/
def grow (condition : IndexSet → Nat → Bool) (found : IndexSet) (i : Nat) : IndexSet :=
  if condition found i then found.insert i else found

section grow

variable {condition : IndexSet → Nat → Bool} {found : IndexSet} {l : List Nat}

theorem mem_grow_iff :
    j ∈ grow condition found i ↔ j ∈ found ∨ j = i ∧ condition found i = true := by
  unfold grow
  split
  · next h =>
    rw [Std.TreeSet.mem_insert, Std.LawfulEqOrd.compare_eq_iff_eq, or_comm]
    simp [h, eq_comm]
  · next h => simp [h]

theorem mem_foldl_grow_of_mem (h : j ∈ found) : j ∈ l.foldl (grow condition) found := by
  induction l generalizing found with
  | nil => exact h
  | cons i l ih => exact ih (mem_grow_iff.mpr (.inl h))

theorem mem_or_mem_of_mem_foldl_grow (h : j ∈ l.foldl (grow condition) found) :
    j ∈ found ∨ j ∈ l := by
  induction l generalizing found with
  | nil => exact .inl h
  | cons i l ih =>
      rcases ih h with hj | hj
      · rcases mem_grow_iff.mp hj with hj | ⟨rfl, -⟩
        · exact .inl hj
        · exact .inr List.mem_cons_self
      · exact .inr (List.mem_cons_of_mem _ hj)

variable (condition) in
theorem foldl_grow_induction {P : Nat → Prop}
    (hstep : ∀ found i, (∀ k ∈ found, P k) → condition found i = true → P i)
    (hfound : ∀ k ∈ found, P k) (h : j ∈ l.foldl (grow condition) found) : P j := by
  induction l generalizing found with
  | nil => exact hfound j h
  | cons i l ih =>
      refine ih (fun k hk => ?_) h
      rcases mem_grow_iff.mp hk with hk | ⟨rfl, hholds⟩
      · exact hfound k hk
      · exact hstep found k hfound hholds

variable (condition) in
/-- An index that the pass visits is found if the condition holds in the end.  The condition is
about smaller indices, so that none of them is found only after the index has been visited. -/
theorem mem_foldl_grow_of_holds (hl : l.Pairwise (· < ·)) (hi : i ∈ l)
    (hlocal : ∀ before after : IndexSet, (∀ k ∈ after, k < i → k ∈ before) →
      condition after i = true → condition before i = true)
    (h : condition (l.foldl (grow condition) found) i = true) :
    i ∈ l.foldl (grow condition) found := by
  induction l generalizing found with
  | nil => simp at hi
  | cons k l ih =>
      rw [List.pairwise_cons] at hl
      rw [List.foldl_cons] at h ⊢
      rcases List.mem_cons.mp hi with rfl | hi
      · refine mem_foldl_grow_of_mem (mem_grow_iff.mpr (.inr ⟨rfl, hlocal _ _ ?_ h⟩))
        intro a ha hlt
        rcases mem_or_mem_of_mem_foldl_grow ha with ha | ha
        · rcases mem_grow_iff.mp ha with ha | ⟨rfl, -⟩
          · exact ha
          · omega
        · have hlater := hl.1 a ha
          omega
      · exact ih hl.2 hi h

end grow

/-- Whether a clause has an antecedent in a set. -/
def derivesFrom (t : Trace) (s : IndexSet) (i : Nat) : Bool := (t.antecedents i).any s.contains

theorem derivesFrom_iff : t.derivesFrom s i = true ↔ ∃ a ∈ t.antecedents i, a ∈ s := by
  simp [derivesFrom]

theorem descendants_eq_foldl :
    t.descendants s = t.indices.foldl (grow t.derivesFrom) (t.present s) := rfl

theorem descendants_closed (h : t.WellFormed) (hj : j ∈ t.descendants s)
    (hi : j ∈ t.antecedents i) : i ∈ t.descendants s := by
  obtain ⟨c, hc, -⟩ := mem_antecedents hi
  rw [descendants_eq_foldl] at hj ⊢
  refine mem_foldl_grow_of_holds t.derivesFrom (pairwise_lt_indices t)
    (mem_indices_of_clause? hc) ?_
    (derivesFrom_iff.mpr ⟨j, hi, hj⟩)
  intro before after hbefore hholds
  obtain ⟨a, ha, hafter⟩ := derivesFrom_iff.mp hholds
  exact derivesFrom_iff.mpr ⟨a, ha, hbefore a hafter (h.lt_of_mem_antecedents ha)⟩

/-- **What is derived from a set** is what leads to the set by antecedents. -/
theorem mem_descendants_iff (h : t.WellFormed) :
    i ∈ t.descendants s ↔ ∃ j ∈ s, j ∈ t.indices ∧ Reaches t.antecedents i j := by
  constructor
  · intro hi
    refine foldl_grow_induction t.derivesFrom
      (P := fun i => ∃ j ∈ s, j ∈ t.indices ∧ Reaches t.antecedents i j) ?_ ?_ hi
    · intro found k hfound hholds
      obtain ⟨a, ha, hmem⟩ := derivesFrom_iff.mp hholds
      obtain ⟨j, hj, hidx, hreach⟩ := hfound a hmem
      exact ⟨j, hj, hidx, (Reaches.single ha).trans hreach⟩
    · intro k hk
      rw [mem_present] at hk
      exact ⟨k, hk.1, mem_indices.mpr hk.2, .refl k⟩
  · rintro ⟨j, hj, hidx, hreach⟩
    have hgiven : j ∈ t.descendants s :=
      mem_foldl_grow_of_mem (mem_present.mpr ⟨hj, mem_indices.mp hidx⟩)
    exact hreach.mem_of_reached (P := (· ∈ t.descendants s))
      (fun k a ha hmem => descendants_closed h hmem ha) hgiven

theorem mem_core_iff (h : t.WellFormed) {conflict : Nat} (hconflict : t.conflict? = some conflict) :
    i ∈ t.core ↔ Reaches t.antecedents conflict i ∧ t.isAxiom i = true := by
  have hidx := mem_indices_of_conflict? hconflict
  unfold core
  rw [hconflict]
  simp only [Std.TreeSet.mem_filter, Std.TreeSet.get_eq, exists_prop,
    mem_ancestors_singleton_iff h hidx]

end Trace

/-! ### The scope of a reduction -/

namespace Reduction

variable {options : Options} {t : Trace} {i j : Nat}

theorem scope_congr {options' : Options} (h : options.coreOnly.value = options'.coreOnly.value) :
    scope options t = scope options' t := by
  unfold scope
  rw [h]

theorem scope_of_whole (hcore : options.coreOnly.value = false) : scope options t = t.indices := by
  unfold scope
  rw [hcore]

theorem scope_of_core (hcore : options.coreOnly.value = true) {conflict : Nat}
    (hconflict : t.conflict? = some conflict) :
    scope options t = (t.ancestors {conflict}).toList := by
  unfold scope
  rw [hcore, hconflict]

theorem pairwise_lt_scope (options : Options) (t : Trace) :
    (scope options t).Pairwise (· < ·) := by
  unfold scope
  split
  · exact Std.TreeSet.ordered_toList.imp fun h => Nat.compare_eq_lt.mp h
  · exact Trace.pairwise_lt_indices t

/-- A clause of the trace is in scope unless only the clauses of a conflict are wanted, there is
one, and the conflict was not derived from the clause. -/
def InScope (options : Options) (t : Trace) (i : Nat) : Prop :=
  i ∈ t.indices ∧ ∀ conflict, options.coreOnly.value = true → t.conflict? = some conflict →
    Reaches t.antecedents conflict i

/-- **The scope lists the clauses in scope.** -/
theorem mem_scope_iff (h : t.WellFormed) : i ∈ scope options t ↔ InScope options t i := by
  unfold scope InScope
  split
  · next conflict hcore hconflict =>
    have hidx := Trace.mem_indices_of_conflict? hconflict
    rw [Std.TreeSet.mem_toList, Trace.mem_ancestors_singleton_iff h hidx]
    constructor
    · intro hreach
      refine ⟨h.mem_indices_of_reaches hidx hreach, ?_⟩
      intro c _ hc
      rw [hconflict] at hc
      cases hc
      exact hreach
    · exact fun hscope => hscope.2 conflict hcore hconflict
  · next hne =>
    constructor
    · intro hi
      exact ⟨hi, fun conflict hcore hconflict => (hne conflict hcore hconflict).elim⟩
    · exact fun hi => hi.1

theorem mem_scope_of_core_iff (h : t.WellFormed) (hcore : options.coreOnly.value = true)
    {conflict : Nat} (hconflict : t.conflict? = some conflict) :
    i ∈ scope options t ↔ Reaches t.antecedents conflict i := by
  rw [scope_of_core hcore hconflict, Std.TreeSet.mem_toList]
  exact Trace.mem_ancestors_singleton_iff h (Trace.mem_indices_of_conflict? hconflict)

theorem exists_clause_of_mem_scope (h : t.WellFormed) (hi : i ∈ scope options t) :
    ∃ c, t.clause? i = some c :=
  Option.isSome_iff_exists.mp (Trace.mem_indices_iff_isSome.mp ((mem_scope_iff h).mp hi).1)

theorem mem_scope_of_mem_antecedents (h : t.WellFormed) (hi : i ∈ scope options t)
    (hj : j ∈ t.antecedents i) : j ∈ scope options t := by
  rw [mem_scope_iff h] at hi ⊢
  exact ⟨h.mem_indices_of_mem_antecedents hj,
    fun conflict hcore hconflict => .tail (hi.2 conflict hcore hconflict) hj⟩

end Reduction
end Refutation
