import Refutation.Trace.Basic

/-! # Recording keeps traces well formed

The checks made when a clause is recorded are what a well-formed trace asks of the clause: its
literals are proper and distinct, so that sorting them makes them strictly ascending by atom, and
its antecedents are earlier clauses (`Trace.WellFormed.record`).  Whether a trace is well formed
can be decided (`Trace.wellFormed_iff`). -/

namespace Refutation

/-! ### The order by atom -/

namespace Literal

theorem compareByAtom_self (l : Literal) : compareByAtom l l = .eq := by
  unfold compareByAtom
  rw [Std.ReflOrd.compare_self, Std.ReflOrd.compare_self]
  rfl

theorem eq_of_compareByAtom_eq {a b : Literal} (h : compareByAtom a b = .eq) : a = b := by
  unfold compareByAtom at h
  rw [Ordering.then_eq_eq] at h
  exact Std.LawfulEqOrd.eq_of_compare h.2

theorem isLE_compareByAtom_iff {a b : Literal} :
    (compareByAtom a b).isLE = true ↔ atom a < atom b ∨ atom a = atom b ∧ a ≤ b := by
  unfold compareByAtom
  rw [Ordering.isLE_then_iff_or, Nat.compare_eq_lt, Nat.compare_eq_eq, Std.isLE_compare]

theorem isLE_compareByAtom_trans {a b c : Literal} (hab : (compareByAtom a b).isLE = true)
    (hbc : (compareByAtom b c).isLE = true) : (compareByAtom a c).isLE = true := by
  rw [isLE_compareByAtom_iff] at hab hbc ⊢
  rcases hab with hab | ⟨hab, hle⟩
  · rcases hbc with hbc | ⟨hbc, -⟩
    · exact .inl (Nat.lt_trans hab hbc)
    · exact .inl (hbc ▸ hab)
  · rcases hbc with hbc | ⟨hbc, hle'⟩
    · exact .inl (hab ▸ hbc)
    · exact .inr ⟨hab.trans hbc, Int32.le_trans hle hle'⟩

theorem isLE_compareByAtom_total (a b : Literal) :
    ((compareByAtom a b).isLE || (compareByAtom b a).isLE) = true := by
  rw [Bool.or_eq_true, isLE_compareByAtom_iff, isLE_compareByAtom_iff]
  rcases Nat.lt_trichotomy (atom a) (atom b) with h | h | h
  · exact .inl (.inl h)
  · exact (Int32.le_total a b).imp (fun hle => .inr ⟨h, hle⟩) (fun hle => .inr ⟨h.symm, hle⟩)
  · exact .inr (.inl h)

theorem pairwise_sortByAtom {ls : List Literal} (h : ls.Nodup) :
    (sortByAtom ls).Pairwise fun a b => compareByAtom a b = .lt := by
  have hsorted : (sortByAtom ls).Pairwise fun a b => (compareByAtom a b).isLE = true := by
    unfold sortByAtom
    apply List.pairwise_mergeSort
    · intro a b c
      exact isLE_compareByAtom_trans
    · exact isLE_compareByAtom_total
  have hnodup : (sortByAtom ls).Nodup := (sortByAtom_perm ls).nodup_iff.mpr h
  refine hsorted.imp₂ ?_ hnodup
  intro a b hle hne
  cases hcmp : compareByAtom a b with
  | lt => rfl
  | eq => exact (hne (eq_of_compareByAtom_eq hcmp)).elim
  | gt => simp [hcmp] at hle

end Literal

/-! ### Recording -/

namespace Trace

variable {t t' : Trace} {literals : List Literal} {antecedents : List Nat} {i index : Nat}
  {c : Clause}

theorem ClauseOk.nodup (h : ClauseOk i c) : c.literals.Nodup := by
  refine h.ascending.imp ?_
  rintro a b hlt rfl
  rw [Literal.compareByAtom_self] at hlt
  cases hlt

theorem literalFault?_eq_none_iff {earlier : List Literal} :
    literalFault? index earlier literals = none ↔
      (∀ l ∈ literals, l.Proper ∧ l ∉ earlier) ∧ literals.Nodup := by
  induction literals generalizing earlier with
  | nil => simp [literalFault?]
  | cons l rest ih =>
      unfold literalFault?
      split
      · next h => simp [Literal.Proper, h]
      · split
        · next h => simp [Literal.Proper, h]
        · split
          · next h => simp [h]
          · next hzero hmin hnew =>
            rw [ih]
            simp only [List.mem_cons, List.nodup_cons, forall_eq_or_imp, Literal.Proper, not_or]
            constructor
            · rintro ⟨hrest, hnodup⟩
              refine ⟨⟨⟨⟨hzero, hmin⟩, hnew⟩, fun k hk => ⟨(hrest k hk).1, (hrest k hk).2.2⟩⟩, ?_⟩
              exact ⟨fun hl => (hrest l hl).2.1 rfl, hnodup⟩
            · rintro ⟨⟨-, hrest⟩, hl, hnodup⟩
              refine ⟨fun k hk => ⟨(hrest k hk).1, ?_, (hrest k hk).2⟩, hnodup⟩
              rintro rfl
              exact hl hk

theorem antecedentFault?_eq_none_iff :
    antecedentFault? index antecedents = none ↔ ∀ a ∈ antecedents, 0 < a ∧ a < index := by
  simp only [antecedentFault?, Option.map_eq_none_iff, List.find?_eq_none, Bool.or_eq_true,
    beq_iff_eq, decide_eq_true_eq, not_or, Nat.not_le, Nat.pos_iff_ne_zero]

theorem fault?_eq_none_iff :
    fault? index literals antecedents = none ↔
      ((∀ l ∈ literals, l.Proper) ∧ literals.Nodup) ∧ ∀ a ∈ antecedents, 0 < a ∧ a < index := by
  unfold fault?
  rw [Option.or_eq_none_iff, literalFault?_eq_none_iff, antecedentFault?_eq_none_iff]
  simp

theorem record_eq_ok_iff :
    t.record literals antecedents = .ok t' ↔ fault? (t.size + 1) literals antecedents = none ∧
      t' = ⟨t.clauses.push ⟨Literal.sortByAtom literals, antecedents⟩⟩ := by
  unfold record
  split
  · next h => simp [h]
  · next h => simp [h, eq_comm]

theorem clause?_push {c' : Clause} :
    (Trace.mk (t.clauses.push c)).clause? i = some c' ↔
      t.clause? i = some c' ∨ i = t.size + 1 ∧ c = c' := by
  cases i with
  | zero => simp [clause?]
  | succ i =>
      simp only [clause?, size, Array.getElem?_push, Nat.add_right_cancel_iff]
      split
      · next h =>
        have hnone : t.clauses[i]? = none := by simp [h]
        simp [h]
      · next h => simp [h]

/-! ### Deciding whether a trace is well formed -/

theorem clauseOk_iff :
    ClauseOk index c ↔
      ((c.antecedents.all fun a => decide (0 < a ∧ a < index)) &&
          c.literals.all fun l => decide l.Proper) = true ∧
        c.literals.Pairwise fun a b => Literal.compareByAtom a b = .lt := by
  simp only [Bool.and_eq_true, List.all_eq_true, decide_eq_true_iff]
  constructor
  · intro h
    exact ⟨⟨fun a ha => ⟨h.antecedent_pos a ha, h.antecedent_lt a ha⟩, h.proper⟩, h.ascending⟩
  · rintro ⟨⟨hants, hproper⟩, hascending⟩
    exact ⟨fun a ha => (hants a ha).1, fun a ha => (hants a ha).2, hproper, hascending⟩

instance (index : Nat) (c : Clause) : Decidable (ClauseOk index c) :=
  decidable_of_iff _ clauseOk_iff.symm

theorem wellFormed_iff :
    t.WellFormed ↔
      (t.indices.all fun i => (t.clause? i).all fun c => decide (ClauseOk i c)) = true := by
  simp only [List.all_eq_true, Option.all_eq_true, decide_eq_true_iff]
  constructor
  · intro h i _ c hc
    exact h i c hc
  · intro h i c hc
    refine h i ?_ c hc
    rw [mem_indices, ← isSome_clause?_iff, hc]
    rfl

instance (t : Trace) : Decidable t.WellFormed := decidable_of_iff _ wellFormed_iff.symm

/-! ### Well-formed traces -/

theorem wellFormed_empty : empty.WellFormed := by
  intro i c hc
  cases i <;> simp [clause?, empty] at hc

theorem WellFormed.record (h : t.WellFormed) (hrecord : t.record literals antecedents = .ok t') :
    t'.WellFormed := by
  obtain ⟨hfault, rfl⟩ := record_eq_ok_iff.mp hrecord
  rw [fault?_eq_none_iff] at hfault
  obtain ⟨⟨hproper, hnodup⟩, hants⟩ := hfault
  intro i c hc
  rcases clause?_push.mp hc with hc | ⟨rfl, rfl⟩
  · exact h i c hc
  · refine ⟨fun a ha => (hants a ha).1, fun a ha => (hants a ha).2, ?_, ?_⟩
    · intro l hl
      rw [Literal.mem_sortByAtom] at hl
      exact hproper l hl
    · exact Literal.pairwise_sortByAtom hnodup

end Trace
end Refutation
