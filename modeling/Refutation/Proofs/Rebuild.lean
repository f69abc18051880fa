import Refutation.Proofs.CascadeStart
import Refutation.Proofs.Numbering
import Refutation.Trace.Obtained

/-! # The rebuilt trace

A reduced trace lists what a cascade has left of the clauses, after an empty clause if the
assumptions contradict one another.  `clause?_rebuild` and `origin?_rebuild` give the clause and
the origin at each index, and `getElem?_numbering` the new index of each clause that remains.

Since remaining clauses keep their order, new indices are ordered like the old ones, so that
antecedents are again earlier clauses.  With what the cascade leaves of the literals this makes the
reduced trace well formed (`wellFormed_rebuild`), and by induction every trace of the library
(`Trace.Obtained.wellFormed`).  Conversely each well-formed trace can be recorded
(`Trace.WellFormed.obtained`). -/

namespace Refutation.Reduction

/-! ### New indices -/

/-- `Stands rs first k r`: counting on from `first`, the residual `r` has number `k` in `rs`. -/
def Stands (rs : List Residual) (first k : Nat) (r : Residual) : Prop :=
  ∃ j, rs[j]? = some r ∧ k = first + j

section numbering

variable {rs : List Residual} {first i k k' : Nat} {r r' : Residual}

theorem Stands.mem (h : Stands rs first k r) : r ∈ rs := by
  obtain ⟨j, hj, -⟩ := h
  exact List.mem_of_getElem? hj

theorem exists_stands (first : Nat) (h : r ∈ rs) : ∃ k, Stands rs first k r := by
  obtain ⟨j, hj⟩ := List.mem_iff_getElem?.mp h
  exact ⟨first + j, j, hj, rfl⟩

theorem Stands.le (h : Stands rs first k r) : first ≤ k := by
  obtain ⟨j, -, rfl⟩ := h
  omega

variable (hasc : (rs.map (·.index)).Pairwise (· < ·))
include hasc

theorem Stands.lt (h : Stands rs first k r) (h' : Stands rs first k' r')
    (hlt : r.index < r'.index) : k < k' := by
  obtain ⟨j, hj, rfl⟩ := h
  obtain ⟨j', hj', rfl⟩ := h'
  have hmap : (rs.map (·.index))[j]? = some r.index := by rw [List.getElem?_map, hj]; rfl
  have hmap' : (rs.map (·.index))[j']? = some r'.index := by rw [List.getElem?_map, hj']; rfl
  obtain ⟨hjlen, hjval⟩ := List.getElem?_eq_some_iff.mp hmap
  obtain ⟨hjlen', hjval'⟩ := List.getElem?_eq_some_iff.mp hmap'
  by_contra hnot
  rcases Nat.lt_or_ge j' j with hless | hge
  · have hwrong := List.pairwise_iff_getElem.mp hasc j' j hjlen' hjlen hless
    omega
  · have hjj : j = j' := by omega
    subst hjj
    omega

/-- **The new index of a clause** is the number at which its residual stands. -/
theorem getElem?_numbering :
    (numbering first rs)[i]? = some k ↔ ∃ r, Stands rs first k r ∧ r.index = i := by
  have hpairs : ∀ {i k : Nat}, (i, k) ∈ (rs.map (·.index)).zipIdx first ↔
      ∃ r, Stands rs first k r ∧ r.index = i := by
    intro i k
    rw [List.mem_zipIdx_iff_le_and_getElem?_sub, List.getElem?_map, Option.map_eq_some_iff]
    constructor
    · rintro ⟨hle, r, hr, rfl⟩
      exact ⟨r, ⟨k - first, hr, by omega⟩, rfl⟩
    · rintro ⟨r, ⟨j, hj, rfl⟩, rfl⟩
      refine ⟨by omega, r, ?_, rfl⟩
      rwa [Nat.add_sub_cancel_left]
  have hnodup : (rs.map (·.index)).Nodup := hasc.imp fun hlt => Nat.ne_of_lt hlt
  rw [numbering, getElem?_ofList_zipIdx hnodup, hpairs]

end numbering

/-! ### Clauses and origins by index -/

/-- The number of the first clause that is not the leading one. -/
def firstNumber (assumptions : List Literal) : Nat := (leading assumptions).length + 1

/-- The new index of a clause, if something is left of it. -/
def number? (assumptions : List Literal) (c : Cascade) (i : Nat) : Option Nat :=
  (numbering (firstNumber assumptions) c.residuals)[i]?

section rebuild

variable {link : Bool} {t : Trace} {assumptions : List Literal} {c : Cascade} {k : Nat}

theorem getElem?_leading_append {α : Type} (front : List α) (rs : List Residual)
    (f : Residual → α) (k : Nat) (x : α) :
    (front ++ rs.map f)[k]? = some x ↔
      front[k]? = some x ∨ ∃ r, Stands rs (front.length + 1) (k + 1) r ∧ f r = x := by
  rw [List.getElem?_append]
  split
  · next hlt =>
    constructor
    · exact .inl
    · rintro (h | ⟨r, hstands, -⟩)
      · exact h
      · have hle := hstands.le
        omega
  · next hge =>
    rw [List.getElem?_map, Option.map_eq_some_iff]
    constructor
    · rintro ⟨r, hr, hx⟩
      exact .inr ⟨r, ⟨k - front.length, hr, by omega⟩, hx⟩
    · rintro (h | ⟨r, ⟨j, hj, heq⟩, hx⟩)
      · rw [List.getElem?_eq_none (by omega)] at h
        cases h
      · refine ⟨r, ?_, hx⟩
        have hjk : k - front.length = j := by omega
        rwa [hjk]

theorem getElem?_leading {d : Clause} :
    (leading assumptions)[k]? = some d ↔
      contradictory assumptions = true ∧ k = 0 ∧ d = ⟨[], []⟩ := by
  unfold leading
  split
  · next h =>
    rw [List.getElem?_singleton]
    split
    · next hk => simp [h, hk, eq_comm]
    · next hk => simp [hk]
  · next h => simp [h]

/-- **The clauses of the reduced trace.** -/
theorem clause?_rebuild {d : Clause} :
    (rebuild link t assumptions c).clause? k = some d ↔
      contradictory assumptions = true ∧ k = 1 ∧ d = ⟨[], []⟩ ∨
        ∃ r, Stands c.residuals (firstNumber assumptions) k r ∧
          Clause.mk r.literals (r.antecedents link t (number? assumptions c)) = d := by
  cases k with
  | zero =>
      constructor
      · intro h
        cases h
      · rintro (⟨-, h, -⟩ | ⟨r, hstands, -⟩)
        · cases h
        · have hle := hstands.le
          simp [firstNumber] at hle
  | succ k =>
      have hget : (rebuild link t assumptions c).clause? (k + 1) =
          (leading assumptions ++ c.residuals.map fun r =>
            Clause.mk r.literals (r.antecedents link t (number? assumptions c)))[k]? := by
        exact List.getElem?_toArray
      rw [hget, getElem?_leading_append, getElem?_leading, Nat.add_eq_right]
      rfl

theorem map_literals_rebuild :
    (rebuild link t assumptions c).clauses.toList.map (·.literals) =
      (leading assumptions).map (·.literals) ++ c.residuals.map (·.literals) := by
  show (leading assumptions ++ c.residuals.map _).map _ = _
  rw [List.map_append, List.map_map]
  rfl

theorem Residual.source?_origin (r : Residual) : r.origin.source? = some r.index := by
  unfold Residual.origin
  split <;> rfl

/-- **The origins of the reduced trace.** -/
theorem origin?_rebuild {o : Origin} :
    (rebuild link t assumptions c).origin? k = some o ↔
      contradictory assumptions = true ∧ k = 1 ∧ o = .contradiction ∨
        ∃ r, Stands c.residuals (firstNumber assumptions) k r ∧ r.origin = o := by
  cases k with
  | zero =>
      constructor
      · intro h
        cases h
      · rintro (⟨-, h, -⟩ | ⟨r, hstands, -⟩)
        · cases h
        · have hle := hstands.le
          simp [firstNumber] at hle
  | succ k =>
      have hget : (rebuild link t assumptions c).origin? (k + 1) =
          ((leading assumptions).map (fun _ => Origin.contradiction) ++
            c.residuals.map Residual.origin)[k]? := by
        exact List.getElem?_toArray
      rw [hget, getElem?_leading_append, List.getElem?_map, Option.map_eq_some_iff,
        List.length_map, Nat.add_eq_right]
      apply or_congr_left
      constructor
      · rintro ⟨d, hd, rfl⟩
        obtain ⟨hcontra, hk, -⟩ := getElem?_leading.mp hd
        exact ⟨hcontra, hk, rfl⟩
      · rintro ⟨hcontra, hk, rfl⟩
        exact ⟨⟨[], []⟩, getElem?_leading.mpr ⟨hcontra, hk, rfl⟩, rfl⟩

theorem clause?_of_stands {r : Residual} (h : Stands c.residuals (firstNumber assumptions) k r) :
    (rebuild link t assumptions c).clause? k =
      some ⟨r.literals, r.antecedents link t (number? assumptions c)⟩ :=
  clause?_rebuild.mpr (.inr ⟨r, h, rfl⟩)

/-- At an index antecedents are listed of what is left of a clause, or none, whether or not reasons
are linked. -/
theorem antecedents_rebuild_eq_nil_or (t : Trace) (assumptions : List Literal) (c : Cascade)
    (k : Nat) : (∀ link, (rebuild link t assumptions c).antecedents k = []) ∨
      ∃ r, Stands c.residuals (firstNumber assumptions) k r ∧
        ∀ link, (rebuild link t assumptions c).antecedents k =
          r.antecedents link t (number? assumptions c) := by
  by_cases hstands : ∃ r, Stands c.residuals (firstNumber assumptions) k r
  · obtain ⟨r, hstands⟩ := hstands
    exact .inr ⟨r, hstands, fun link => Trace.antecedents_eq (clause?_of_stands hstands)⟩
  · refine .inl fun link => ?_
    cases hd : (rebuild link t assumptions c).clause? k with
    | none => simp [Trace.antecedents, hd]
    | some d =>
        rw [Trace.antecedents_eq hd]
        rcases clause?_rebuild.mp hd with ⟨-, -, rfl⟩ | ⟨r, hr, -⟩
        · rfl
        · exact (hstands ⟨r, hr⟩).elim

theorem origin?_of_stands {r : Residual} (h : Stands c.residuals (firstNumber assumptions) k r) :
    (rebuild link t assumptions c).origin? k = some r.origin :=
  origin?_rebuild.mpr (.inr ⟨r, h, rfl⟩)

theorem origin?_of_shortened {r : Residual} (h : Stands c.residuals (firstNumber assumptions) k r)
    (hshort : r.isShortened = true) :
    (rebuild link t assumptions c).origin? k = some (.simplified r.index) := by
  rw [origin?_of_stands h, Residual.origin, if_pos hshort]

theorem origin?_of_whole {r : Residual} (h : Stands c.residuals (firstNumber assumptions) k r)
    (hwhole : ¬r.isShortened = true) :
    (rebuild link t assumptions c).origin? k = some (.kept r.index) := by
  rw [origin?_of_stands h, Residual.origin, if_neg hwhole]

theorem exists_stands_of_origin {i : Nat}
    (horigin : (rebuild link t assumptions c).origin? k = some (.kept i) ∨
      (rebuild link t assumptions c).origin? k = some (.simplified i)) :
    ∃ r, Stands c.residuals (firstNumber assumptions) k r ∧ r.index = i := by
  obtain ⟨o, ho, hcame⟩ : ∃ o, (rebuild link t assumptions c).origin? k = some o ∧
      (o = .kept i ∨ o = .simplified i) := by
    cases horigin with
    | inl h => exact ⟨_, h, .inl rfl⟩
    | inr h => exact ⟨_, h, .inr rfl⟩
  cases origin?_rebuild.mp ho with
  | inl hleading =>
      obtain ⟨-, -, rfl⟩ := hleading
      simp at hcame
  | inr hleft =>
      obtain ⟨r, hstands, rfl⟩ := hleft
      refine ⟨r, hstands, ?_⟩
      unfold Residual.origin at hcame
      split at hcame
      · simpa using hcame
      · simpa using hcame

theorem mem_antecedents_residual {number? : Nat → Option Nat} {r : Residual} {a : Nat} :
    a ∈ r.antecedents link t number? ↔ ∃ i, number? i = some a ∧
      (i ∈ t.antecedents r.index ∨
        link = true ∧ i ∈ reasonsOf r.removedBy ∧ i < r.index) := by
  have hreasons : ∀ i, i ∈ (if link then (r.removedBy.filterMap (·.reason)).filter (· < r.index)
      else []) ↔ link = true ∧ i ∈ reasonsOf r.removedBy ∧ i < r.index := by
    intro i
    cases link with
    | false => simp
    | true => simp [reasonsOf]
  simp only [Residual.antecedents, List.mem_eraseDups, List.mem_filterMap, List.mem_append,
    hreasons]
  constructor
  · rintro ⟨i, hi, hnumber⟩
    exact ⟨i, hnumber, hi⟩
  · rintro ⟨i, hnumber, hi⟩
    exact ⟨i, hi, hnumber⟩

/-! ### Conflicts -/

/-- **A conflict is found exactly if the assumptions contradict one another or the cascade has
emptied a clause.** -/
theorem foundConflict_rebuild :
    (rebuild link t assumptions c).foundConflict = true ↔
      contradictory assumptions = true ∨ c.inConflict = true := by
  have hfound : (rebuild link t assumptions c).foundConflict = true ↔
      ∃ k d, (rebuild link t assumptions c).clause? k = some d ∧ d.literals = [] ∧
        ∀ i, (rebuild link t assumptions c).origin? k ≠ some (.kept i) := by
    unfold ReducedTrace.foundConflict
    rw [List.any_eq_true]
    constructor
    · rintro ⟨k, -, h⟩
      rw [Bool.and_eq_true, Option.any_eq_true] at h
      obtain ⟨⟨d, hd, hempty⟩, horigin⟩ := h
      refine ⟨k, d, hd, List.isEmpty_iff.mp hempty, fun i hi => ?_⟩
      simp [hi, Origin.isKept] at horigin
    · rintro ⟨k, d, hd, hempty, horigin⟩
      refine ⟨k, Trace.mem_indices_of_clause? hd, ?_⟩
      rw [Bool.and_eq_true, Option.any_eq_true]
      refine ⟨⟨d, hd, List.isEmpty_iff.mpr hempty⟩, ?_⟩
      cases ho : (rebuild link t assumptions c).origin? k with
      | none => rfl
      | some o =>
          cases o with
          | kept i => exact (horigin i ho).elim
          | simplified i => rfl
          | contradiction => rfl
  rw [hfound]
  constructor
  · rintro ⟨k, d, hd, hempty, horigin⟩
    rcases clause?_rebuild.mp hd with ⟨hcontra, -, -⟩ | ⟨r, hstands, rfl⟩
    · exact .inl hcontra
    · refine .inr (List.any_eq_true.mpr ⟨r, hstands.mem, ?_⟩)
      rw [Bool.and_eq_true, List.isEmpty_iff]
      refine ⟨?_, hempty⟩
      by_contra hwhole
      exact horigin r.index (origin?_of_whole hstands hwhole)
  · rintro (hcontra | hconflict)
    · refine ⟨1, ⟨[], []⟩, clause?_rebuild.mpr (.inl ⟨hcontra, rfl, rfl⟩), rfl, ?_⟩
      intro i hi
      rw [origin?_rebuild.mpr (.inl ⟨hcontra, rfl, rfl⟩)] at hi
      cases hi
    · obtain ⟨r, hr, hempty⟩ := List.any_eq_true.mp hconflict
      rw [Bool.and_eq_true, List.isEmpty_iff] at hempty
      obtain ⟨k, hstands⟩ := exists_stands (firstNumber assumptions) hr
      refine ⟨k, _, clause?_of_stands hstands, hempty.2, fun i hi => ?_⟩
      rw [origin?_of_shortened hstands hempty.1] at hi
      cases hi

end rebuild

/-! ### Well-formed traces -/

section wellFormed

variable {link : Bool} {options : Options} {t : Trace} {assumptions assumed : List Literal}
  {c : Cascade} {k : Nat}

theorem exists_clause_of_mem_residuals (hsound : c.Sound (wholeClauses options t) assumed)
    {r : Residual} (hr : r ∈ c.residuals) :
    ∃ d, r.index ∈ scope options t ∧ t.clause? r.index = some d ∧
      (Residual.ofClause r.index d).remnant? c.settled = some r := by
  obtain ⟨whole, hwhole, hremnant⟩ := (Cascade.mem_residuals hsound).mp hr
  obtain ⟨i, hi, d, hd, rfl⟩ := mem_wholeClauses.mp hwhole
  have hindex : r.index = i := Residual.index_of_remnant? hremnant
  rw [hindex]
  exact ⟨d, hi, hd, hremnant⟩

theorem whole_of_mem_residuals (hsound : c.Sound (wholeClauses options t) assumed) {r : Residual}
    (hr : r ∈ c.residuals) {d : Clause} (hd : t.clause? r.index = some d) :
    Residual.ofClause r.index d ∈ wholeClauses options t ∧
      (Residual.ofClause r.index d).remnant? c.settled = some r := by
  obtain ⟨e, hscope, he, hremnant⟩ := exists_clause_of_mem_residuals hsound hr
  rw [hd] at he
  cases he
  exact ⟨mem_wholeClauses.mpr ⟨_, hscope, d, hd, rfl⟩, hremnant⟩

theorem ascending_residuals (h : t.WellFormed) (hsound : c.Sound (wholeClauses options t) assumed) :
    (c.residuals.map (·.index)).Pairwise (· < ·) :=
  (intact_wholeClauses h options).ascending.sublist (Cascade.index_residuals_sublist hsound)

theorem number?_eq_some_iff (h : t.WellFormed)
    (hsound : c.Sound (wholeClauses options t) assumed) {i : Nat} :
    number? assumptions c i = some k ↔
      ∃ r, Stands c.residuals (firstNumber assumptions) k r ∧ r.index = i :=
  getElem?_numbering (ascending_residuals h hsound)

theorem wellFormed_rebuild (h : t.WellFormed)
    (hsound : c.Sound (wholeClauses options t) assumed) :
    (rebuild link t assumptions c).WellFormed := by
  intro k d hd
  rcases clause?_rebuild.mp hd with ⟨-, rfl, rfl⟩ | ⟨r, hstands, rfl⟩
  · exact ⟨by simp, by simp, by simp, by simp⟩
  · obtain ⟨d, -, hclause, hremnant⟩ := exists_clause_of_mem_residuals hsound hstands.mem
    have hok := h r.index d hclause
    have hliterals : r.literals.Sublist d.literals := by
      rw [Residual.literals_of_remnant? hremnant]
      exact List.filter_sublist
    have hants : ∀ a ∈ r.antecedents link t (number? assumptions c), ∃ r',
        Stands c.residuals (firstNumber assumptions) a r' ∧ r'.index < r.index := by
      intro a ha
      obtain ⟨i, hnumber, hi⟩ := mem_antecedents_residual.mp ha
      obtain ⟨r', hstands', rfl⟩ := (number?_eq_some_iff h hsound).mp hnumber
      refine ⟨r', hstands', ?_⟩
      rcases hi with hi | ⟨-, -, hi⟩
      · exact h.lt_of_mem_antecedents hi
      · exact hi
    refine ⟨?_, ?_, ?_, ?_⟩
    · intro a ha
      obtain ⟨r', hstands', -⟩ := hants a ha
      have hle := hstands'.le
      rw [firstNumber] at hle
      omega
    · intro a ha
      obtain ⟨r', hstands', hlt⟩ := hants a ha
      exact hstands'.lt (ascending_residuals h hsound) hstands hlt
    · exact fun l hl => hok.proper l (hliterals.mem hl)
    · exact hok.ascending.sublist hliterals

theorem reduce_eq_ok (options : Options) (t : Trace) (hproper : ∀ l ∈ assumptions, l.Proper) :
    t.reduce options assumptions = .ok (rebuild options.linkUnitReasons.value t
      assumptions.eraseDups (cascade options t assumptions.eraseDups)) := by
  unfold Trace.reduce
  rw [assumptionFault?_eq_none_iff.mpr hproper]

theorem reduce_eq_ok_iff {r : ReducedTrace} :
    t.reduce options assumptions = .ok r ↔ (∀ l ∈ assumptions, l.Proper) ∧
      rebuild options.linkUnitReasons.value t assumptions.eraseDups
        (cascade options t assumptions.eraseDups) = r := by
  constructor
  · intro h
    have hproper : ∀ l ∈ assumptions, l.Proper := by
      unfold Trace.reduce at h
      split at h
      · cases h
      · next hnone => exact assumptionFault?_eq_none_iff.mp hnone
    rw [reduce_eq_ok options t hproper] at h
    exact ⟨hproper, Except.ok.inj h⟩
  · rintro ⟨hproper, rfl⟩
    exact reduce_eq_ok options t hproper

theorem sound_cascade_eraseDups (h : t.WellFormed) (options : Options)
    (hproper : ∀ l ∈ assumptions, l.Proper) :
    (cascade options t assumptions.eraseDups).Sound (wholeClauses options t)
      (accepted assumptions.eraseDups) :=
  sound_cascade h (fun l hl => hproper l (List.mem_eraseDups.mp hl)) (nodup_eraseDups _)

theorem contradictory_eraseDups (assumptions : List Literal) :
    contradictory assumptions.eraseDups = contradictory assumptions := by
  rw [Bool.eq_iff_iff, contradictory_iff, contradictory_iff]
  simp only [List.mem_eraseDups]

end wellFormed

end Refutation.Reduction

namespace Refutation

/-- **Every trace of the library is well formed.** -/
theorem Trace.Obtained.wellFormed {t : Trace} (h : t.Obtained) : t.WellFormed := by
  induction h with
  | empty => exact wellFormed_empty
  | record _ hrecord ih => exact ih.record hrecord
  | reduce _ hreduce ih =>
      obtain ⟨hproper, rfl⟩ := Reduction.reduce_eq_ok_iff.mp hreduce
      exact Reduction.wellFormed_rebuild ih (Reduction.sound_cascade_eraseDups ih _ hproper)

/-- **Every well-formed trace can be recorded**, clause by clause. -/
theorem Trace.WellFormed.obtained {t : Trace} (h : t.WellFormed) : t.Obtained := by
  obtain ⟨⟨clauses⟩⟩ := t
  induction clauses using List.reverseRecOn with
  | nil => exact .empty
  | append_singleton clauses c ih =>
      have hpush : Trace.mk ⟨clauses ++ [c]⟩ = ⟨(Array.mk clauses).push c⟩ := by simp
      rw [hpush] at h ⊢
      have hlast : ClauseOk (clauses.length + 1) c := h _ c (clause?_push.mpr (.inr ⟨rfl, rfl⟩))
      have hsorted : Literal.sortByAtom c.literals = c.literals := by
        unfold Literal.sortByAtom
        apply List.mergeSort_of_pairwise
        refine hlast.ascending.imp ?_
        intro a b hlt
        rw [hlt]
        rfl
      have hrecord : (Trace.mk ⟨clauses⟩).record c.literals c.antecedents =
          .ok ⟨(Array.mk clauses).push c⟩ := by
        rw [record_eq_ok_iff, fault?_eq_none_iff, hsorted]
        exact ⟨⟨⟨hlast.proper, hlast.nodup⟩,
          fun a ha => ⟨hlast.antecedent_pos a ha, hlast.antecedent_lt a ha⟩⟩, rfl⟩
      exact .record (ih fun i d hd => h i d (clause?_push.mpr (.inl hd))) hrecord

theorem Trace.obtained_iff_wellFormed {t : Trace} : t.Obtained ↔ t.WellFormed :=
  ⟨Obtained.wellFormed, WellFormed.obtained⟩

/-! ### A sample -/

/-- The axioms `1 ∨ 2` and `¬2 ∨ 3`, and their resolvent `1 ∨ 3`. -/
def Trace.sample : Trace := ⟨#[⟨[1, 2], []⟩, ⟨[-2, 3], []⟩, ⟨[1, 3], [1, 2]⟩]⟩

theorem Trace.sample_obtained : sample.Obtained := obtained_iff_wellFormed.mpr (by decide)

theorem Trace.sample_justified : sample.Justified := by
  intro i c hc hresolvent v hants
  rcases i with _ | _ | _ | _ | i
  · cases hc
  · cases hc
    cases hresolvent
  · cases hc
    cases hresolvent
  · cases hc
    have hone : Satisfies v [1, 2] := hants 1 (by decide) _ rfl
    have htwo : Satisfies v [-2, 3] := hants 2 (by decide) _ rfl
    exact hone.resolve (l := 2) (by decide) htwo (by decide)
  · cases hc

end Refutation
