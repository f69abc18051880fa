import Refutation.Proofs.ClosedForm
import Refutation.Proofs.ConflictCore

/-! # Reductions keep justifications

In a justified trace every resolvent is entailed by its antecedents.  A reduction keeps this for
what is left of a resolvent, without a word about the assumptions, unless the clause has given a
literal (`reduce_justifies_resolvents`).

The valuation is changed to make the propagated literals true.  This does not change which of the
remaining clauses are satisfied, and it satisfies the antecedents that were dropped, so that the
whole resolvent is satisfied.  A clause that gave no literal contains no propagated literal, hence
it is satisfied by one of the literals that are left, over an atom that was not changed. -/

namespace Refutation.Reduction

/-! ### What is left of a resolvent -/

section residual

variable {link : Bool} {options : Options} {t : Trace} {assumptions assumed : List Literal}
  {c : Cascade} {v : Valuation} {k : Nat} {r : Residual}

/-- What is left of a clause is satisfied before what is known is made true if it is afterwards,
unless it is the unit clause of a known literal. -/
theorem satisfies_of_overriding {whole : List Residual} {facts : List Fact} {r' : Residual}
    (hwhole : Intact whole) (hr : r ∈ whole) (hremnant : r.remnant? facts = some r')
    (hreason : r.index ∉ reasonsOf facts)
    (hsat : Satisfies (overriding (literalsOf facts) v) r'.literals) :
    Satisfies v r'.literals := by
  have hopen := (Residual.remnant?_eq_some_iff.mp hremnant).1.resolve_left hreason
  obtain ⟨l, hl, hholds⟩ := hsat
  obtain ⟨hmem, hneg⟩ := (Residual.mem_literals_of_remnant? hremnant).mp hl
  refine ⟨l, hl, ?_⟩
  rwa [← holds_overriding_iff (hwhole.proper r hr l hmem) (hopen l hmem) hneg]

theorem satisfiedAt_overriding (ht : t.WellFormed)
    (hsound : c.Sound (wholeClauses options t) assumed)
    (hstands : Stands c.residuals (firstNumber assumptions) k r)
    (hsat : (rebuild link t assumptions c).SatisfiedAt v k) :
    (rebuild link t assumptions c).SatisfiedAt (overriding (literalsOf c.settled) v) k := by
  intro d hd
  have hclause : (rebuild link t assumptions c).clause? k =
      some ⟨r.literals, r.antecedents link t (number? assumptions c)⟩ := clause?_of_stands hstands
  rw [hclause] at hd
  cases hd
  obtain ⟨e, -, he, -⟩ := exists_clause_of_mem_residuals hsound hstands.mem
  obtain ⟨hwhole, hremnant⟩ := whole_of_mem_residuals hsound hstands.mem he
  exact satisfies_overriding (intact_wholeClauses ht options) hsound.grounded_settled hwhole
    hremnant (hsat _ hclause)

/-- **What is left of a resolvent is entailed by what is left of its antecedents**, unless it is the
unit clause of a propagated literal. -/
theorem satisfies_of_antecedents (ht : t.WellFormed) (hjust : t.Justified)
    (hsound : c.Sound (wholeClauses options t) assumed) (hr : r ∈ c.residuals)
    (hresolvent : t.isAxiom r.index = false) (hreason : r.index ∉ reasonsOf c.settled)
    (hants : ∀ a ∈ r.antecedents link t (number? assumptions c),
      (rebuild link t assumptions c).SatisfiedAt v a) : Satisfies v r.literals := by
  have hsat : Satisfies (overriding (literalsOf c.settled) v) r.literals := by
    apply satisfies_residual ht hjust hsound (hsound.grounded_settled.holds_overriding v) hr
      hresolvent
    intro a ha
    obtain ⟨i, hnumber, -⟩ := mem_antecedents_residual.mp ha
    obtain ⟨s, hstands, -⟩ := (number?_eq_some_iff ht hsound).mp hnumber
    exact satisfiedAt_overriding ht hsound hstands (hants a ha)
  obtain ⟨e, -, he, -⟩ := exists_clause_of_mem_residuals hsound hr
  obtain ⟨hwhole, hremnant⟩ := whole_of_mem_residuals hsound hr he
  exact satisfies_of_overriding (intact_wholeClauses ht options) hwhole hremnant hreason hsat

theorem exists_derived_of_reason (ht : t.WellFormed)
    (hsound : c.Sound (wholeClauses options t) assumed)
    (hstands : Stands c.residuals (firstNumber assumptions) k r)
    (hreason : r.index ∈ reasonsOf c.settled) :
    ∃ l, (l, some k) ∈ (rebuild link t assumptions c).derived := by
  obtain ⟨fact, hfact, hgave⟩ := mem_reasonsOf.mp hreason
  have hnumber : number? assumptions c r.index = some k :=
    (number?_eq_some_iff ht hsound).mpr ⟨r, hstands, rfl⟩
  refine ⟨fact.literal, mem_derived_rebuild.mpr ⟨fact, ?_, r.index, hgave, by rw [hnumber]⟩⟩
  exact List.mem_append_left _ hfact

end residual

/-! ### Reductions -/

variable {t : Trace} {assumptions : List Literal}

/-- **Reductions keep justifications.**  If every resolvent of a trace is entailed by its
antecedents, then so is every clause of the reduced trace that is left of a resolvent and is not
recorded as the reason of a derived literal; the assumptions need not hold. -/
theorem reduce_justifies_resolvents (options : Options) (ht : t.Obtained) (hjust : t.Justified)
    (hproper : ∀ l ∈ assumptions, l.Proper) :
    ∃ r, t.reduce options assumptions = .ok r ∧
      ∀ k d i, r.clause? k = some d →
        (r.origin? k = some (.kept i) ∨ r.origin? k = some (.simplified i)) →
          t.isResolvent i = true → (∀ l, (l, some k) ∉ r.derived) →
            ∀ v, (∀ a ∈ d.antecedents, r.SatisfiedAt v a) → Satisfies v d.literals := by
  have hwf := ht.wellFormed
  have hsound := sound_cascade_eraseDups hwf options hproper
  refine ⟨_, reduce_eq_ok options t hproper, ?_⟩
  intro k d i hd horigin hresolvent hunpaired v hants
  obtain ⟨r, hstands, rfl⟩ := exists_stands_of_origin horigin
  rw [clause?_of_stands hstands] at hd
  cases hd
  have hresolvent' : t.isAxiom r.index = false := by
    unfold Trace.isResolvent Trace.isAxiom at *
    cases hc : t.clause? r.index with
    | none => rfl
    | some e => simpa [hc] using hresolvent
  apply satisfies_of_antecedents hwf hjust hsound hstands.mem hresolvent' ?_ hants
  intro hreason
  obtain ⟨l, hl⟩ := exists_derived_of_reason hwf hsound hstands hreason
  exact hunpaired l hl

/-- The axioms `1 ∨ 5` and `1 ∨ 3 ∨ ¬5`, and their resolvent `1 ∨ 3`. -/
def droppedSample : Trace := ⟨#[⟨[1, 5], []⟩, ⟨[1, 3, -5], []⟩, ⟨[1, 3], [1, 2]⟩]⟩

theorem droppedSample_obtained : droppedSample.Obtained :=
  Trace.obtained_iff_wellFormed.mpr (by decide)

theorem droppedSample_justified : droppedSample.Justified := by
  intro i c hc hresolvent v hants
  rcases i with _ | _ | _ | _ | i
  · cases hc
  · cases hc
    cases hresolvent
  · cases hc
    cases hresolvent
  · cases hc
    have hone : Satisfies v [1, 5] := hants 1 (by decide) _ rfl
    have htwo : Satisfies v [1, 3, -5] := hants 2 (by decide) _ rfl
    exact hone.resolve (l := 5) (by decide) htwo (by decide)
  · cases hc

/-- A case of `reduce_justifies_resolvents` in which an antecedent is dropped: assuming `5` leaves
`1 ∨ 3` of the second axiom, which alone entails the resolvent, also where `5` is false. -/
theorem reduce_justifies_resolvents_droppedSample :
    droppedSample.Obtained ∧ droppedSample.Justified ∧ (∀ l ∈ ([5] : List Literal), l.Proper) ∧
      ∃ r, droppedSample.reduce .standard [5] = .ok r ∧
        r.clause? 2 = some ⟨[1, 3], [1]⟩ ∧ r.origin? 2 = some (.kept 3) ∧
        droppedSample.isResolvent 3 = true ∧ (∀ l, (l, some 2) ∉ r.derived) ∧
        ∀ v, r.SatisfiedAt v 1 → Satisfies v [1, 3] := by
  have hproper : ∀ l ∈ ([5] : List Literal), l.Proper := assumptionFault?_eq_none_iff.mp rfl
  obtain ⟨r, hr, hjustified⟩ := reduce_justifies_resolvents .standard droppedSample_obtained
    droppedSample_justified hproper
  have hrun : (droppedSample.reduce .standard [5]).map
      (fun r => (r.clause? 2, r.origin? 2, r.derived)) =
        .ok (some ⟨[1, 3], [1]⟩, some (.kept 3), []) := by
    decide +kernel
  rw [hr] at hrun
  obtain ⟨hclause, hrest⟩ := Prod.mk.inj (Except.ok.inj hrun)
  obtain ⟨horigin, hderived⟩ := Prod.mk.inj hrest
  have hunpaired : ∀ l, (l, some 2) ∉ r.derived := by
    intro l
    rw [hderived]
    exact List.not_mem_nil
  refine ⟨droppedSample_obtained, droppedSample_justified, hproper, r, hr, hclause, horigin, rfl,
    hunpaired, fun v hsat => ?_⟩
  apply hjustified 2 _ 3 hclause (.inl horigin) rfl hunpaired v
  intro a ha
  rw [List.mem_singleton.mp ha]
  exact hsat

end Refutation.Reduction
