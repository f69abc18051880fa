import Refutation.Proofs.Confluence
import Refutation.Proofs.Models

/-! # What the conflict of a reduced trace refutes

The core of a trace is made of the axioms that its conflict was derived from.  In a reduced trace
an axiom of the original may have been shortened and linked to the unit clauses that shortened it;
it then is a resolvent, and missing from the core.  Together with such clauses the core of a
reduced trace cannot be satisfied (`conflict_unsatisfiable`), without them it can
(`not_core_unsatisfiable`).

The proof makes the propagated literals true (`overriding`).  This does nothing to clauses without
propagated atoms, and all other clauses of the reduced trace are unit clauses of propagated
literals.  A resolvent of the original is then satisfied by its antecedents, the ones that remain
and also the ones that were dropped, so that the conflict would be satisfied as well. -/

namespace Refutation

/-! ### Literals over the same atom -/

theorem Literal.eq_or_eq_neg_of_atom_eq {l k : Literal} (hk : k.Proper)
    (h : Literal.atom l = Literal.atom k) : l = k ∨ l = -k := by
  unfold Literal.atom at h
  rcases Int.natAbs_eq_natAbs_iff.mp h with heq | heq
  · exact .inl (Int32.toInt_inj.mp heq)
  · rw [← Literal.toInt_neg hk] at heq
    exact .inr (Int32.toInt_inj.mp heq)

namespace Reduction

/-! ### Making literals true -/

/-- A valuation changed to make some literals true, the first of those over an atom being
decisive. -/
def overriding (literals : List Literal) (v : Valuation) : Valuation := fun a =>
  match literals.find? fun l => Literal.atom l == a with
  | some l => Literal.polarity l
  | none => v a

section overriding

variable {literals : List Literal} {v : Valuation} {l : Literal}

theorem holds_overriding (hproper : ∀ l ∈ literals, l.Proper)
    (hconsistent : ∀ l ∈ literals, -l ∉ literals) (hl : l ∈ literals) :
    Literal.Holds (overriding literals v) l := by
  unfold Literal.Holds overriding
  cases hfind : literals.find? fun k => Literal.atom k == Literal.atom l with
  | none =>
      rw [List.find?_eq_none] at hfind
      exact (hfind l hl (by simp)).elim
  | some k =>
      have hk : k ∈ literals := List.mem_of_find?_eq_some hfind
      have hatom : Literal.atom k = Literal.atom l := by simpa using List.find?_some hfind
      rcases Literal.eq_or_eq_neg_of_atom_eq (hproper l hl) hatom with rfl | rfl
      · rfl
      · exact (hconsistent l hl hk).elim

theorem holds_overriding_iff (hl : l.Proper) (hmem : l ∉ literals) (hneg : -l ∉ literals) :
    Literal.Holds (overriding literals v) l ↔ Literal.Holds v l := by
  have hfind : (literals.find? fun k => Literal.atom k == Literal.atom l) = none := by
    rw [List.find?_eq_none]
    intro k hk hatom
    rw [beq_iff_eq] at hatom
    rcases Literal.eq_or_eq_neg_of_atom_eq hl hatom with rfl | rfl
    · exact hmem hk
    · exact hneg hk
  unfold Literal.Holds overriding
  rw [hfind]

variable {whole : List Residual} {facts : List Fact} {r r' : Residual}

theorem Grounded.holds_overriding (h : Grounded whole facts) (v : Valuation) :
    ∀ l ∈ literalsOf facts, Literal.Holds (overriding (literalsOf facts) v) l := by
  intro l hl
  apply Reduction.holds_overriding
  · exact h.proper
  · exact fun k hk => h.consistent hk
  · exact hl

/-- **Remnants stay satisfied** when what is known is made true: they contain no known atoms, or
are unit clauses of known literals. -/
theorem satisfies_overriding (hwhole : Intact whole) (h : Grounded whole facts) (hr : r ∈ whole)
    (hremnant : r.remnant? facts = some r') (hsat : Satisfies v r'.literals) :
    Satisfies (overriding (literalsOf facts) v) r'.literals := by
  by_cases hopen : r.isOpen facts = true
  · obtain ⟨l, hl, hholds⟩ := hsat
    have hmem := (Residual.mem_literals_of_remnant? hremnant).mp hl
    refine ⟨l, hl, ?_⟩
    have hunknown := Residual.isOpen_iff.mp hopen l hmem.1
    rwa [holds_overriding_iff (hwhole.proper r hr l hmem.1) hunknown hmem.2]
  · rw [Bool.not_eq_true] at hopen
    obtain ⟨fact, hfact, -, hunit⟩ := exists_reason_of_remnant? hwhole h hr hopen hremnant
    rw [hunit]
    exact ⟨fact.literal, by simp, h.holds_overriding v _ (literal_mem_literalsOf hfact)⟩

end overriding

/-! ### The ancestry of a conflict -/

section ancestry

variable {link : Bool} {options : Options} {t : Trace} {assumptions assumed : List Literal}
  {c : Cascade} {v : Valuation} {conflict k : Nat}

/-- **A resolvent is entailed by what is left of its antecedents** once what is known is true: an
antecedent that was dropped holds by a known literal. -/
theorem satisfies_residual (ht : t.WellFormed) (hjust : t.Justified)
    (hsound : c.Sound (wholeClauses options t) assumed)
    (hknown : ∀ l ∈ literalsOf c.settled, Literal.Holds v l) {r : Residual}
    (hr : r ∈ c.residuals) (hresolvent : t.isAxiom r.index = false)
    (hants : ∀ a ∈ r.antecedents link t (number? assumptions c),
      (rebuild link t assumptions c).SatisfiedAt v a) : Satisfies v r.literals := by
  obtain ⟨d, hscope, hclause, hremnant⟩ := exists_clause_of_mem_residuals hsound hr
  have hwhole : Residual.ofClause r.index d ∈ wholeClauses options t :=
    mem_wholeClauses.mpr ⟨_, hscope, d, hclause, rfl⟩
  rw [Trace.isAxiom, hclause, Option.any_some] at hresolvent
  apply satisfies_remnant hremnant ((intact_wholeClauses ht options).proper _ hwhole) hknown
  apply hjust r.index d hclause hresolvent
  intro a ha e he
  rw [← Trace.antecedents_eq hclause] at ha
  apply satisfies_of_remnant (r := Residual.ofClause a e) hknown
  intro s hs
  have hscope' := mem_scope_of_mem_antecedents ht hscope ha
  have hs' : s ∈ c.residuals := (Cascade.mem_residuals hsound).mpr
    ⟨_, mem_wholeClauses.mpr ⟨a, hscope', e, he, rfl⟩, hs⟩
  obtain ⟨k, hstands⟩ := exists_stands (firstNumber assumptions) hs'
  have hnumber : number? assumptions c a = some k :=
    (number?_eq_some_iff ht hsound).mpr ⟨s, hstands, Residual.index_of_remnant? hs⟩
  exact hants k (mem_antecedents_residual.mpr ⟨a, hnumber, .inl ha⟩) _ (clause?_of_stands hstands)

/-- **Once what is known has been made true, the ancestry of a clause is satisfied** if those parts
of it are that note contradictory assumptions or are left of axioms. -/
theorem satisfiedAt_of_reaches (ht : t.WellFormed) (hjust : t.Justified)
    (hsound : c.Sound (wholeClauses options t) assumed)
    (hleading : contradictory assumptions = true →
      ¬Reaches (rebuild link t assumptions c).antecedents conflict 1)
    (haxioms : ∀ k r, Reaches (rebuild link t assumptions c).antecedents conflict k →
      Stands c.residuals (firstNumber assumptions) k r → t.isAxiom r.index = true →
        Satisfies v r.literals)
    (k : Nat) (hk : Reaches (rebuild link t assumptions c).antecedents conflict k) :
    (rebuild link t assumptions c).SatisfiedAt (overriding (literalsOf c.settled) v) k := by
  have hwhole := intact_wholeClauses ht options
  have hgrounded := hsound.grounded_settled
  induction k using Nat.strongRecOn with
  | ind k ih =>
      intro d hd
      rcases clause?_rebuild.mp hd with ⟨hcontra, rfl, -⟩ | ⟨r', hstands, rfl⟩
      · exact (hleading hcontra hk).elim
      cases hax : t.isAxiom r'.index with
      | true =>
          obtain ⟨e, -, hclause, -⟩ := exists_clause_of_mem_residuals hsound hstands.mem
          obtain ⟨hmem, hremnant⟩ := whole_of_mem_residuals hsound hstands.mem hclause
          exact satisfies_overriding hwhole hgrounded hmem hremnant (haxioms k r' hk hstands hax)
      | false =>
          apply satisfies_residual ht hjust hsound (hgrounded.holds_overriding v) hstands.mem hax
          intro a ha
          have hstep : a ∈ (rebuild link t assumptions c).antecedents k := by
            rwa [Trace.antecedents_eq hd]
          exact ih a ((wellFormed_rebuild ht hsound).lt_of_mem_antecedents hstep) (.tail hk hstep)

/-- What is left of an axiom is an axiom, unless it was shortened and linked to the reasons. -/
theorem antecedents_residual_eq_nil {r : Residual} {number? : Nat → Option Nat}
    (hax : t.isAxiom r.index = true) (hlink : link = false ∨ r.isShortened = false) :
    r.antecedents link t number? = [] := by
  have hrecorded : t.antecedents r.index = [] := by
    unfold Trace.antecedents
    cases hd : t.clause? r.index with
    | none => rfl
    | some d =>
        rw [Trace.isAxiom, hd] at hax
        exact List.isEmpty_iff.mp hax
  rw [List.eq_nil_iff_forall_not_mem]
  intro a ha
  obtain ⟨i, -, hi | ⟨htrue, hreason, -⟩⟩ := mem_antecedents_residual.mp ha
  · rw [hrecorded] at hi
    exact List.not_mem_nil hi
  · rcases hlink with hlink | hlink
    · rw [htrue] at hlink
      cases hlink
    · have hnone : r.removedBy = [] := by simpa [Residual.isShortened] using hlink
      rw [hnone] at hreason
      exact List.not_mem_nil hreason

/-- **The core of a rebuilt trace together with the shortened axioms** in the ancestry of its
conflict is not satisfied by any valuation. -/
theorem not_satisfiedAt_core (ht : t.WellFormed) (hjust : t.Justified)
    (hsound : c.Sound (wholeClauses options t) assumed)
    (hconflict : (rebuild link t assumptions c).conflict? = some conflict)
    (hcore : ∀ k ∈ (rebuild link t assumptions c).core,
      (rebuild link t assumptions c).SatisfiedAt v k)
    (hshortened : link = true →
      ∀ k i, Reaches (rebuild link t assumptions c).antecedents conflict k →
        (rebuild link t assumptions c).origin? k = some (.simplified i) → t.isAxiom i = true →
          (rebuild link t assumptions c).SatisfiedAt v k) : False := by
  have hwf : (rebuild link t assumptions c).WellFormed := wellFormed_rebuild ht hsound
  have hmem : ∀ k d, Reaches (rebuild link t assumptions c).antecedents conflict k →
      (rebuild link t assumptions c).clause? k = some d → d.antecedents = [] →
        Satisfies v d.literals := by
    intro k d hk hd hnone
    refine hcore k ((Trace.mem_core_iff hwf hconflict).mpr ⟨hk, ?_⟩) d hd
    rw [Trace.isAxiom, hd, Option.any_some, Clause.isAxiom, hnone]
    rfl
  have hleading : contradictory assumptions = true →
      ¬Reaches (rebuild link t assumptions c).antecedents conflict 1 := by
    intro hcontra hreach
    exact not_satisfies_nil v
      (hmem 1 ⟨[], []⟩ hreach (clause?_rebuild.mpr (.inl ⟨hcontra, rfl, rfl⟩)) rfl)
  have haxioms : ∀ k r, Reaches (rebuild link t assumptions c).antecedents conflict k →
      Stands c.residuals (firstNumber assumptions) k r → t.isAxiom r.index = true →
        Satisfies v r.literals := by
    intro k r hk hstands hax
    by_cases hlinked : link = true ∧ r.isShortened = true
    · have horigin : (rebuild link t assumptions c).origin? k = some (.simplified r.index) := by
        rw [origin?_of_stands hstands, Residual.origin, if_pos hlinked.2]
      exact hshortened hlinked.1 k r.index hk horigin hax _ (clause?_of_stands hstands)
    · apply hmem k _ hk (clause?_of_stands hstands)
      apply antecedents_residual_eq_nil hax
      rw [← Bool.not_eq_true, ← Bool.not_eq_true]
      exact not_and_or.mp hlinked
  -- the conflict would be satisfied, being in its own ancestry
  obtain ⟨⟨d, hd, hempty⟩, -⟩ := Trace.conflict?_eq_some_iff.mp hconflict
  have hsat :=
    satisfiedAt_of_reaches ht hjust hsound hleading haxioms conflict (.refl conflict) d hd
  rw [hempty] at hsat
  exact not_satisfies_nil _ hsat

end ancestry

/-! ### The conflict of a reduction -/

variable {t : Trace} {assumptions : List Literal}

/-- **A conflict of a reduced trace is a refutation** of its core together with the axioms that were
shortened in its ancestry.  If shortened clauses are not linked to the reasons, it is a refutation
of the core. -/
theorem conflict_unsatisfiable (options : Options) (ht : t.Obtained) (hjust : t.Justified)
    (hproper : ∀ l ∈ assumptions, l.Proper) :
    ∃ r, t.reduce options assumptions = .ok r ∧ ∀ conflict, r.conflict? = some conflict →
      (∀ v, ¬((∀ k ∈ r.core, r.SatisfiedAt v k) ∧
        ∀ k i, Reaches r.antecedents conflict k → r.origin? k = some (.simplified i) →
          t.isAxiom i = true → r.SatisfiedAt v k)) ∧
      (options.linkUnitReasons.value = false → ∀ v, ¬∀ k ∈ r.core, r.SatisfiedAt v k) := by
  have hwf := ht.wellFormed
  have hsound := sound_cascade_eraseDups hwf options hproper
  refine ⟨_, reduce_eq_ok options t hproper, fun conflict hconflict => ⟨?_, ?_⟩⟩
  · rintro v ⟨hcore, hshortened⟩
    exact not_satisfiedAt_core hwf hjust hsound hconflict hcore fun _ => hshortened
  · intro hlink v hcore
    apply not_satisfiedAt_core hwf hjust hsound hconflict hcore
    intro htrue
    rw [hlink] at htrue
    cases htrue

/-- The axioms `1 ∨ 5`, `2 ∨ ¬5`, `¬2 ∨ 3` and `¬3`, with the resolvents `1 ∨ 2` of the first two
and `¬2` of the others. -/
def resolvedSample : Trace :=
  ⟨#[⟨[1, 5], []⟩, ⟨[2, -5], []⟩, ⟨[1, 2], [1, 2]⟩, ⟨[-2, 3], []⟩, ⟨[-3], []⟩, ⟨[-2], [4, 5]⟩]⟩

theorem resolvedSample_obtained : resolvedSample.Obtained :=
  Trace.obtained_iff_wellFormed.mpr (by decide)

theorem resolvedSample_justified : resolvedSample.Justified := by
  intro i c hc hresolvent v hants
  rcases i with _ | _ | _ | _ | _ | _ | _ | i
  · cases hc
  · cases hc
    cases hresolvent
  · cases hc
    cases hresolvent
  · cases hc
    have hone : Satisfies v [1, 5] := hants 1 (by decide) _ rfl
    have htwo : Satisfies v [2, -5] := hants 2 (by decide) _ rfl
    exact hone.resolve (l := 5) (by decide) htwo (by decide)
  · cases hc
    cases hresolvent
  · cases hc
    cases hresolvent
  · cases hc
    have hfour : Satisfies v [-2, 3] := hants 4 (by decide) _ rfl
    have hfive : Satisfies v [-3] := hants 5 (by decide) _ rfl
    exact hfour.resolve (l := 3) (by decide) hfive (by decide)
  · cases hc

/-- Assuming `¬1` leaves the axioms `5`, `2`, `3` and `¬3`, the second and third of them linked to
the first and second, and the empty clause of the last resolvent.  The core is made of `5` and `¬3`;
the shortened axioms are needed to refute it. -/
theorem conflict_unsatisfiable_resolvedSample :
    resolvedSample.Obtained ∧ resolvedSample.Justified ∧ (∀ l ∈ ([-1] : List Literal), l.Proper) ∧
      ∃ r, resolvedSample.reduce .standard [-1] = .ok r ∧ r.conflict? = some 5 ∧
        r.clause? 5 = some ⟨[], [3, 4, 2]⟩ ∧ r.origin? 5 = some (.simplified 6) ∧
        resolvedSample.isResolvent 6 = true ∧ r.core.toList = [1, 4] ∧
        ∀ v, ¬((∀ k ∈ r.core, r.SatisfiedAt v k) ∧
          ∀ k i, Reaches r.antecedents 5 k → r.origin? k = some (.simplified i) →
            resolvedSample.isAxiom i = true → r.SatisfiedAt v k) := by
  have hproper : ∀ l ∈ ([-1] : List Literal), l.Proper := assumptionFault?_eq_none_iff.mp rfl
  obtain ⟨r, hr, hrefuted⟩ := conflict_unsatisfiable .standard resolvedSample_obtained
    resolvedSample_justified hproper
  have hrun : (resolvedSample.reduce .standard [-1]).map
      (fun r => (r.conflict?, r.clause? 5, r.origin? 5, r.core.toList)) =
        .ok (some 5, some ⟨[], [3, 4, 2]⟩, some (.simplified 6), [1, 4]) := by
    decide +kernel
  rw [hr] at hrun
  obtain ⟨hconflict, hrest⟩ := Prod.mk.inj (Except.ok.inj hrun)
  obtain ⟨hclause, hrest⟩ := Prod.mk.inj hrest
  obtain ⟨horigin, hcore⟩ := Prod.mk.inj hrest
  exact ⟨resolvedSample_obtained, resolvedSample_justified, hproper, r, hr, hconflict, hclause,
    horigin, rfl, hcore, (hrefuted 5 hconflict).1⟩

/-- The axioms `1 ∨ 2` and `¬2`, which assuming `¬1` reduces to `2` and the empty clause. -/
def linkedSample : Trace := ⟨#[⟨[1, 2], []⟩, ⟨[-2], []⟩]⟩

theorem linkedSample_obtained : linkedSample.Obtained :=
  Trace.obtained_iff_wellFormed.mpr (by decide)

theorem linkedSample_justified : linkedSample.Justified :=
  Trace.justified_of_axioms (by decide)

/-- **The core of a reduced trace alone may be satisfiable together with the assumptions.**  The
empty clause left of `¬2` is linked to the unit clause `2`, which is the whole core. -/
theorem not_core_unsatisfiable :
    ¬∀ (options : Options) (t : Trace) (assumptions : List Literal), t.Obtained → t.Justified →
      (∀ l ∈ assumptions, l.Proper) → ∀ r, t.reduce options assumptions = .ok r →
        ∀ conflict, r.conflict? = some conflict →
          ∀ v, ¬((∀ l ∈ assumptions, Literal.Holds v l) ∧ ∀ k ∈ r.core, r.SatisfiedAt v k) := by
  intro hall
  have hrun : (linkedSample.reduce .standard [-1]).map
      (fun r => (r.conflict?, r.core.toList, r.clauses.toList)) =
        .ok (some 2, [1], [⟨[2], []⟩, ⟨[], [1]⟩]) := by
    decide +kernel
  have hproper : ∀ l ∈ ([-1] : List Literal), l.Proper := assumptionFault?_eq_none_iff.mp rfl
  obtain ⟨r, hr⟩ : ∃ r, linkedSample.reduce .standard [-1] = .ok r :=
    ⟨_, reduce_eq_ok .standard linkedSample hproper⟩
  rw [hr] at hrun
  obtain ⟨hconflict, hrest⟩ := Prod.mk.inj (Except.ok.inj hrun)
  obtain ⟨hcore, hclauses⟩ := Prod.mk.inj hrest
  apply hall .standard linkedSample [-1] linkedSample_obtained linkedSample_justified hproper r hr 2
    hconflict (· != 1)
  constructor
  · intro l hl
    rw [List.mem_singleton.mp hl]
    decide
  intro k hk d hd
  rw [← Std.TreeSet.mem_toList, hcore, List.mem_singleton] at hk
  subst hk
  have hone : r.clauses[0]? = some ⟨[2], []⟩ := by
    rw [← Array.getElem?_toList, hclauses]
    rfl
  rw [show r.clause? 1 = r.clauses[0]? from rfl, hone] at hd
  cases hd
  decide

end Reduction
end Refutation
