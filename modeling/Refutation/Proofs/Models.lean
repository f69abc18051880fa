import Refutation.Proofs.Rebuild

/-! # Reduction preserves models

Under a valuation that makes the assumptions true, a reduced trace says as much as the clauses it
was reduced from: the valuation satisfies all of the one exactly if it satisfies all of the other
(`reduce_preserves_models`).

From whole clauses to remnants, each known literal holds since its unit clause does, and a clause
loses only literals that do not hold.  For the way back, the literal that a clause was dropped for
has to hold: it was assumed, or its unit clause is a remnant still. -/

namespace Refutation.Reduction

variable {whole : List Residual} {facts : List Fact} {r r' : Residual} {l : Literal}
  {v : Valuation}

/-! ### From whole clauses to remnants -/

theorem Grounded.holds (h : Grounded whole facts)
    (hassumed : ∀ fact ∈ facts, fact.reason = none → Literal.Holds v fact.literal)
    (hwhole : ∀ r ∈ whole, Satisfies v r.literals) :
    ∀ l ∈ literalsOf facts, Literal.Holds v l := by
  induction h with
  | nil => simp
  | @snoc facts fact hfacts _ _ _ hreason ih =>
      have hbefore := ih fun other hother => hassumed other (List.mem_append_left _ hother)
      refine forall_literalsOf_concat.mpr ⟨hbefore, ?_⟩
      cases hr : fact.reason with
      | none => exact hassumed fact (by simp) hr
      | some i =>
          -- the clause of the fact is satisfied, and by no literal that was denied before
          obtain ⟨r, hrmem, -, hforces⟩ := hreason i hr
          obtain ⟨k, hk, hholds⟩ := hwhole r hrmem
          by_cases hku : k = fact.literal
          · exact hku ▸ hholds
          · have hdenied := hforces.others k hk hku
            have hneg := hbefore _ hdenied
            have hproper : k.Proper := by
              have hp := neg_proper (hfacts.proper _ hdenied)
              rwa [Int32.neg_neg] at hp
            exact ((Literal.holds_neg hproper v).mp hneg hholds).elim

theorem satisfies_remnant (h : r.remnant? facts = some r')
    (hproper : ∀ l ∈ r.literals, l.Proper)
    (hknown : ∀ l ∈ literalsOf facts, Literal.Holds v l) (hsat : Satisfies v r.literals) :
    Satisfies v r'.literals := by
  obtain ⟨l, hl, hholds⟩ := hsat
  refine ⟨l, (Residual.mem_literals_of_remnant? h).mpr ⟨hl, fun hneg => ?_⟩, hholds⟩
  exact (Literal.holds_neg (hproper l hl) v).mp (hknown _ hneg) hholds

/-! ### From remnants to whole clauses -/

/-- What is known holds if the assumptions hold and the remnants are satisfied: the unit clause of
a fact is among the remnants. -/
theorem Grounded.holds_of_remnants (hwhole : Intact whole) (h : Grounded whole facts)
    (hassumed : ∀ fact ∈ facts, fact.reason = none → Literal.Holds v fact.literal)
    (hremnants : ∀ r ∈ whole, ∀ r', r.remnant? facts = some r' → Satisfies v r'.literals) :
    ∀ l ∈ literalsOf facts, Literal.Holds v l := by
  intro l hl
  obtain ⟨fact, hfact, rfl⟩ := mem_literalsOf.mp hl
  cases hreason : fact.reason with
  | none => exact hassumed fact hfact hreason
  | some i =>
      -- the clause of the fact is left with the literal alone
      obtain ⟨r, hr, rfl, hforces⟩ := h.forced hfact hreason
      obtain ⟨r', hr', hunit, -⟩ := Residual.exists_remnant_of_forces hforces (hwhole.nodup r hr)
        (h.consistent hl) (.inl (mem_reasonsOf.mpr ⟨fact, hfact, hreason⟩))
      obtain ⟨k, hk, hholds⟩ := hremnants r hr r' hr'
      rw [hunit, List.mem_singleton] at hk
      exact hk ▸ hholds

theorem satisfies_of_remnant (hknown : ∀ l ∈ literalsOf facts, Literal.Holds v l)
    (hremnant : ∀ r', r.remnant? facts = some r' → Satisfies v r'.literals) :
    Satisfies v r.literals := by
  cases h : r.remnant? facts with
  | none =>
      obtain ⟨-, l, hl, hmem⟩ := Residual.remnant?_eq_none_iff.mp h
      exact ⟨l, hl, hknown l hmem⟩
  | some r' =>
      obtain ⟨l, hl, hholds⟩ := hremnant r' h
      exact ⟨l, ((Residual.mem_literals_of_remnant? h).mp hl).1, hholds⟩

/-! ### Whole traces -/

section trace

variable {options : Options} {t : Trace} {assumptions assumed : List Literal} {c : Cascade}

/-- **A cascade preserves models**: under its assumptions, what is left of the clauses says as much
as the clauses. -/
theorem satisfies_residuals_iff (hwhole : Intact whole) (h : c.Sound whole assumed)
    (hassumed : ∀ l ∈ assumed, Literal.Holds v l) :
    (∀ r ∈ whole, Satisfies v r.literals) ↔ ∀ r ∈ c.residuals, Satisfies v r.literals := by
  have hgrounded := h.grounded_settled
  have hgiven : ∀ fact ∈ c.settled, fact.reason = none → Literal.Holds v fact.literal :=
    fun fact hfact hnone => hassumed _ (h.mem_assumed (List.mem_append_left _ hfact) hnone)
  constructor
  · intro hsat r' hr'
    obtain ⟨r, hr, hremnant⟩ := (Cascade.mem_residuals h).mp hr'
    exact satisfies_remnant hremnant (hwhole.proper r hr) (hgrounded.holds hgiven hsat) (hsat r hr)
  · intro hsat r hr
    have hremnants : ∀ r ∈ whole, ∀ r', r.remnant? c.settled = some r' →
        Satisfies v r'.literals :=
      fun r hr r' hr' => hsat r' ((Cascade.mem_residuals h).mpr ⟨r, hr, hr'⟩)
    have hknown := hgrounded.holds_of_remnants hwhole hgiven hremnants
    exact satisfies_of_remnant hknown (hremnants r hr)

theorem satisfies_wholeClauses_iff (ht : t.WellFormed) :
    (∀ r ∈ wholeClauses options t, Satisfies v r.literals) ↔
      ∀ i, InScope options t i → t.SatisfiedAt v i := by
  constructor
  · intro hsat i hi d hd
    exact hsat _ (mem_wholeClauses.mpr ⟨i, (mem_scope_iff ht).mpr hi, d, hd, rfl⟩)
  · intro hsat r hr
    obtain ⟨i, hi, d, hd, rfl⟩ := mem_wholeClauses.mp hr
    exact hsat i ((mem_scope_iff ht).mp hi) d hd

theorem satisfies_rebuild_iff {link : Bool} (hcontra : contradictory assumptions = false) :
    (∀ k, (rebuild link t assumptions c).SatisfiedAt v k) ↔
      ∀ r ∈ c.residuals, Satisfies v r.literals := by
  constructor
  · intro hsat r hr
    obtain ⟨k, hstands⟩ := exists_stands (firstNumber assumptions) hr
    exact hsat k _ (clause?_of_stands hstands)
  · intro hsat k d hd
    rcases clause?_rebuild.mp hd with ⟨htrue, -, -⟩ | ⟨r, hstands, rfl⟩
    · rw [hcontra] at htrue
      cases htrue
    · exact hsat r hstands.mem

theorem not_contradictory_of_holds (hproper : ∀ l ∈ assumptions, l.Proper)
    (hholds : ∀ l ∈ assumptions, Literal.Holds v l) : contradictory assumptions = false := by
  rw [← Bool.not_eq_true, contradictory_iff]
  rintro ⟨l, hl, hneg⟩
  exact (Literal.holds_neg (hproper l hl) v).mp (hholds _ hneg) (hholds l hl)

/-- **Reduction preserves models.**  Under a valuation that makes the assumptions true, the clauses
in scope are satisfied exactly if the reduced trace is; and if the trace is justified, its axioms
and the assumptions entail every clause of the reduced trace. -/
theorem reduce_preserves_models (options : Options) (ht : t.Obtained)
    (hproper : ∀ l ∈ assumptions, l.Proper) :
    ∃ r, t.reduce options assumptions = .ok r ∧
      (∀ v, (∀ l ∈ assumptions, Literal.Holds v l) →
        ((∀ i, InScope options t i → t.SatisfiedAt v i) ↔ ∀ k, r.SatisfiedAt v k)) ∧
      (t.Justified → ∀ v, (∀ l ∈ assumptions, Literal.Holds v l) →
        (∀ i d, t.clause? i = some d → d.isAxiom = true → Satisfies v d.literals) →
        ∀ k, r.SatisfiedAt v k) := by
  have hwf := ht.wellFormed
  have hiff : ∀ v, (∀ l ∈ assumptions, Literal.Holds v l) →
      ((∀ i, InScope options t i → t.SatisfiedAt v i) ↔
        ∀ k, (rebuild options.linkUnitReasons.value t assumptions.eraseDups
          (cascade options t assumptions.eraseDups)).SatisfiedAt v k) := by
    intro v hholds
    have hsound := sound_cascade_eraseDups hwf options hproper
    have hcontra : contradictory assumptions.eraseDups = false := by
      rw [contradictory_eraseDups]
      exact not_contradictory_of_holds hproper hholds
    have haccepted : ∀ l ∈ accepted assumptions.eraseDups, Literal.Holds v l :=
      fun l hl => hholds l (List.mem_eraseDups.mp (mem_of_mem_accepted hl))
    rw [satisfies_rebuild_iff hcontra, ← satisfies_wholeClauses_iff hwf]
    exact satisfies_residuals_iff (intact_wholeClauses hwf options) hsound haccepted
  refine ⟨_, reduce_eq_ok options t hproper, hiff, ?_⟩
  intro hjust v hholds haxioms
  rw [← hiff v hholds]
  intro i _
  exact Trace.satisfied_of_axioms hwf hjust haxioms i

/-- A case of `reduce_preserves_models` in which one axiom is shortened: atom `1` is false. -/
theorem reduce_preserves_models_sample :
    Trace.sample.Obtained ∧ (∀ l ∈ ([-1] : List Literal), l.Proper) ∧ Trace.sample.Justified ∧
      (∀ l ∈ ([-1] : List Literal), Literal.Holds (· != 1) l) ∧
      ∃ r, Trace.sample.reduce .standard [-1] = .ok r ∧
        ((∀ i, InScope .standard Trace.sample i → Trace.sample.SatisfiedAt (· != 1) i) ↔
          ∀ k, r.SatisfiedAt (· != 1) k) ∧
        ∀ k, r.SatisfiedAt (· != 1) k := by
  have hproper : ∀ l ∈ ([-1] : List Literal), l.Proper := assumptionFault?_eq_none_iff.mp rfl
  have hholds : ∀ l ∈ ([-1] : List Literal), Literal.Holds (· != 1) l := by
    intro l hl
    rw [List.mem_singleton.mp hl]
    decide
  have haxioms : ∀ i d, Trace.sample.clause? i = some d → d.isAxiom = true →
      Satisfies (· != 1) d.literals := by
    intro i d hd hax
    rcases i with _ | _ | _ | _ | i
    · cases hd
    · cases hd
      show Satisfies (· != 1) [1, 2]
      decide
    · cases hd
      show Satisfies (· != 1) [-2, 3]
      decide
    · cases hd
      cases hax
    · cases hd
  obtain ⟨r, hr, hiff, hentailed⟩ :=
    reduce_preserves_models .standard Trace.sample_obtained hproper
  exact ⟨Trace.sample_obtained, hproper, Trace.sample_justified, hholds, r, hr, hiff _ hholds,
    hentailed Trace.sample_justified _ hholds haxioms⟩

end trace

end Refutation.Reduction
