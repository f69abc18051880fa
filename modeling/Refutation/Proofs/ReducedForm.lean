import Refutation.Proofs.MachineReduce

/-! # The form of reduced traces

A reduction stores its clauses without the checks that are made when a clause is recorded.  All the
same the reduced trace has the form of a recorded one, so that it can be reduced in turn, and its
origins follow the order of the trace reduced (`ReducedTrace.Follows`).  And while the reduction
runs, on stores and with all its assertions checked, nothing that it relies on is missing
(`Trace.Obtained.form`). -/

namespace Refutation

/-- The clauses of a reduced trace follow those of the trace reduced: each has an origin, the
clauses that the origins name are clauses of the trace reduced, in order, and only the first clause
may stand for contradictory assumptions. -/
structure ReducedTrace.Follows (r : ReducedTrace) (t : Trace) : Prop where
  size_origins : r.origins.size = r.clauses.size
  ascending : (r.origins.toList.filterMap Origin.source?).Pairwise (· < ·)
  mem_indices : ∀ i ∈ r.origins.toList.filterMap Origin.source?, i ∈ t.indices
  contradiction_first : ∀ k, r.origin? k = some .contradiction → k = 1

namespace Reduction

variable {link : Bool} {options : Options} {t : Trace} {assumed known : List Literal}
  {c : Cascade} {k : Nat}

theorem sources_rebuild :
    (rebuild link t assumed c).origins.toList.filterMap Origin.source? =
      c.residuals.map (·.index) := by
  have hsources : (c.residuals.map Residual.origin).filterMap Origin.source? =
      c.residuals.map (·.index) := by
    rw [List.filterMap_map, ← List.filterMap_eq_map]
    exact List.filterMap_congr fun r _ => r.source?_origin
  show ((leading assumed).map _ ++ c.residuals.map Residual.origin).filterMap Origin.source? = _
  rw [List.filterMap_append, hsources, List.filterMap_map]
  simp [Origin.source?]

/-- **A rebuilt trace follows the trace reduced.** -/
theorem follows_rebuild (ht : t.WellFormed) (hsound : c.Sound (wholeClauses options t) known) :
    (rebuild link t assumed c).Follows t := by
  constructor
  case size_origins => simp [rebuild]
  case ascending =>
    rw [sources_rebuild]
    exact ascending_residuals ht hsound
  case mem_indices =>
    intro i hi
    rw [sources_rebuild] at hi
    obtain ⟨r, hr, rfl⟩ := List.mem_map.mp hi
    obtain ⟨d, hscope, -⟩ := exists_clause_of_mem_residuals hsound hr
    exact ((mem_scope_iff ht).mp hscope).1
  case contradiction_first =>
    intro k hk
    rcases origin?_rebuild.mp hk with ⟨-, hfirst, -⟩ | ⟨r, -, horigin⟩
    · exact hfirst
    · have hsource := r.source?_origin
      rw [horigin] at hsource
      cases hsource

end Reduction

/-- **Every trace of the library has the form of a recorded one**, whatever reductions it came from,
and each reduction of it follows it: the literals of a clause are proper and strictly ascending by
atom, so that they are distinct, and antecedents are earlier clauses.  A reduction, done on stores,
ends with its result: no store is read or written out of range, no literal without a complement is
negated, and the checks of the trace reduced and of every clause rebuilt hold. -/
theorem Trace.Obtained.form {t : Trace} (ht : t.Obtained) :
    (∀ i c, t.clause? i = some c → c.literals.Nodup ∧ (∀ l ∈ c.literals, l.Proper) ∧
      (c.literals.Pairwise fun a b => Literal.compareByAtom a b = .lt) ∧
      ∀ a ∈ c.antecedents, 1 ≤ a ∧ a < i) ∧
    ∀ (options : Reduction.Options) (assumptions : List Literal),
      (∀ r, t.reduce options assumptions = .ok r → r.toTrace.Obtained ∧ r.Follows t) ∧
      ∃ steps, ∀ limit, steps ≤ limit →
        t.reduceOnStores limit options assumptions =
          .ok (some (t.reduce options assumptions)) := by
  have hform := ht.wellFormed
  refine ⟨fun i c hc => ?_, fun options assumptions => ⟨fun r hr => ⟨.reduce ht hr, ?_⟩,
    Trace.reduceOnStores_eq hform options assumptions⟩⟩
  · have hok := hform i c hc
    exact ⟨hok.nodup, hok.proper, hok.ascending,
      fun a ha => ⟨hok.antecedent_pos a ha, hok.antecedent_lt a ha⟩⟩
  · obtain ⟨hproper, rfl⟩ := Reduction.reduce_eq_ok_iff.mp hr
    exact Reduction.follows_rebuild hform (Reduction.sound_cascade_eraseDups hform options hproper)

/-- The sample trace is reduced on stores, given that 1 is false, and the reduced trace has that
form again. -/
theorem Trace.Obtained.form_sample :
    sample.Obtained ∧
      (∃ steps, ∀ limit, steps ≤ limit → sample.reduceOnStores limit .standard [-1] =
        .ok (some (sample.reduce .standard [-1]))) ∧
      ∀ r, sample.reduce .standard [-1] = .ok r →
        ∀ i c, r.clause? i = some c → ∀ a ∈ c.antecedents, 1 ≤ a ∧ a < i := by
  obtain ⟨-, hreduce⟩ := sample_obtained.form
  obtain ⟨hfollows, hends⟩ := hreduce .standard [-1]
  refine ⟨sample_obtained, hends, fun r hr i c hc => ?_⟩
  obtain ⟨hclauses, -⟩ := (hfollows r hr).1.form
  exact (hclauses i c hc).2.2.2

end Refutation
