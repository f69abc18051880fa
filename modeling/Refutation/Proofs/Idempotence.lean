import Refutation.Proofs.ConflictCore
import Refutation.Proofs.CoreReduction
import Refutation.Proofs.Stages

/-! # Reducing again

A reduction that has propagated all it knows leaves no clause with an assumption in it, nor with the
complement of one (`Cascade.Sound.not_mem_residual`).  Reduced again under some of the assumptions,
in any order and with any repeats, such a trace gives its cascade nothing to do: no clause is
simplified and nothing is derived (`Cascade.Idle`), so that the clauses are copied as they are
(`reduce_eq_copy`).  The antecedents of a reduced clause have no repeats that could be lost in the
copy, whence the second reduction gives the trace back (`reduce_again`). -/

namespace Refutation.Reduction

/-! ### A cascade with nothing to do -/

/-- No clause contains one of the literals, or the complement of one. -/
def Untouched (clauses : List (List Literal)) (literals : List Literal) : Prop :=
  ∀ clause ∈ clauses, ∀ l ∈ clause, l ∉ literals ∧ -l ∉ literals

theorem Untouched.mono {clauses : List (List Literal)} {A B : List Literal}
    (h : Untouched clauses A) (hsub : ∀ l ∈ B, l ∈ A) : Untouched clauses B := by
  intro clause hclause l hl
  obtain ⟨hmem, hneg⟩ := h clause hclause l hl
  exact ⟨fun hB => hmem (hsub l hB), fun hB => hneg (hsub _ hB)⟩

/-- The state of a cascade in which no clause has been simplified and nothing has been derived. -/
structure Cascade.Idle (whole : List Residual) (assumed : List Literal) (c : Cascade) : Prop where
  residuals_eq : c.residuals = whole
  known_eq : c.known = assumed.map (⟨·, none⟩)

section idle

variable {whole : List Residual} {assumed : List Literal} {c c' : Cascade} {fact : Fact}
  {r : Residual}

theorem Untouched.after? (h : Untouched (whole.map (·.literals)) assumed)
    (hfact : fact.literal ∈ assumed) (hr : r ∈ whole) :
    r.after? fact = some r ∧ r.unitAfter? fact = none := by
  have hmem : fact.literal ∉ r.literals := fun hl =>
    (h r.literals (List.mem_map_of_mem hr) _ hl).1 hfact
  have hneg : -fact.literal ∉ r.literals := by
    intro hl
    apply (h r.literals (List.mem_map_of_mem hr) _ hl).2
    rwa [Int32.neg_neg]
  refine ⟨Residual.after?_of_not_mem hmem hneg, ?_⟩
  rw [Option.eq_none_iff_forall_not_mem]
  intro given hgiven
  obtain ⟨-, -, hlost, -⟩ := Cascade.unitAfter?_eq_some_iff.mp hgiven
  exact hneg hlost

/-- **A step finds nothing to do** if no clause contains a known literal or the complement of
one. -/
theorem Cascade.Idle.step (h : c.Idle whole assumed)
    (huntouched : Untouched (whole.map (·.literals)) assumed) (hstep : c.step? = some c') :
    c'.Idle whole assumed := by
  obtain ⟨fact, rest, hpending, rfl⟩ := exists_of_step hstep
  have hfact : fact.literal ∈ assumed := by
    have hknown : fact ∈ c.known := by
      rw [known, hpending]
      exact List.mem_append_right _ List.mem_cons_self
    rw [h.known_eq, List.mem_map] at hknown
    obtain ⟨l, hl, rfl⟩ := hknown
    exact hl
  have hgiven : c.residuals.filterMap (·.unitAfter? fact) = [] := by
    rw [List.filterMap_eq_nil_iff, h.residuals_eq]
    exact fun r hr => (huntouched.after? hfact hr).2
  have hleft : c.residuals.filterMap (·.after? fact) = whole := by
    rw [h.residuals_eq, List.filterMap_congr fun r hr => (huntouched.after? hfact hr).1,
      List.filterMap_some]
  rw [hgiven]
  exact ⟨hleft, (known_settle hpending).trans h.known_eq⟩

theorem Cascade.Idle.run (h : c.Idle whole assumed)
    (huntouched : Untouched (whole.map (·.literals)) assumed) (stop : Bool) :
    (c.run stop).Idle whole assumed :=
  run_induction stop (fun _ _ hidle _ hstep => hidle.step huntouched hstep) c h

end idle

section copy

variable {options : Options} {t : Trace} {assumptions : List Literal}

theorem idle_cascade (huntouched : Untouched (scopeLiterals options t) (accepted assumptions)) :
    (cascade options t assumptions).Idle (wholeClauses options t) (accepted assumptions) := by
  rw [← map_literals_wholeClauses] at huntouched
  exact cascade_induction ⟨rfl, rfl⟩ fun stop _ _ hidle => hidle.run huntouched stop

/-- **A reduction under literals that no clause contains copies the clauses in scope.** -/
theorem reduce_eq_copy (hproper : ∀ l ∈ assumptions, l.Proper)
    (hfree : contradictory assumptions = false)
    (huntouched : Untouched (scopeLiterals options t) assumptions) :
    t.reduce options assumptions =
      .ok { copy options t with assumptions := assumptions.eraseDups } := by
  have hidle : (cascade options t assumptions.eraseDups).Idle (wholeClauses options t)
      (accepted assumptions.eraseDups) :=
    idle_cascade (huntouched.mono fun l hl => List.mem_eraseDups.mp (mem_of_mem_accepted hl))
  have hleading : leading assumptions.eraseDups = [] := by
    rw [leading, contradictory_eraseDups, hfree]
    rfl
  have hderived : ∀ number : Nat → Option Nat,
      ((accepted assumptions.eraseDups).map fun l => Fact.mk l none).filterMap
        (fun fact => fact.reason.map fun reason => (fact.literal, number reason)) = [] := by
    intro number
    rw [List.filterMap_map, List.filterMap_eq_nil_iff]
    exact fun _ _ => rfl
  rw [reduce_eq_ok options t hproper, copy]
  simp only [rebuild, hleading, hidle.residuals_eq, hidle.known_eq, hderived]
  rfl

end copy

/-! ### What a finished reduction leaves -/

section finished

variable {options : Options} {t : Trace} {assumptions assumed : List Literal} {c : Cascade}
  {r : Residual} {l : Literal}

/-- **No clause is left with an assumption in it, or with the complement of one**, once everything
known has been propagated.  A clause that gave a literal is left with that literal alone, which was
not assumed. -/
theorem Cascade.Sound.not_mem_residual (ht : t.WellFormed)
    (hsound : c.Sound (wholeClauses options t) assumed) (hsettled : c.settled = c.known)
    (hr : r ∈ c.residuals) (hl : l ∈ r.literals) : l ∉ assumed ∧ -l ∉ assumed := by
  have hassumed : ∀ k ∈ assumed, ⟨k, none⟩ ∈ c.settled := by
    intro k hk
    obtain ⟨derived, hknown, -⟩ := hsound.known_eq
    rw [hsettled, hknown]
    exact List.mem_append_left _ (List.mem_map_of_mem hk)
  obtain ⟨d, -, hd, -⟩ := exists_clause_of_mem_residuals hsound hr
  obtain ⟨hwhole, hremnant⟩ := whole_of_mem_residuals hsound hr hd
  obtain ⟨hmem, hneg⟩ := (Residual.mem_literals_of_remnant? hremnant).mp hl
  refine ⟨fun hA => ?_, fun hA => hneg (literal_mem_literalsOf (hassumed _ hA))⟩
  have hsettledl : l ∈ literalsOf c.settled := literal_mem_literalsOf (hassumed l hA)
  cases (Residual.remnant?_eq_some_iff.mp hremnant).1 with
  | inr hopen => exact hopen l hmem hsettledl
  | inl hreason =>
      obtain ⟨given, hgiven, hgave⟩ := mem_reasonsOf.mp hreason
      have hforces := hsound.grounded_settled.forces_of_reason (intact_wholeClauses ht options)
        hgiven hwhole hgave
      by_cases heq : l = given.literal
      · have hsame := hsound.grounded_settled.eq_of_literal_eq (hassumed l hA) hgiven heq
        rw [← hsame] at hgave
        cases hgave
      · exact hneg (hforces.others l hmem heq)

variable (ht : t.WellFormed) (hfree : contradictory assumptions = false)
include ht hfree

/-- A reduction runs its cascade to the end if it does not stop at conflicts or finds none. -/
theorem settled_eq_known_of_end {link : Bool} (hend : options.stopOnConflict.value = false ∨
      (rebuild link t assumptions.eraseDups
        (cascade options t assumptions.eraseDups)).foundConflict = false) :
    (cascade options t assumptions.eraseDups).settled =
      (cascade options t assumptions.eraseDups).known := by
  cases hend with
  | inl hstop => exact settled_eq_known hstop
  | inr hpeace =>
      rw [← Bool.not_eq_true, foundConflict_rebuild, not_or, Bool.not_eq_true,
        Bool.not_eq_true] at hpeace
      exact (finished_cascade ht hfree hpeace.2).settled_eq

theorem untouched_rebuild {link : Bool} (hproper : ∀ l ∈ assumptions, l.Proper)
    (hsettled : (cascade options t assumptions.eraseDups).settled =
      (cascade options t assumptions.eraseDups).known) :
    Untouched ((rebuild link t assumptions.eraseDups
      (cascade options t assumptions.eraseDups)).clauses.toList.map (·.literals)) assumptions := by
  have hfree' : contradictory assumptions.eraseDups = false := by
    rwa [contradictory_eraseDups]
  have hsound := sound_cascade_eraseDups ht options hproper
  rw [accepted_eq_self hfree'] at hsound
  rw [map_literals_rebuild, leading, hfree', if_neg Bool.false_ne_true, List.map_nil,
    List.nil_append]
  intro clause hclause l hl
  obtain ⟨r, hr, rfl⟩ := List.mem_map.mp hclause
  have hout := hsound.not_mem_residual ht hsettled hr hl
  simpa only [List.mem_eraseDups] using hout

end finished

theorem nodup_antecedents_rebuild (link : Bool) (t : Trace) (assumptions : List Literal)
    (c : Cascade) (k : Nat) : ((rebuild link t assumptions c).antecedents k).Nodup := by
  rcases antecedents_rebuild_eq_nil_or t assumptions c k with hnil | ⟨r, -, hlisted⟩
  · rw [hnil]
    exact List.nodup_nil
  · rw [hlisted]
    exact nodup_eraseDups _

/-! ### Reducing a reduced trace again -/

variable {t : Trace} {A B : List Literal}

/-- **Reduction is idempotent.**  Let a trace be reduced under assumptions of which none is the
complement of another, and let the reduction not stop at conflicts, or find none.  Reduced again
under any of the assumptions, the reduced trace as a whole stays as it is: the same clauses with the
same antecedents, all of them kept, and nothing derived. -/
theorem reduce_again (options again : Options) (ht : t.Obtained) (hA : ∀ l ∈ A, l.Proper)
    (hfree : ¬∃ l ∈ A, -l ∈ A) (hcore : again.coreOnly.value = false) (hB : ∀ l ∈ B, l ∈ A) :
    ∃ r, t.reduce options A = .ok r ∧
      (options.stopOnConflict.value = false ∨ r.foundConflict = false →
        ∃ r', r.toTrace.reduce again B = .ok r' ∧ r'.toTrace = r.toTrace ∧
          r'.origins.toList = r.indices.map .kept ∧ r'.derived = [] ∧
          r'.assumptions = B.eraseDups) := by
  have hwf := ht.wellFormed
  have hreduce := reduce_eq_ok options t hA
  have hwf' := (Trace.Obtained.reduce ht hreduce).wellFormed
  have hfreeA : contradictory A = false := by
    rwa [← Bool.not_eq_true, contradictory_iff]
  have hfreeB : contradictory B = false := by
    rw [← Bool.not_eq_true, contradictory_iff]
    rintro ⟨l, hl, hneg⟩
    exact hfree ⟨l, hB l hl, hB _ hneg⟩
  refine ⟨_, hreduce, fun hend => ?_⟩
  have hsettled := settled_eq_known_of_end hwf hfreeA hend
  have huntouched : Untouched (scopeLiterals again (rebuild options.linkUnitReasons.value t
      A.eraseDups (cascade options t A.eraseDups)).toTrace) B := by
    rw [scopeLiterals_of_whole hcore]
    exact (untouched_rebuild hwf hfreeA hA hsettled).mono hB
  refine ⟨_, reduce_eq_copy (fun l hl => hA l (hB l hl)) hfreeB huntouched, ?_, ?_, rfl, rfl⟩
  · exact (toTrace_copy_eq_iff hwf' hcore).mpr fun k => nodup_antecedents_rebuild _ t _ _ k
  · rw [← scope_of_whole hcore]
    exact origins_copy hwf'

/-- A case of `reduce_again` in which the first reduction goes on past a conflict: from `¬1` it
derives `2`, which empties the clause `¬2`, and links the empty clause to the unit clause. -/
theorem reduce_again_linkedSample :
    linkedSample.Obtained ∧ (∀ l ∈ ([-1] : List Literal), l.Proper) ∧
      (¬∃ l ∈ ([-1] : List Literal), -l ∈ ([-1] : List Literal)) ∧
      Options.standard.coreOnly.value = false ∧
      (∀ l ∈ ([-1, -1] : List Literal), l ∈ ([-1] : List Literal)) ∧
      ∃ r r', linkedSample.reduce .exhaustive [-1] = .ok r ∧
        r.clauses = #[⟨[2], []⟩, ⟨[], [1]⟩] ∧ r.derived = [(2, some 1)] ∧
        r.toTrace.reduce .standard [-1, -1] = .ok r' ∧ r'.toTrace = r.toTrace ∧
        r'.origins.toList = [.kept 1, .kept 2] ∧ r'.derived = [] := by
  have hproper : ∀ l ∈ ([-1] : List Literal), l.Proper := assumptionFault?_eq_none_iff.mp rfl
  have hfree : ¬∃ l ∈ ([-1] : List Literal), -l ∈ ([-1] : List Literal) := by
    rw [← contradictory_iff]
    decide
  have hsub : ∀ l ∈ ([-1, -1] : List Literal), l ∈ ([-1] : List Literal) := by simp
  obtain ⟨r, hr, hagain⟩ := reduce_again .exhaustive .standard linkedSample_obtained hproper hfree
    rfl hsub
  obtain ⟨r', hr', hsame, horigins, hderived', -⟩ := hagain (.inl rfl)
  have hrun : (linkedSample.reduce .exhaustive [-1]).map (fun r => (r.clauses, r.derived)) =
      .ok (#[⟨[2], []⟩, ⟨[], [1]⟩], [(2, some 1)]) := by
    decide +kernel
  rw [hr] at hrun
  obtain ⟨hclauses, hderived⟩ := Prod.mk.inj (Except.ok.inj hrun)
  have hindices : r.indices = [1, 2] := by
    rw [Trace.indices, Trace.size, hclauses]
    rfl
  rw [hindices] at horigins
  exact ⟨linkedSample_obtained, hproper, hfree, rfl, hsub, r, r', hr, hclauses, hderived, hr',
    hsame, horigins, hderived'⟩

end Refutation.Reduction
