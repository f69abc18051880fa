import Refutation.Proofs.Ancestry
import Refutation.Proofs.CascadeRun
import Refutation.Proofs.Repeats
import Refutation.Proofs.WellFormed

/-! # The cascade of a reduction

A reduction starts its cascade with the clauses in scope, as they are, and with the assumptions it
accepts.  Here the invariant of cascades is set up for this start, and read off at the end:
`sound_cascade`, `saturated_cascade`, `cascade_halted` and `prompt_cascade` say all that the later
theorems about reductions use of the cascade. -/

namespace Refutation.Reduction

/-! ### Assumptions -/

variable {assumptions : List Literal} {l : Literal}

theorem contradictory_iff :
    contradictory assumptions = true ↔ ∃ l ∈ assumptions, -l ∈ assumptions := by
  simp [contradictory]

theorem accepted_concat (assumptions : List Literal) (l : Literal) :
    accepted (assumptions ++ [l]) =
      if -l ∈ accepted assumptions then accepted assumptions else accepted assumptions ++ [l] := by
  unfold accepted
  rw [List.foldl_append]
  rfl

theorem accepted_sublist (assumptions : List Literal) :
    (accepted assumptions).Sublist assumptions := by
  induction assumptions using List.reverseRecOn with
  | nil => exact List.Sublist.refl _
  | append_singleton ls last ih =>
      rw [accepted_concat]
      split
      · exact ih.trans (List.sublist_append_left _ _)
      · exact ih.append_right [last]

theorem mem_of_mem_accepted (h : l ∈ accepted assumptions) : l ∈ assumptions :=
  (accepted_sublist assumptions).subset h

theorem accepted_eq_self (h : contradictory assumptions = false) :
    accepted assumptions = assumptions := by
  induction assumptions using List.reverseRecOn with
  | nil => rfl
  | append_singleton ls last ih =>
      rw [← Bool.not_eq_true, contradictory_iff] at h ih
      have hls : accepted ls = ls := by
        refine ih fun ⟨l, hl, hneg⟩ => h ⟨l, ?_, ?_⟩
        · exact List.mem_append_left _ hl
        · exact List.mem_append_left _ hneg
      rw [accepted_concat, hls, if_neg]
      intro hneg
      exact h ⟨last, by simp, List.mem_append_left _ hneg⟩

@[simp]
theorem literalsOf_map_assumed (ls : List Literal) :
    literalsOf (ls.map fun l => ⟨l, none⟩) = ls := by
  rw [literalsOf, List.map_map]
  exact List.map_id ls

theorem grounded_accepted (whole : List Residual) (hproper : ∀ l ∈ assumptions, l.Proper)
    (hnodup : assumptions.Nodup) :
    Grounded whole ((accepted assumptions).map fun l => ⟨l, none⟩) := by
  induction assumptions using List.reverseRecOn with
  | nil => exact .nil
  | append_singleton ls last ih =>
      have hlast : last ∉ ls := (List.nodup_cons.mp (List.nodup_append_comm.mp hnodup)).1
      have hls := ih (fun l hl => hproper l (List.mem_append_left _ hl))
        (hnodup.sublist (List.sublist_append_left _ _))
      rw [accepted_concat]
      split
      · exact hls
      · next hfree =>
        rw [List.map_append]
        refine hls.snoc (hproper last (by simp)) ?_ ?_ (by simp)
        · rw [literalsOf_map_assumed]
          exact fun h => hlast (mem_of_mem_accepted h)
        · rw [literalsOf_map_assumed]
          exact hfree

/-! ### The clauses in scope -/

/-- The clauses in scope as a cascade starts with them. -/
def wholeClauses (options : Options) (t : Trace) : List Residual :=
  (scope options t).filterMap fun i => (t.clause? i).map (Residual.ofClause i)

variable {options : Options} {t : Trace} {r : Residual}

theorem mem_wholeClauses :
    r ∈ wholeClauses options t ↔
      ∃ i ∈ scope options t, ∃ c, t.clause? i = some c ∧ Residual.ofClause i c = r := by
  simp only [wholeClauses, List.mem_filterMap, Option.map_eq_some_iff]

theorem map_literals_wholeClauses :
    (wholeClauses options t).map (·.literals) = scopeLiterals options t := by
  rw [wholeClauses, scopeLiterals, List.map_filterMap]
  simp only [Option.map_map]
  rfl

theorem index_wholeClauses_sublist (s : List Nat) :
    ((s.filterMap fun i => (t.clause? i).map (Residual.ofClause i)).map (·.index)).Sublist s := by
  induction s with
  | nil => exact List.Sublist.refl _
  | cons i s ih =>
      cases hc : t.clause? i with
      | none => simpa [hc] using ih.cons _
      | some c => simpa [hc, Residual.ofClause] using ih

theorem intact_wholeClauses (h : t.WellFormed) (options : Options) :
    Intact (wholeClauses options t) := by
  refine ⟨(pairwise_lt_scope options t).sublist (index_wholeClauses_sublist _), ?_, ?_, ?_⟩
  · intro r hr l hl
    obtain ⟨i, -, c, hc, rfl⟩ := mem_wholeClauses.mp hr
    exact (h i c hc).proper l hl
  · intro r hr
    obtain ⟨i, -, c, hc, rfl⟩ := mem_wholeClauses.mp hr
    exact (h i c hc).nodup
  · intro r hr
    obtain ⟨i, -, c, -, rfl⟩ := mem_wholeClauses.mp hr
    rfl

/-! ### The start -/

theorem residuals_start (t : Trace) (options : Options) (assumptions : List Literal) :
    (start t (scope options t) assumptions).residuals = wholeClauses options t := rfl

theorem sound_start (h : t.WellFormed) (options : Options) (hproper : ∀ l ∈ assumptions, l.Proper)
    (hnodup : assumptions.Nodup) :
    (start t (scope options t) assumptions).Sound (wholeClauses options t)
      (accepted assumptions) := by
  have hknown : (start t (scope options t) assumptions).known =
      (accepted assumptions).map fun l => ⟨l, none⟩ := rfl
  refine ⟨hknown ▸ grounded_accepted _ hproper hnodup, ?_, ?_, ⟨[], by simp [hknown], by simp⟩⟩
  · intro fact hfact r _ hreason
    obtain ⟨l, -, rfl⟩ := List.mem_map.mp hfact
    cases hreason
  · rw [residuals_start]
    have hall : ∀ r ∈ wholeClauses options t, r.remnant? [] = some r := fun r hr =>
      Residual.remnant?_nil ((intact_wholeClauses h options).untouched r hr)
    rw [show (start t (scope options t) assumptions).settled = [] from rfl,
      List.filterMap_congr hall, List.filterMap_some]

theorem saturated_start (h : t.WellFormed) (options : Options) (assumptions : List Literal) :
    (start t (scope options t) assumptions).Saturated := by
  intro r hr hshort
  have huntouched := (intact_wholeClauses h options).untouched r hr
  simp [Residual.isShortened, huntouched] at hshort

/-! ### The end -/

theorem cascade_eq_start (hstop : options.stopOnConflict.value = true)
    (hcontra : contradictory assumptions = true) :
    cascade options t assumptions = start t (scope options t) assumptions := by
  unfold cascade
  rw [hstop, hcontra]
  rfl

theorem cascade_eq_run
    (h : ¬(contradictory assumptions = true ∧ options.stopOnConflict.value = true)) :
    cascade options t assumptions =
      (start t (scope options t) assumptions).run options.stopOnConflict.value := by
  rw [← Bool.and_eq_true] at h
  unfold cascade
  exact if_neg h

/-- What holds at the start and is kept by the steps of the run holds of the cascade. -/
theorem cascade_induction {P : Cascade → Prop}
    (hstart : P (start t (scope options t) assumptions))
    (hrun : ∀ stop c, options.stopOnConflict.value = stop → P c → P (c.run stop)) :
    P (cascade options t assumptions) := by
  by_cases h : contradictory assumptions = true ∧ options.stopOnConflict.value = true
  · rw [cascade_eq_start h.2 h.1]
    exact hstart
  · rw [cascade_eq_run h]
    exact hrun _ _ rfl hstart

variable (h : t.WellFormed) (hproper : ∀ l ∈ assumptions, l.Proper) (hnodup : assumptions.Nodup)
include h

theorem saturated_cascade : (cascade options t assumptions).Saturated :=
  cascade_induction (saturated_start h options assumptions) fun stop _ _ hsat => hsat.run stop

include hproper hnodup

theorem sound_cascade :
    (cascade options t assumptions).Sound (wholeClauses options t) (accepted assumptions) :=
  cascade_induction (sound_start h options hproper hnodup) fun stop _ _ hsound =>
    hsound.run (intact_wholeClauses h options) stop

omit h hproper hnodup in
theorem cascade_halted (options : Options) (t : Trace) (assumptions : List Literal) :
    (cascade options t assumptions).pending = [] ∨ options.stopOnConflict.value = true ∧
      (contradictory assumptions = true ∨ (cascade options t assumptions).inConflict = true) := by
  by_cases hcontra : contradictory assumptions = true ∧ options.stopOnConflict.value = true
  · exact .inr ⟨hcontra.2, .inl hcontra.1⟩
  · rw [cascade_eq_run hcontra]
    rcases Cascade.run_halted options.stopOnConflict.value (start t (scope options t) assumptions)
      with hend | ⟨hstop, hconflict⟩
    · exact .inl hend
    · exact .inr ⟨hstop, .inr hconflict⟩

theorem prompt_cascade (hstop : options.stopOnConflict.value = true) :
    (cascade options t assumptions).Prompt (scopeLiterals options t) := by
  have hwhole := intact_wholeClauses h options
  rw [← map_literals_wholeClauses]
  have hstart : (start t (scope options t) assumptions).Prompt
      ((wholeClauses options t).map (·.literals)) := by
    intro earlier hearlier hne
    exact (hne (List.prefix_nil.mp hearlier)).elim
  by_cases hcontra : contradictory assumptions = true ∧ options.stopOnConflict.value = true
  · rw [cascade_eq_start hcontra.2 hcontra.1]
    exact hstart
  · rw [cascade_eq_run hcontra, hstop]
    exact hstart.run hwhole (sound_start h options hproper hnodup)

end Refutation.Reduction
