import Refutation.Proofs.ClosedForm

/-! # Reductions compute the closure under unit propagation

The literals a cascade knows are in the closure of the assumptions (`Grounded.closure`).  A cascade
that has come to an end without a conflict knows all of the closure (`known_of_closure`): a clause
that forces a literal has been shortened to that literal, and so was heeded.  A literal that was
refused, since its complement was known, would leave a clash behind.

Hence whether a conflict is found, which literals are derived and which clauses are left does not
depend on the order of the assumptions (`reduce_closure`).  Only the order of the clauses may:
a literal that two clauses force may be given by either of them. -/

namespace Refutation.Reduction

variable {whole : List Residual} {facts : List Fact} {r : Residual} {l u : Literal}

/-! ### Known literals are in the closure -/

theorem Grounded.closure {assumptions : List Literal} (h : Grounded whole facts)
    (hassumed : ∀ fact ∈ facts, fact.reason = none → fact.literal ∈ assumptions) :
    ∀ l ∈ literalsOf facts, Closure (whole.map (·.literals)) assumptions l := by
  induction h with
  | nil => simp
  | @snoc facts fact _ _ _ _ hreason ih =>
      have hbefore := ih fun other hother => hassumed other (List.mem_append_left _ hother)
      refine forall_literalsOf_concat.mpr ⟨hbefore, ?_⟩
      cases hr : fact.reason with
      | none => exact .assumed (hassumed fact (by simp) hr)
      | some i =>
          obtain ⟨r, hrmem, -, hforces⟩ := hreason i hr
          exact .derived (List.mem_map_of_mem hrmem) hforces.size hforces.mem
            fun k hk hne => hbefore _ (hforces.others k hk hne)

theorem Cascade.Sound.closure {assumed : List Literal} {c : Cascade} (h : c.Sound whole assumed)
    (hl : l ∈ literalsOf c.known) : Closure (whole.map (·.literals)) assumed l := by
  apply h.grounded.closure
  · intro fact hfact hreason
    exact h.mem_assumed hfact hreason
  · exact hl

/-! ### The closure is known -/

/-- A cascade is finished if nothing is pending and no clause has been emptied. -/
structure Cascade.Finished (c : Cascade) : Prop where
  pending : c.pending = []
  peaceful : c.inConflict = false
  saturated : c.Saturated

section finished

variable {assumed : List Literal} {c : Cascade} (hwhole : Intact whole) (h : c.Sound whole assumed)
  (hfinished : c.Finished)

include hfinished in
theorem Cascade.Finished.settled_eq : c.settled = c.known := by
  rw [Cascade.known, hfinished.pending, List.append_nil]

include h hfinished

theorem not_empties_known : ¬Empties (whole.map (·.literals)) (literalsOf c.known) := by
  rw [← hfinished.settled_eq, ← Cascade.inConflict_iff h, hfinished.peaceful]
  exact Bool.false_ne_true

include hwhole

theorem known_of_forces (hr : r ∈ whole) (hforces : Forces c.known r u) :
    u ∈ literalsOf c.known := by
  by_contra hu
  have hneg : -u ∉ literalsOf c.known := by
    intro hneg
    apply not_empties_known h hfinished
    refine ⟨r.literals, List.mem_map_of_mem hr, List.ne_nil_of_mem hforces.mem, fun k hk => ?_⟩
    by_cases hku : k = u
    · exact hku ▸ hneg
    · exact hforces.others k hk hku
  have hopen : ∀ k ∈ r.literals, k ∉ literalsOf c.known := by
    intro k hk hknown
    by_cases hku : k = u
    · exact hu (hku ▸ hknown)
    · exact h.grounded.consistent hknown (hforces.others k hk hku)
  rw [← hfinished.settled_eq] at hopen hforces
  rw [← hfinished.settled_eq] at hneg
  obtain ⟨r', hremnant, hunit, hshort⟩ :=
    Residual.exists_remnant_of_forces hforces (hwhole.nodup r hr) hneg (.inr hopen)
  have hmem : r' ∈ c.residuals := (Cascade.mem_residuals h).mpr ⟨r, hr, hremnant⟩
  rcases hfinished.saturated r' hmem hshort u hunit with hknown | hknown
  · exact hu hknown
  · exact hneg (hfinished.settled_eq ▸ hknown)

/-- **A finished cascade knows the closure of its assumptions.** -/
theorem known_of_closure (hl : Closure (whole.map (·.literals)) assumed l) :
    l ∈ literalsOf c.known := by
  induction hl with
  | assumed hl =>
      obtain ⟨derived, heq, -⟩ := h.known_eq
      rw [heq, literalsOf_append, literalsOf_map_assumed]
      exact List.mem_append_left _ hl
  | derived hclause hsize hl _ ih =>
      obtain ⟨r, hr, rfl⟩ := List.mem_map.mp hclause
      exact known_of_forces hwhole h hfinished hr ⟨hl, hsize, ih⟩

theorem not_clashes : ¬Clashes (whole.map (·.literals)) assumed := by
  rintro (⟨l, hl, hneg⟩ | ⟨clause, hclause, hne, hall⟩)
  · have hknown := known_of_closure hwhole h hfinished hl
    exact h.grounded.consistent hknown (known_of_closure hwhole h hfinished hneg)
  · apply not_empties_known h hfinished
    exact ⟨clause, hclause, hne, fun l hl => known_of_closure hwhole h hfinished (hall l hl)⟩

end finished

/-! ### What is left does not depend on the order -/

/-- What is left of the clauses in which no literal is known: they lose the literals of which the
complement is known. -/
def leftOver (known : List Literal) (clauses : List (List Literal)) : List (List Literal) :=
  (clauses.filter fun clause => clause.all (· ∉ known)).map fun clause =>
    clause.filter fun l => -l ∉ known

theorem mem_leftOver {known : List Literal} {clauses : List (List Literal)} {ls : List Literal} :
    ls ∈ leftOver known clauses ↔ ∃ clause ∈ clauses, (∀ l ∈ clause, l ∉ known) ∧
      (clause.filter fun l => -l ∉ known) = ls := by
  simp only [leftOver, List.mem_map, List.mem_filter, List.all_eq_true, decide_eq_true_iff,
    and_assoc]

theorem leftOver_congr {known known' : List Literal} (h : ∀ l, l ∈ known ↔ l ∈ known') :
    leftOver known = leftOver known' := by
  funext clauses
  simp only [leftOver, h]

/-- The literals that were given by a clause, in order. -/
def givenLiterals (facts : List Fact) : List Literal :=
  literalsOf (facts.filter (·.reason.isSome))

theorem mem_givenLiterals {facts : List Fact} {l : Literal} :
    l ∈ givenLiterals facts ↔ ∃ fact ∈ facts, fact.reason.isSome = true ∧ fact.literal = l := by
  simp only [givenLiterals, mem_literalsOf, List.mem_filter, and_assoc]

theorem map_fst_filterMap_reason {α : Type} (f : Nat → α) (facts : List Fact) :
    (facts.filterMap fun fact => fact.reason.map fun i => (fact.literal, f i)).map Prod.fst =
      givenLiterals facts := by
  rw [List.map_filterMap, givenLiterals, literalsOf, ← List.filterMap_eq_map,
    List.filterMap_filter]
  apply List.filterMap_congr
  intro fact _
  cases hreason : fact.reason with
  | none => simp
  | some i => simp

theorem nodup_givenLiterals {facts : List Fact} (h : Grounded whole facts) :
    (givenLiterals facts).Nodup :=
  h.nodup.sublist (List.filter_sublist.map _)

section order

theorem filterMap_perm_append {α β : Type} (p : α → Bool) (f : α → Option β) (xs : List α) :
    (xs.filterMap f).Perm ((xs.filter p).filterMap f ++ (xs.filter (!p ·)).filterMap f) := by
  rw [← List.filterMap_append]
  exact ((List.filter_append_perm p xs).filterMap f).symm

variable (hwhole : Intact whole) (h : Grounded whole facts)
include hwhole h

/-- A satisfied clause that has not been dropped gave a fact, of which it is the unit clause. -/
theorem exists_reason_of_remnant? {r' : Residual} (hr : r ∈ whole)
    (hopen : r.isOpen facts = false) (hremnant : r.remnant? facts = some r') :
    ∃ fact ∈ facts, fact.reason = some r.index ∧ r'.literals = [fact.literal] := by
  have hclosed : ¬∀ l ∈ r.literals, l ∉ literalsOf facts := by
    rw [← Residual.isOpen_iff, hopen]
    exact Bool.false_ne_true
  have hreason := (Residual.remnant?_eq_some_iff.mp hremnant).1.resolve_right hclosed
  obtain ⟨fact, hfact, hgave⟩ := mem_reasonsOf.mp hreason
  refine ⟨fact, hfact, hgave, ?_⟩
  rw [Residual.literals_of_remnant? hremnant]
  apply (h.forces_of_reason hwhole hfact hr hgave).filter_eq (hwhole.nodup r hr)
  exact h.consistent (literal_mem_literalsOf hfact)

theorem exists_remnant?_of_reason {fact : Fact} (hfact : fact ∈ facts)
    (hreason : fact.reason.isSome = true) :
    ∃ r ∈ whole, r.isOpen facts = false ∧
      (r.remnant? facts).map (·.literals) = some [fact.literal] := by
  obtain ⟨i, hi⟩ := Option.isSome_iff_exists.mp hreason
  obtain ⟨r, hr, rfl, hforces⟩ := h.forced hfact hi
  have hopen : r.isOpen facts = false := by
    rw [← Bool.not_eq_true, Residual.isOpen_iff]
    intro hall
    exact hall _ hforces.mem (literal_mem_literalsOf hfact)
  obtain ⟨r', hremnant, hunit, -⟩ := Residual.exists_remnant_of_forces hforces
    (hwhole.nodup r hr) (h.consistent (literal_mem_literalsOf hfact))
    (.inl (mem_reasonsOf.mpr ⟨fact, hfact, hi⟩))
  refine ⟨r, hr, hopen, ?_⟩
  rw [hremnant, Option.map_some, hunit]

theorem mem_satisfied_iff {ls : List Literal} :
    ls ∈ (whole.filter (!·.isOpen facts)).filterMap (fun r =>
        (r.remnant? facts).map (·.literals)) ↔
      ∃ fact ∈ facts, fact.reason.isSome = true ∧ [fact.literal] = ls := by
  rw [List.mem_filterMap]
  constructor
  · rintro ⟨r, hr, hls⟩
    rw [List.mem_filter, Bool.not_eq_true'] at hr
    obtain ⟨r', hremnant, rfl⟩ := Option.map_eq_some_iff.mp hls
    obtain ⟨fact, hfact, hreason, hunit⟩ :=
      exists_reason_of_remnant? hwhole h hr.1 hr.2 hremnant
    exact ⟨fact, hfact, by rw [hreason]; rfl, hunit.symm⟩
  · rintro ⟨fact, hfact, hreason, rfl⟩
    obtain ⟨r, hr, hopen, hunit⟩ := exists_remnant?_of_reason hwhole h hfact hreason
    refine ⟨r, ?_, hunit⟩
    rw [List.mem_filter, hopen]
    exact ⟨hr, rfl⟩

theorem nodup_satisfied : ((whole.filter (!·.isOpen facts)).filterMap fun r =>
    (r.remnant? facts).map (·.literals)).Nodup := by
  have hindices : (whole.filter (!·.isOpen facts)).Pairwise fun r s => r.index < s.index := by
    have hasc := List.pairwise_map.mp hwhole.ascending
    exact hasc.filter _
  unfold List.Nodup
  rw [List.pairwise_filterMap]
  refine hindices.imp_of_mem ?_
  intro r s hr hs hlt x hx y hy
  rw [List.mem_filter, Bool.not_eq_true'] at hr hs
  obtain ⟨r', hr', rfl⟩ := Option.map_eq_some_iff.mp hx
  obtain ⟨s', hs', rfl⟩ := Option.map_eq_some_iff.mp hy
  obtain ⟨fact, hfact, hreason, hunit⟩ := exists_reason_of_remnant? hwhole h hr.1 hr.2 hr'
  obtain ⟨other, hother, hreason', hunit'⟩ := exists_reason_of_remnant? hwhole h hs.1 hs.2 hs'
  rw [hunit, hunit']
  intro heq
  have hliteral : fact.literal = other.literal := (List.cons.inj heq).1
  have hsame : fact = other := h.eq_of_literal_eq hfact hother hliteral
  rw [hsame, hreason'] at hreason
  have hindex : s.index = r.index := Option.some.inj hreason
  omega

/-- **What facts leave of the clauses**, apart from their order: the clauses in which no literal is
known, without the literals that are denied, and the unit clauses of the literals that were given
by a clause. -/
theorem perm_leftOver : ((whole.filterMap (·.remnant? facts)).map (·.literals)).Perm
    (leftOver (literalsOf facts) (whole.map (·.literals)) ++ (givenLiterals facts).map ([·])) := by
  rw [List.map_filterMap]
  refine (filterMap_perm_append (Residual.isOpen facts) _ whole).trans ?_
  apply List.Perm.append
  · apply List.Perm.of_eq
    have hleft : ∀ r ∈ whole.filter (·.isOpen facts), (r.remnant? facts).map (·.literals) =
        some (r.literals.filter fun l => -l ∉ literalsOf facts) := by
      intro r hr
      unfold Residual.remnant?
      rw [if_pos (.inr (List.mem_filter.mp hr).2)]
      rfl
    rw [List.filterMap_congr hleft, List.filterMap_eq_map', leftOver, List.filter_map,
      List.map_map]
    rfl
  · have hnodup : ((givenLiterals facts).map ([·])).Nodup :=
      (nodup_givenLiterals h).map fun _ _ heq => (List.cons.inj heq).1
    rw [List.perm_ext_iff_of_nodup (nodup_satisfied hwhole h) hnodup]
    intro ls
    rw [mem_satisfied_iff hwhole h, List.mem_map]
    constructor
    · rintro ⟨fact, hfact, hreason, rfl⟩
      exact ⟨_, mem_givenLiterals.mpr ⟨fact, hfact, hreason, rfl⟩, rfl⟩
    · rintro ⟨u, hu, rfl⟩
      obtain ⟨fact, hfact, hreason, rfl⟩ := mem_givenLiterals.mp hu
      exact ⟨fact, hfact, hreason, rfl⟩

end order

/-! ### Reductions -/

section reduction

variable {options options' : Options} {t : Trace} {assumptions assumptions' : List Literal}

theorem scopeLiterals_congr (h : options'.coreOnly.value = options.coreOnly.value) :
    scopeLiterals options' t = scopeLiterals options t := by
  unfold scopeLiterals
  rw [scope_congr h]

theorem Cascade.Sound.mem_givenLiterals_iff {assumed : List Literal} {c : Cascade}
    (h : c.Sound whole assumed) :
    l ∈ givenLiterals c.known ↔ l ∈ literalsOf c.known ∧ l ∉ assumed := by
  rw [mem_givenLiterals]
  constructor
  · rintro ⟨fact, hfact, hreason, rfl⟩
    refine ⟨literal_mem_literalsOf hfact, ?_⟩
    obtain ⟨derived, heq, -⟩ := h.known_eq
    have hnodup := h.grounded.nodup
    rw [heq, literalsOf_append, literalsOf_map_assumed, List.nodup_append] at hnodup
    rw [heq, List.mem_append] at hfact
    rcases hfact with hfact | hfact
    · obtain ⟨k, -, rfl⟩ := List.mem_map.mp hfact
      cases hreason
    · intro hassumed
      exact hnodup.2.2 _ hassumed _ (literal_mem_literalsOf hfact) rfl
  · rintro ⟨hl, hassumed⟩
    obtain ⟨fact, hfact, rfl⟩ := mem_literalsOf.mp hl
    refine ⟨fact, hfact, ?_, rfl⟩
    cases hreason : fact.reason with
    | none => exact (hassumed (h.mem_assumed hfact hreason)).elim
    | some i => rfl

theorem map_derived_rebuild {link : Bool} {c : Cascade} :
    (rebuild link t assumptions c).derived.map Prod.fst = givenLiterals c.known := by
  rw [derived_rebuild, map_fst_filterMap_reason]

/-- Stopping at conflicts cuts the derivation off. -/
theorem literalsOf_known_isPrefix (t : Trace) (assumptions : List Literal)
    (hcore : options'.coreOnly.value = options.coreOnly.value)
    (hstop : options.stopOnConflict.value = true)
    (hstop' : options'.stopOnConflict.value = false) :
    literalsOf (cascade options t assumptions).known <+:
      literalsOf (cascade options' t assumptions).known := by
  have hrun' : cascade options' t assumptions =
      (start t (scope options t) assumptions).run false := by
    rw [cascade_eq_run (by simp [hstop']), hstop', scope_congr hcore]
  have hpre : (cascade options t assumptions).known <+: (cascade options' t assumptions).known := by
    rw [hrun']
    by_cases hcontra : contradictory assumptions = true
    · rw [cascade_eq_start hstop hcontra]
      exact Cascade.known_prefix_run false _
    · rw [cascade_eq_run (fun h => hcontra h.1), hstop]
      exact Cascade.known_run_true_prefix _
  exact hpre.map _

variable (ht : t.WellFormed)
include ht

theorem finished_cascade (hcontra : contradictory assumptions = false)
    (hconflict : (cascade options t assumptions.eraseDups).inConflict = false) :
    (cascade options t assumptions.eraseDups).Finished := by
  refine ⟨?_, hconflict, saturated_cascade ht⟩
  rcases cascade_halted options t assumptions.eraseDups
    with h | ⟨-, h | h⟩
  · exact h
  · rw [contradictory_eraseDups, hcontra] at h
    cases h
  · rw [hconflict] at h
    cases h

variable (hproper : ∀ l ∈ assumptions, l.Proper)
include hproper

variable (options) in
/-- **A conflict is found exactly if the closure of the assumptions clashes.** -/
theorem foundConflict_iff_clashes (link : Bool) :
    (rebuild link t assumptions.eraseDups
        (cascade options t assumptions.eraseDups)).foundConflict = true ↔
      Clashes (scopeLiterals options t) assumptions := by
  have hsound := sound_cascade_eraseDups ht options hproper
  have haccepted : ∀ l ∈ accepted assumptions.eraseDups, l ∈ assumptions :=
    fun l hl => List.mem_eraseDups.mp (mem_of_mem_accepted hl)
  rw [foundConflict_rebuild, contradictory_eraseDups, ← map_literals_wholeClauses]
  constructor
  · rintro (hcontra | hconflict)
    · obtain ⟨l, hl, hneg⟩ := contradictory_iff.mp hcontra
      exact .inl ⟨l, .assumed hl, .assumed hneg⟩
    · obtain ⟨clause, hclause, hne, hall⟩ := (Cascade.inConflict_iff hsound).mp hconflict
      refine .inr ⟨clause, hclause, hne, fun l hl => ?_⟩
      have hknown := Cascade.mem_literalsOf_known.mpr (.inl (hall l hl))
      exact (hsound.closure hknown).mono haccepted
  · intro hclash
    by_contra hnone
    rw [not_or, Bool.not_eq_true, Bool.not_eq_true] at hnone
    have hfinished := finished_cascade ht hnone.1 hnone.2
    apply not_clashes (intact_wholeClauses ht options) hsound hfinished
    rw [accepted_eq_self (by rw [contradictory_eraseDups, hnone.1])]
    exact hclash.mono fun l hl => List.mem_eraseDups.mpr hl

variable (hpeace : ¬Clashes (scopeLiterals options t) assumptions)
include hpeace

theorem finished_of_not_clashes :
    (cascade options t assumptions.eraseDups).Finished ∧
      (cascade options t assumptions.eraseDups).Sound (wholeClauses options t)
        assumptions.eraseDups := by
  rw [← foundConflict_iff_clashes options ht hproper true, foundConflict_rebuild, not_or,
    Bool.not_eq_true, Bool.not_eq_true] at hpeace
  have hcontra := hpeace.1
  rw [contradictory_eraseDups] at hcontra
  refine ⟨finished_cascade ht hcontra hpeace.2, ?_⟩
  have hsound := sound_cascade_eraseDups ht options hproper
  rwa [accepted_eq_self hpeace.1] at hsound

/-- **Without a clash the closure is known.** -/
theorem mem_literalsOf_known_iff :
    l ∈ literalsOf (cascade options t assumptions.eraseDups).known ↔
      Closure (scopeLiterals options t) assumptions l := by
  obtain ⟨hfinished, hsound⟩ := finished_of_not_clashes ht hproper hpeace
  rw [← map_literals_wholeClauses]
  constructor
  · intro hl
    exact (hsound.closure hl).mono fun l hl => List.mem_eraseDups.mp hl
  · intro hl
    apply known_of_closure (intact_wholeClauses ht options) hsound hfinished
    exact hl.mono fun l hl => List.mem_eraseDups.mpr hl

/-- **Without a clash the derived literals are those of the closure that were not assumed.** -/
theorem mem_givenLiterals_iff_closure :
    l ∈ givenLiterals (cascade options t assumptions.eraseDups).known ↔
      Closure (scopeLiterals options t) assumptions l ∧ l ∉ assumptions := by
  obtain ⟨-, hsound⟩ := finished_of_not_clashes ht hproper hpeace
  rw [hsound.mem_givenLiterals_iff, mem_literalsOf_known_iff ht hproper hpeace,
    List.mem_eraseDups]

/-- **Without a clash the closure tells what is left**, apart from the order of the clauses. -/
theorem perm_leftOver_rebuild (link : Bool) :
    ((rebuild link t assumptions.eraseDups
        (cascade options t assumptions.eraseDups)).clauses.toList.map (·.literals)).Perm
      (leftOver (literalsOf (cascade options t assumptions.eraseDups).known)
          (scopeLiterals options t) ++
        (givenLiterals (cascade options t assumptions.eraseDups).known).map ([·])) := by
  obtain ⟨hfinished, hsound⟩ := finished_of_not_clashes ht hproper hpeace
  have hleading : leading assumptions.eraseDups = [] := by
    rw [leading, contradictory_eraseDups, if_neg]
    rw [contradictory_iff]
    rintro ⟨l, hl, hneg⟩
    exact hpeace (.inl ⟨l, .assumed hl, .assumed hneg⟩)
  rw [map_literals_rebuild, hleading, hsound.residuals_eq, hfinished.settled_eq,
    ← map_literals_wholeClauses]
  exact perm_leftOver (intact_wholeClauses ht options) hsound.grounded

/-- **Without a clash the clauses left are the same** for all ways to list the assumptions. -/
theorem perm_literals_rebuild {link link' : Bool}
    (hcore : options'.coreOnly.value = options.coreOnly.value)
    (hproper' : ∀ l ∈ assumptions', l.Proper) (hsame : ∀ l, l ∈ assumptions ↔ l ∈ assumptions') :
    ((rebuild link t assumptions.eraseDups
        (cascade options t assumptions.eraseDups)).clauses.toList.map (·.literals)).Perm
      ((rebuild link' t assumptions'.eraseDups
        (cascade options' t assumptions'.eraseDups)).clauses.toList.map (·.literals)) := by
  have hpeace' : ¬Clashes (scopeLiterals options' t) assumptions' := by
    rw [scopeLiterals_congr hcore]
    exact fun hclash => hpeace (hclash.mono fun l hl => (hsame l).mpr hl)
  have hclosure : ∀ l, Closure (scopeLiterals options t) assumptions l ↔
      Closure (scopeLiterals options' t) assumptions' l := by
    intro l
    rw [scopeLiterals_congr hcore]
    exact ⟨fun hl => hl.mono fun k hk => (hsame k).mp hk,
      fun hl => hl.mono fun k hk => (hsame k).mpr hk⟩
  have hknown : ∀ l, l ∈ literalsOf (cascade options t assumptions.eraseDups).known ↔
      l ∈ literalsOf (cascade options' t assumptions'.eraseDups).known := by
    intro l
    rw [mem_literalsOf_known_iff ht hproper hpeace, mem_literalsOf_known_iff ht hproper' hpeace',
      hclosure]
  have hunits : (givenLiterals (cascade options t assumptions.eraseDups).known).Perm
      (givenLiterals (cascade options' t assumptions'.eraseDups).known) := by
    have hgrounded := (sound_cascade_eraseDups ht options hproper).grounded
    have hgrounded' := (sound_cascade_eraseDups ht options' hproper').grounded
    rw [List.perm_ext_iff_of_nodup (nodup_givenLiterals hgrounded) (nodup_givenLiterals hgrounded')]
    intro l
    rw [mem_givenLiterals_iff_closure ht hproper hpeace,
      mem_givenLiterals_iff_closure ht hproper' hpeace', hclosure, hsame]
  refine (perm_leftOver_rebuild ht hproper hpeace link).trans ?_
  refine .trans ?_ (perm_leftOver_rebuild ht hproper' hpeace' link').symm
  rw [leftOver_congr hknown, scopeLiterals_congr hcore]
  exact (hunits.map _).append_left _

end reduction

/-! ### The closure of a reduction -/

variable {t : Trace} {assumptions : List Literal}

/-- **Reductions compute the closure under unit propagation.**  A conflict is found exactly if the
closure of the assumptions clashes; otherwise the derived literals are those of the closure that
were not assumed.  For another reduction of the same clauses, with other options and assumptions:

* a conflict stays if assumptions are added;
* the same assumptions in another order, with other repeats, lead to a conflict as well or to the
  same clauses, up to their order;
* a reduction that stops at conflicts derives a first part of what one derives that does not. -/
theorem reduce_closure (options : Options) (ht : t.Obtained)
    (hproper : ∀ l ∈ assumptions, l.Proper) :
    ∃ r, t.reduce options assumptions = .ok r ∧
      (r.foundConflict = true ↔ Clashes (scopeLiterals options t) assumptions) ∧
      (r.foundConflict = false → ∀ u, u ∈ r.derived.map Prod.fst ↔
        Closure (scopeLiterals options t) assumptions u ∧ u ∉ assumptions) ∧
      (∀ options' assumptions' r', options'.coreOnly.value = options.coreOnly.value →
        t.reduce options' assumptions' = .ok r' →
          ((∀ l ∈ assumptions, l ∈ assumptions') → r.foundConflict = true →
            r'.foundConflict = true) ∧
          ((∀ l, l ∈ assumptions ↔ l ∈ assumptions') → r'.foundConflict = r.foundConflict ∧
            (r.foundConflict = false → (r.clauses.toList.map (·.literals)).Perm
              (r'.clauses.toList.map (·.literals))))) ∧
      ∀ options' r', options'.coreOnly.value = options.coreOnly.value →
        options.stopOnConflict.value = true → options'.stopOnConflict.value = false →
          t.reduce options' assumptions = .ok r' →
            r.derived.map Prod.fst <+: r'.derived.map Prod.fst := by
  have hwf := ht.wellFormed
  have hconflict := foundConflict_iff_clashes options hwf hproper options.linkUnitReasons.value
  refine ⟨_, reduce_eq_ok options t hproper, hconflict, ?_, ?_, ?_⟩
  · intro hpeace u
    rw [← Bool.not_eq_true, hconflict] at hpeace
    rw [map_derived_rebuild, mem_givenLiterals_iff_closure hwf hproper hpeace]
  · intro options' assumptions' r' hcore hr'
    obtain ⟨hproper', rfl⟩ := reduce_eq_ok_iff.mp hr'
    have hconflict' :=
      foundConflict_iff_clashes options' hwf hproper' options'.linkUnitReasons.value
    rw [scopeLiterals_congr hcore] at hconflict'
    constructor
    · intro hsub hfound
      rw [hconflict']
      exact (hconflict.mp hfound).mono hsub
    · intro hsame
      constructor
      · rw [Bool.eq_iff_iff, hconflict, hconflict']
        exact ⟨fun h => h.mono fun l hl => (hsame l).mpr hl,
          fun h => h.mono fun l hl => (hsame l).mp hl⟩
      · intro hpeace
        rw [← Bool.not_eq_true, hconflict] at hpeace
        exact perm_literals_rebuild hwf hproper hpeace hcore hproper' hsame
  · intro options' r' hcore hstop hstop' hr'
    obtain ⟨-, rfl⟩ := reduce_eq_ok_iff.mp hr'
    have hpre := literalsOf_known_isPrefix t assumptions.eraseDups hcore hstop hstop'
    rw [literalsOf_known options.linkUnitReasons.value t assumptions.eraseDups
        (sound_cascade_eraseDups hwf options hproper),
      literalsOf_known options'.linkUnitReasons.value t assumptions.eraseDups
        (sound_cascade_eraseDups hwf options' hproper),
      List.prefix_append_right_inj] at hpre
    exact hpre

/-- A case of `reduce_closure`: from `¬1` the literals `2` and `3` are derived, and assuming `¬1`
twice changes nothing. -/
theorem reduce_closure_sample :
    Trace.sample.Obtained ∧ (∀ l ∈ ([-1] : List Literal), l.Proper) ∧
      ∃ r, Trace.sample.reduce .standard [-1] = .ok r ∧ r.foundConflict = false ∧
        Closure (scopeLiterals .standard Trace.sample) [-1] 3 ∧
        ¬Clashes (scopeLiterals .standard Trace.sample) [-1] ∧
        ∀ r', Trace.sample.reduce .standard [-1, -1] = .ok r' → r'.foundConflict = false ∧
          (r.clauses.toList.map (·.literals)).Perm (r'.clauses.toList.map (·.literals)) := by
  have hproper : ∀ l ∈ ([-1] : List Literal), l.Proper := assumptionFault?_eq_none_iff.mp rfl
  obtain ⟨r, hr, hconflict, hderived, hother, -⟩ :=
    reduce_closure .standard Trace.sample_obtained hproper
  have hrun : (Trace.sample.reduce .standard [-1]).map
      (fun r => (r.foundConflict, r.derived.map Prod.fst)) = .ok (false, [2, 3]) := by
    decide +kernel
  rw [hr] at hrun
  obtain ⟨hpeace, hliterals⟩ := Prod.mk.inj (Except.ok.inj hrun)
  have hthree : (3 : Literal) ∈ r.derived.map Prod.fst := by
    rw [hliterals]
    decide
  refine ⟨Trace.sample_obtained, hproper, r, hr, hpeace, ((hderived hpeace 3).mp hthree).1, ?_, ?_⟩
  · rw [← hconflict, hpeace]
    exact Bool.false_ne_true
  · intro r' hr'
    obtain ⟨hsame, hperm⟩ := (hother .standard [-1, -1] r' rfl hr').2 (by simp)
    exact ⟨hsame.trans hpeace, hperm hpeace⟩

end Refutation.Reduction
