import Refutation.Proofs.Remnant
import Refutation.Reduction.Closure

/-! # The invariant of a cascade

`Cascade.Sound` ties the state of a cascade to the whole clauses it started with: the known facts
are grounded, what is left of the clauses is exactly what the settled facts leave of them, and a
pending fact has its unit clause already.  `Cascade.Saturated` says that every clause shortened to
one literal has been heeded: the literal is known, or its complement is.

Both hold at the start and are kept by every step (`Sound.step`, `Saturated.step`), hence they hold
after the last step.  `run_induction` is the induction that carries any property of states through
a whole run. -/

namespace Refutation.Reduction

/-- Some known literals empty a clause that had literals. -/
def Empties (clauses : List (List Literal)) (known : List Literal) : Prop :=
  ∃ clause ∈ clauses, clause ≠ [] ∧ ∀ l ∈ clause, -l ∈ known

namespace Cascade

variable {whole : List Residual} {assumed : List Literal} {c c' : Cascade} {fact : Fact}
  {r : Residual} {u l : Literal}

/-! ### The invariant -/

/-- The state of a cascade that started with some whole clauses and assumptions. -/
structure Sound (whole : List Residual) (assumed : List Literal) (c : Cascade) : Prop where
  grounded : Grounded whole c.known
  /-- The unit clause of a pending fact has lost its other literals to settled facts. -/
  forced : ∀ fact ∈ c.pending, ∀ r ∈ whole, fact.reason = some r.index →
    Forces c.settled r fact.literal
  residuals_eq : c.residuals = whole.filterMap (·.remnant? c.settled)
  /-- The assumptions come first, and all else was derived. -/
  known_eq : ∃ derived : List Fact, c.known = assumed.map (⟨·, none⟩) ++ derived ∧
    ∀ fact ∈ derived, fact.reason.isSome

theorem Sound.mem_assumed (h : Sound whole assumed c) (hfact : fact ∈ c.known)
    (hreason : fact.reason = none) : fact.literal ∈ assumed := by
  obtain ⟨derived, heq, hsome⟩ := h.known_eq
  rw [heq, List.mem_append] at hfact
  rcases hfact with hfact | hfact
  · obtain ⟨l, hl, rfl⟩ := List.mem_map.mp hfact
    exact hl
  · have hcontra := hsome fact hfact
    rw [hreason] at hcontra
    cases hcontra

/-- Every clause shortened to a single literal has been heeded. -/
def Saturated (c : Cascade) : Prop :=
  ∀ r ∈ c.residuals, r.isShortened = true → ∀ u, r.literals = [u] →
    u ∈ literalsOf c.known ∨ -u ∈ literalsOf c.known

theorem mem_literalsOf_known :
    l ∈ literalsOf c.known ↔ l ∈ literalsOf c.settled ∨ l ∈ literalsOf c.pending := by
  rw [known, literalsOf_append, List.mem_append]

theorem Sound.grounded_settled (h : Sound whole assumed c) : Grounded whole c.settled :=
  h.grounded.of_append

theorem Sound.not_mem_settled (h : Sound whole assumed c) (hfact : fact ∈ c.pending) :
    fact.literal ∉ literalsOf c.settled := by
  have hnodup := h.grounded.nodup
  rw [known, literalsOf_append, List.nodup_append] at hnodup
  intro hsettled
  exact hnodup.2.2 _ hsettled _ (literal_mem_literalsOf hfact) rfl

theorem knows_iff : c.knows l = true ↔ l ∈ literalsOf c.known := by
  rw [knows, List.any_eq_true, mem_literalsOf]
  simp only [beq_iff_eq]

/-! ### Deriving one fact -/

theorem known_derive (h : fact.literal ∉ literalsOf c.known)
    (hneg : -fact.literal ∉ literalsOf c.known) : (c.derive fact).known = c.known ++ [fact] := by
  rw [← knows_iff, Bool.not_eq_true] at h hneg
  unfold derive
  rw [h, hneg]
  simp [known]

theorem derive_of_mem (h : fact.literal ∈ literalsOf c.known ∨ -fact.literal ∈ literalsOf c.known) :
    c.derive fact = c := by
  rw [← knows_iff, ← knows_iff] at h
  unfold derive
  rw [if_pos]
  rw [Bool.or_eq_true]
  exact h

theorem known_derive_eq_or (c : Cascade) (fact : Fact) :
    (c.derive fact).known = c.known ∨ (c.derive fact).known = c.known ++ [fact] := by
  by_cases h : fact.literal ∈ literalsOf c.known ∨ -fact.literal ∈ literalsOf c.known
  · exact .inl (congrArg known (derive_of_mem h))
  · rw [not_or] at h
    exact .inr (known_derive h.1 h.2)

theorem known_prefix_derive (c : Cascade) (fact : Fact) : c.known <+: (c.derive fact).known := by
  rcases known_derive_eq_or c fact with h | h
  · exact h ▸ List.prefix_refl _
  · rw [h]
    exact List.prefix_append _ _

theorem known_of_derive (c : Cascade) (fact : Fact) :
    fact.literal ∈ literalsOf (c.derive fact).known ∨
      -fact.literal ∈ literalsOf (c.derive fact).known := by
  by_cases h : fact.literal ∈ literalsOf c.known ∨ -fact.literal ∈ literalsOf c.known
  · rwa [derive_of_mem h]
  · rw [not_or] at h
    rw [known_derive h.1 h.2, literalsOf_append]
    exact .inl (List.mem_append_right _ (by simp))

/-! ### Deriving the facts of a step -/

theorem settled_foldl_derive (facts : List Fact) (c : Cascade) :
    (facts.foldl derive c).settled = c.settled := by
  induction facts generalizing c with
  | nil => rfl
  | cons fact facts ih => rw [List.foldl_cons, ih, settled_derive]

theorem residuals_foldl_derive (facts : List Fact) (c : Cascade) :
    (facts.foldl derive c).residuals = c.residuals := by
  induction facts generalizing c with
  | nil => rfl
  | cons fact facts ih => rw [List.foldl_cons, ih, residuals_derive]

theorem known_prefix_foldl_derive (facts : List Fact) (c : Cascade) :
    c.known <+: (facts.foldl derive c).known := by
  induction facts generalizing c with
  | nil => exact List.prefix_refl _
  | cons fact facts ih => exact (known_prefix_derive c fact).trans (ih _)

theorem known_of_mem_foldl_derive {facts : List Fact} (hfact : fact ∈ facts) (c : Cascade) :
    fact.literal ∈ literalsOf (facts.foldl derive c).known ∨
      -fact.literal ∈ literalsOf (facts.foldl derive c).known := by
  induction facts generalizing c with
  | nil => simp at hfact
  | cons first facts ih =>
      rw [List.foldl_cons]
      rcases List.mem_cons.mp hfact with rfl | hfact
      · have hsub := known_prefix_foldl_derive facts (c.derive fact)
        exact (known_of_derive c fact).imp (literalsOf_mono hsub)
          (literalsOf_mono hsub)
      · exact ih hfact _

/-- A fact may be derived if a whole clause forces it. -/
structure Derivable (whole : List Residual) (c : Cascade) (fact : Fact) (r : Residual) : Prop where
  mem : r ∈ whole
  reason : fact.reason = some r.index
  forces : Forces c.settled r fact.literal

theorem Sound.derive (hwhole : Intact whole) (h : Sound whole assumed c)
    (hfact : Derivable whole c fact r) : Sound whole assumed (c.derive fact) := by
  by_cases hknown : fact.literal ∈ literalsOf c.known ∨ -fact.literal ∈ literalsOf c.known
  · rwa [derive_of_mem hknown]
  · rw [not_or] at hknown
    have hall := known_derive hknown.1 hknown.2
    have hpending : (c.derive fact).pending = c.pending ++ [fact] := by
      simpa [known, settled_derive] using hall
    refine ⟨?_, ?_, ?_, ?_⟩
    · rw [hall]
      refine h.grounded.snoc (hwhole.proper r hfact.mem _ hfact.forces.mem) hknown.1 hknown.2 ?_
      intro i hi
      rw [hfact.reason] at hi
      cases hi
      refine ⟨r, hfact.mem, rfl, hfact.forces.mono ?_⟩
      exact fun l hl => mem_literalsOf_known.mpr (.inl hl)
    · rw [settled_derive, hpending]
      intro other hother s hs hreason
      rcases List.mem_append.mp hother with hother | hother
      · exact h.forced other hother s hs hreason
      · rw [List.mem_singleton] at hother
        subst hother
        rw [hfact.reason] at hreason
        rw [← eq_of_index_eq hwhole.ascending hfact.mem hs (Option.some.inj hreason)]
        exact hfact.forces
    · rw [residuals_derive, settled_derive]
      exact h.residuals_eq
    · obtain ⟨derived, heq, hsome⟩ := h.known_eq
      refine ⟨derived ++ [fact], ?_, ?_⟩
      · rw [hall, heq, List.append_assoc]
      · intro other hother
        rcases List.mem_append.mp hother with hother | hother
        · exact hsome other hother
        · rw [List.mem_singleton.mp hother, hfact.reason]
          rfl

theorem Sound.foldl_derive (hwhole : Intact whole) {facts : List Fact} (h : Sound whole assumed c)
    (hfacts : ∀ fact ∈ facts, ∃ r, Derivable whole c fact r) :
    Sound whole assumed (facts.foldl Cascade.derive c) := by
  induction facts generalizing c with
  | nil => exact h
  | cons fact facts ih =>
      obtain ⟨r, hr⟩ := hfacts fact List.mem_cons_self
      refine ih (h.derive hwhole hr) ?_
      intro other hother
      obtain ⟨s, hs⟩ := hfacts other (List.mem_cons_of_mem _ hother)
      refine ⟨s, hs.mem, hs.reason, ?_⟩
      rw [settled_derive]
      exact hs.forces

/-! ### One step -/

/-- The state after a fact has gone through all clauses, before new facts are derived. -/
def settle (c : Cascade) (fact : Fact) (rest : List Fact) : Cascade :=
  ⟨c.residuals.filterMap (·.after? fact), c.settled ++ [fact], rest⟩

theorem step?_of_pending {rest : List Fact} (h : c.pending = fact :: rest) :
    c.step? = some ((c.residuals.filterMap (·.unitAfter? fact)).foldl derive
      (c.settle fact rest)) := by
  unfold step?
  rw [h]
  rfl

theorem step?_eq_none_iff : c.step? = none ↔ c.pending = [] := by
  cases h : c.pending with
  | nil => simp [step?, h]
  | cons fact rest => simp [step?_of_pending h]

/-- What a step does. -/
theorem exists_of_step (hstep : c.step? = some c') : ∃ fact rest, c.pending = fact :: rest ∧
    c' = (c.residuals.filterMap (·.unitAfter? fact)).foldl derive (c.settle fact rest) := by
  cases hpending : c.pending with
  | nil =>
      rw [step?_eq_none_iff.mpr hpending] at hstep
      cases hstep
  | cons fact rest =>
      rw [step?_of_pending hpending] at hstep
      exact ⟨fact, rest, rfl, (Option.some.inj hstep).symm⟩

theorem known_settle {rest : List Fact} (h : c.pending = fact :: rest) :
    (c.settle fact rest).known = c.known := by
  simp [settle, known, h]

theorem unitAfter?_eq_some_iff {given : Fact} :
    r.unitAfter? fact = some given ↔ fact.reason ≠ some r.index ∧ fact.literal ∉ r.literals ∧
      -fact.literal ∈ r.literals ∧ ∃ u, r.literals.filter (· ≠ -fact.literal) = [u] ∧
        given = ⟨u, some r.index⟩ := by
  by_cases hreason : fact.reason = some r.index
  · simp [Residual.unitAfter?, Residual.simplifyBy, hreason]
  by_cases hmem : fact.literal ∈ r.literals
  · simp [Residual.unitAfter?, Residual.simplifyBy, hreason, simplify_literals, hmem]
  by_cases hneg : -fact.literal ∈ r.literals
  · unfold Residual.unitAfter?
    rw [Residual.simplifyBy_of_neg_mem hreason hmem hneg]
    simp only [Residual.unit?, ne_eq, hreason, hmem, hneg, not_false_eq_true, true_and]
    constructor
    · intro h
      split at h
      · next u hu => exact ⟨u, hu, (Option.some.inj h).symm⟩
      · cases h
    · rintro ⟨u, hu, rfl⟩
      rw [hu]
  · simp [Residual.unitAfter?, Residual.simplifyBy, hreason, simplify_literals, hmem, hneg]

theorem mem_residuals (h : Sound whole assumed c) {r' : Residual} :
    r' ∈ c.residuals ↔ ∃ r ∈ whole, r.remnant? c.settled = some r' := by
  rw [h.residuals_eq, List.mem_filterMap]

theorem index_residuals_sublist (h : Sound whole assumed c) :
    (c.residuals.map (·.index)).Sublist (whole.map (·.index)) := by
  rw [h.residuals_eq, List.map_filterMap]
  clear h
  induction whole with
  | nil => exact List.Sublist.refl _
  | cons r whole ih =>
      rw [List.map_cons]
      cases hr : r.remnant? c.settled with
      | none => simpa [hr] using ih.cons _
      | some r' => simpa [hr, Residual.index_of_remnant? hr] using ih

theorem Sound.forces_of_reason (hwhole : Intact whole) (h : Sound whole assumed c)
    (hfact : fact ∈ c.known) (hr : r ∈ whole) (hreason : fact.reason = some r.index) :
    Forces c.settled r fact.literal := by
  rcases List.mem_append.mp hfact with hsettled | hpending
  · exact h.grounded_settled.forces_of_reason hwhole hsettled hr hreason
  · exact h.forced fact hpending r hr hreason

theorem Sound.derivable (h : Sound whole assumed c) (rest : List Fact) {r' : Residual}
    (hr' : r' ∈ c.residuals) {given : Fact} (hgiven : r'.unitAfter? fact = some given) :
    ∃ r, Derivable whole (c.settle fact rest) given r := by
  obtain ⟨r, hr, hremnant⟩ := (mem_residuals h).mp hr'
  obtain ⟨-, hmem, hneg, u, hu, rfl⟩ := unitAfter?_eq_some_iff.mp hgiven
  have hindex := Residual.index_of_remnant? hremnant
  have hleft : ∀ l, l ∈ r.literals ∧ -l ∉ literalsOf c.settled ∧ l ≠ -fact.literal ↔ l = u := by
    intro l
    rw [← List.mem_singleton, ← hu, List.mem_filter, decide_eq_true_iff,
      Residual.mem_literals_of_remnant? hremnant, and_assoc]
  obtain ⟨humem, -, hune⟩ := (hleft u).mpr rfl
  have hnegmem : -fact.literal ∈ r.literals :=
    ((Residual.mem_literals_of_remnant? hremnant).mp hneg).1
  refine ⟨r, hr, congrArg some hindex, humem, ?_, ?_⟩
  · -- the literal just removed and the one left are two
    have hpair : [u, -fact.literal] ⊆ r.literals := by
      intro l hl
      rcases List.mem_pair.mp hl with rfl | rfl
      · exact humem
      · exact hnegmem
    have hnodup : [u, -fact.literal].Nodup := by simpa using hune
    exact hnodup.length_le_of_subset hpair
  · intro l hl hne
    by_contra hnot
    apply hne
    rw [← hleft l]
    refine ⟨hl, fun hknown => hnot ?_, fun heq => hnot ?_⟩
    · exact (literalsOf_append _ _).symm ▸ List.mem_append_left _ hknown
    · rw [settle, heq, Int32.neg_neg]
      simp

theorem Sound.settle (hwhole : Intact whole) (h : Sound whole assumed c) {rest : List Fact}
    (hpending : c.pending = fact :: rest) : Sound whole assumed (c.settle fact rest) := by
  have hknown := known_settle hpending
  refine ⟨hknown ▸ h.grounded, ?_, ?_, hknown ▸ h.known_eq⟩
  · intro other hother r hr hreason
    have hbefore := h.forced other (hpending ▸ List.mem_cons_of_mem _ hother) r hr hreason
    exact hbefore.mono fun l hl => (literalsOf_append _ _).symm ▸ List.mem_append_left _ hl
  · have hgrounded : Grounded whole (c.settled ++ [fact]) := by
      apply h.grounded.of_isPrefix
      rw [known, hpending]
      exact ⟨rest, by simp⟩
    have hresiduals := filterMap_remnant?_concat hwhole hgrounded
    rw [← h.residuals_eq] at hresiduals
    exact hresiduals

/-- **A step keeps the invariant.** -/
theorem Sound.step (hwhole : Intact whole) (h : Sound whole assumed c)
    (hstep : c.step? = some c') : Sound whole assumed c' := by
  obtain ⟨fact, rest, hpending, rfl⟩ := exists_of_step hstep
  apply (h.settle hwhole hpending).foldl_derive hwhole
  intro given hgiven
  obtain ⟨r', hr', hunit⟩ := List.mem_filterMap.mp hgiven
  exact h.derivable rest hr' hunit

theorem known_prefix_step (hstep : c.step? = some c') : c.known <+: c'.known := by
  obtain ⟨fact, rest, hpending, rfl⟩ := exists_of_step hstep
  rw [← known_settle hpending]
  exact known_prefix_foldl_derive _ _

/-- **A step heeds the clauses it shortens to one literal.** -/
theorem Saturated.step (h : c.Saturated) (hstep : c.step? = some c') : c'.Saturated := by
  have hpre := known_prefix_step hstep
  obtain ⟨fact, rest, hpending, rfl⟩ := exists_of_step hstep
  intro r' hr' hshort u hu
  rw [residuals_foldl_derive] at hr'
  obtain ⟨r, hr, hafter⟩ := List.mem_filterMap.mp hr'
  rcases Residual.eq_or_shortened_of_after? hafter with rfl | ⟨hreason, hmem, hneg, rfl⟩
  · exact (h r' hr hshort u hu).imp (literalsOf_mono hpre) (literalsOf_mono hpre)
  · have hgiven : r.unitAfter? fact = some ⟨u, some r.index⟩ :=
      unitAfter?_eq_some_iff.mpr ⟨hreason, hmem, hneg, u, hu, rfl⟩
    have hnew : ⟨u, some r.index⟩ ∈ c.residuals.filterMap (·.unitAfter? fact) :=
      List.mem_filterMap.mpr ⟨r, hr, hgiven⟩
    exact known_of_mem_foldl_derive hnew (c.settle fact rest)

/-! ### The whole run -/

theorem run_of_step (stop : Bool) (hstop : (stop && c.inConflict) = false)
    (hstep : c.step? = some c') : c.run stop = c'.run stop := by
  rw [run, if_neg (Bool.eq_false_iff.mp hstop)]
  split
  · next hnone =>
    rw [hstep] at hnone
    cases hnone
  · next d hsome =>
    rw [hstep] at hsome
    cases hsome
    rfl

/-- What holds at the start and is kept by every step that the run takes holds at the end. -/
theorem run_induction {P : Cascade → Prop} (stop : Bool)
    (hstep : ∀ c c', P c → (stop = true → c.inConflict = false) → c.step? = some c' → P c')
    (c : Cascade) (h : P c) : P (c.run stop) := by
  fun_induction run stop c with
  | case1 c hstop => exact h
  | case2 c hstop hnone => exact h
  | case3 c hstop c' hsome ih =>
      refine ih (hstep c c' h ?_ hsome)
      rintro rfl
      simpa using hstop

theorem run_halted (stop : Bool) (c : Cascade) :
    (c.run stop).pending = [] ∨ stop = true ∧ (c.run stop).inConflict = true := by
  fun_induction run stop c with
  | case1 c hstop =>
      rw [Bool.and_eq_true] at hstop
      exact .inr hstop
  | case2 c hstop hnone => exact .inl (step?_eq_none_iff.mp hnone)
  | case3 c hstop c' hsome ih => exact ih

theorem Sound.run (hwhole : Intact whole) (h : Sound whole assumed c) (stop : Bool) :
    Sound whole assumed (c.run stop) :=
  run_induction stop (fun _ _ hsound _ hstep => hsound.step hwhole hstep) c h

theorem Saturated.run (h : c.Saturated) (stop : Bool) : (c.run stop).Saturated :=
  run_induction stop (fun _ _ hsat _ hstep => hsat.step hstep) c h

theorem known_prefix_run (stop : Bool) (c : Cascade) : c.known <+: (c.run stop).known :=
  run_induction (P := fun d => c.known <+: d.known) stop
    (fun _ _ hpre _ hstep => hpre.trans (known_prefix_step hstep)) c (List.prefix_refl _)

theorem settled_of_step (hstep : c.step? = some c') : ∃ fact, c'.settled = c.settled ++ [fact] := by
  obtain ⟨fact, rest, hpending, rfl⟩ := exists_of_step hstep
  exact ⟨fact, settled_foldl_derive _ _⟩

theorem settled_prefix_run (stop : Bool) (c : Cascade) : c.settled <+: (c.run stop).settled :=
  run_induction (P := fun d => c.settled <+: d.settled) stop
    (fun _ _ hpre _ hstep => by
      obtain ⟨fact, hsettled⟩ := settled_of_step hstep
      exact hpre.trans (hsettled ▸ List.prefix_append _ _)) c (List.prefix_refl _)

/-- A run that stops at a conflict can be carried on to the end of the run that does not. -/
theorem run_false_run_true (c : Cascade) : (c.run true).run false = c.run false := by
  fun_induction run true c with
  | case1 c hstop => rfl
  | case2 c hstop hnone => rfl
  | case3 c hstop c' hsome ih =>
      rw [ih, run_of_step false (by simp) hsome]

theorem known_run_true_prefix (c : Cascade) : (c.run true).known <+: (c.run false).known := by
  rw [← run_false_run_true c]
  exact known_prefix_run false _

/-! ### Conflicts -/

theorem inConflict_iff (h : Sound whole assumed c) :
    c.inConflict = true ↔ Empties (whole.map (·.literals)) (literalsOf c.settled) := by
  have hgrounded := h.grounded_settled
  unfold inConflict Empties
  rw [List.any_eq_true]
  constructor
  · rintro ⟨r', hr', hempty⟩
    obtain ⟨r, hr, hremnant⟩ := (mem_residuals h).mp hr'
    rw [Bool.and_eq_true, List.isEmpty_iff] at hempty
    obtain ⟨l, hl, -⟩ := (Residual.isShortened_of_remnant? hremnant).mp hempty.1
    refine ⟨r.literals, List.mem_map_of_mem hr, List.ne_nil_of_mem hl, ?_⟩
    intro k hk
    by_contra hnot
    have hleft := (Residual.mem_literals_of_remnant? hremnant).mpr ⟨hk, hnot⟩
    rw [hempty.2] at hleft
    exact List.not_mem_nil hleft
  · rintro ⟨clause, hclause, hne, hall⟩
    obtain ⟨r, hr, rfl⟩ := List.mem_map.mp hclause
    have hopen : ∀ l ∈ r.literals, l ∉ literalsOf c.settled := by
      intro l hl hknown
      exact hgrounded.consistent hknown (hall l hl)
    obtain ⟨r', hremnant⟩ : ∃ r', r.remnant? c.settled = some r' :=
      ⟨_, Residual.remnant?_eq_some_iff.mpr ⟨.inr hopen, rfl⟩⟩
    refine ⟨r', (mem_residuals h).mpr ⟨r, hr, hremnant⟩, ?_⟩
    rw [Bool.and_eq_true, List.isEmpty_iff, Residual.isShortened_of_remnant? hremnant]
    constructor
    · obtain ⟨l, hl⟩ := List.exists_mem_of_ne_nil _ hne
      exact ⟨l, hl, hall l hl⟩
    · rw [List.eq_nil_iff_forall_not_mem]
      intro l hl
      rw [Residual.mem_literals_of_remnant? hremnant] at hl
      exact hl.2 (hall l hl.1)

/-- No clause was emptied before the last fact was settled. -/
def Prompt (clauses : List (List Literal)) (c : Cascade) : Prop :=
  ∀ earlier, earlier <+: c.settled → earlier ≠ c.settled → ¬Empties clauses (literalsOf earlier)

/-- A run that stops at conflicts takes no step beyond the first. -/
theorem Prompt.run (hwhole : Intact whole) (h : Sound whole assumed c)
    (hprompt : c.Prompt (whole.map (·.literals))) :
    (c.run true).Prompt (whole.map (·.literals)) := by
  refine (run_induction (P := fun d => Sound whole assumed d ∧ d.Prompt (whole.map (·.literals)))
    true ?_ c ⟨h, hprompt⟩).2
  rintro d d' ⟨hsound, hd⟩ hfree hstep
  refine ⟨hsound.step hwhole hstep, ?_⟩
  obtain ⟨fact, hsettled⟩ := settled_of_step hstep
  intro earlier hearlier hne
  rw [hsettled] at hearlier hne
  rcases List.prefix_concat_iff.mp hearlier with heq | hpre
  · exact (hne heq).elim
  · by_cases heq : earlier = d.settled
    · rw [heq, ← inConflict_iff hsound, hfree rfl]
      exact Bool.false_ne_true
    · exact hd earlier hpre heq

end Cascade
end Refutation.Reduction
