import Refutation.Proofs.Confluence

/-! # Reducing in two stages

A trace may be reduced under some assumptions, and the result be reduced under more.  Unless there
is a conflict this leaves the clauses that a single reduction under all the assumptions leaves, and
the literals derived are the same (`reduce_in_stages`).

The first stage turns literals into unit clauses, which the second does not heed.  Nothing is lost
by this, since the first stage has run to its end: a clause that forces a literal once the first
closure is known has no literal of this closure, and had at least two literals left
(`closure_append_iff`).  What is left of the clauses that force nothing is the same in one step and
in two (`leftOver_leftOver`). -/

namespace Refutation

theorem Trace.filterMap_clause?_indices (t : Trace) :
    t.indices.filterMap t.clause? = t.clauses.toList := by
  have hlookup : t.indices.map t.clause? = t.clauses.toList.map some := by
    apply List.ext_getElem
    · simp [indices, size]
    · intro n hn _
      simp only [indices, size, List.length_map, List.length_range'] at hn
      simp [indices, clause?, Nat.add_comm, hn]
  calc t.indices.filterMap t.clause? = (t.indices.map t.clause?).filterMap id := by
        rw [List.filterMap_map]
        rfl
    _ = t.clauses.toList := by
        rw [hlookup, List.filterMap_map]
        exact List.filterMap_some

namespace Reduction

/-! ### Closures in two stages -/

/-- A first stage has found the closure of some assumptions, and has left of the clauses those
without a known literal, shortened, and unit clauses of known literals. -/
structure FirstStage (clauses : List (List Literal)) (A known : List Literal)
    (left : List (List Literal)) : Prop where
  mem_known : ∀ l, l ∈ known ↔ Closure clauses A l
  mem_left : ∀ ls ∈ left, ls ∈ leftOver known clauses ∨ ∃ u ∈ known, [u] = ls
  leftOver_sub : ∀ ls ∈ leftOver known clauses, ls ∈ left

section stages

variable {clauses left : List (List Literal)} {A B known : List Literal} {l : Literal}
  (h : FirstStage clauses A known left)
include h

theorem FirstStage.closure_append (hl : l ∈ known) : Closure clauses (A ++ B) l :=
  ((h.mem_known l).mp hl).mono fun _ hk => List.mem_append_left _ hk

theorem FirstStage.closure_of_left (hl : Closure left B l) : Closure clauses (A ++ B) l := by
  induction hl with
  | assumed hl => exact .assumed (List.mem_append_right _ hl)
  | @derived l ls hls hsize hl _ ih =>
      cases h.mem_left ls hls with
      | inr hunit =>
          obtain ⟨u, -, rfl⟩ := hunit
          simp at hsize
      | inl hleft =>
          obtain ⟨clause, hclause, -, rfl⟩ := mem_leftOver.mp hleft
          have hsize' : 2 ≤ clause.length := Nat.le_trans hsize (List.length_filter_le _ _)
          refine .derived hclause hsize' (List.mem_of_mem_filter hl) fun u hu hne => ?_
          by_cases hdenied : -u ∈ known
          · exact h.closure_append hdenied
          · exact ih u (List.mem_filter.mpr ⟨hu, decide_eq_true hdenied⟩) hne

theorem FirstStage.mem_of_closure_left (hl : Closure left B l) (hknown : l ∈ known) : l ∈ B := by
  cases hl with
  | assumed hl => exact hl
  | @derived _ ls hls hsize hl _ =>
      cases h.mem_left ls hls with
      | inr hunit =>
          obtain ⟨u, -, rfl⟩ := hunit
          simp at hsize
      | inl hleft =>
          obtain ⟨clause, -, hopen, rfl⟩ := mem_leftOver.mp hleft
          exact (hopen l (List.mem_of_mem_filter hl) hknown).elim

variable (hpeace : ¬Clashes clauses (A ++ B))
include hpeace

omit h in
theorem not_closure_neg (hl : Closure clauses (A ++ B) l) : ¬Closure clauses (A ++ B) (-l) :=
  fun hneg => hpeace (.inl ⟨l, hl, hneg⟩)

theorem FirstStage.known_or_closure_left (hl : Closure clauses (A ++ B) l) :
    l ∈ known ∨ Closure left B l := by
  induction hl with
  | assumed hl =>
      cases List.mem_append.mp hl with
      | inl hA => exact .inl ((h.mem_known _).mpr (.assumed hA))
      | inr hB => exact .inr (.assumed hB)
  | @derived l clause hclause hsize hl hrest ih =>
      by_cases hknown : l ∈ known
      · exact .inl hknown
      have hopen : ∀ u ∈ clause, u ∉ known := by
        intro u hu hmem
        by_cases hul : u = l
        · exact hknown (hul ▸ hmem)
        · exact not_closure_neg hpeace (h.closure_append hmem) (hrest u hu hul)
      have hneg : -l ∉ known := fun hmem =>
        not_closure_neg hpeace (.derived hclause hsize hl hrest) (h.closure_append hmem)
      have hleft := h.leftOver_sub _ (mem_leftOver.mpr ⟨clause, hclause, hopen, rfl⟩)
      have hmem : ∀ u, u ∈ (clause.filter fun k => -k ∉ known) ↔ u ∈ clause ∧ -u ∉ known := by
        intro u
        rw [List.mem_filter, decide_eq_true_iff]
      by_cases hsize' : 2 ≤ (clause.filter fun k => -k ∉ known).length
      · refine .inr (.derived hleft hsize' ((hmem l).mpr ⟨hl, hneg⟩) fun u hu hne => ?_)
        obtain ⟨hu, hdenied⟩ := (hmem u).mp hu
        exact (ih u hu hne).resolve_left hdenied
      · -- all other literals were denied in the first stage, which then has found the literal
        refine .inl ((h.mem_known l).mpr (.derived hclause hsize hl fun u hu hne => ?_))
        rw [← h.mem_known]
        by_contra hdenied
        apply hne
        obtain ⟨x, hx⟩ : ∃ x, (clause.filter fun k => -k ∉ known) = [x] := by
          apply List.length_eq_one_iff.mp
          have hpos := List.length_pos_of_mem ((hmem l).mpr ⟨hl, hneg⟩)
          omega
        have hux := (hmem u).mpr ⟨hu, hdenied⟩
        have hlx := (hmem l).mpr ⟨hl, hneg⟩
        rw [hx, List.mem_singleton] at hux hlx
        rw [hux, hlx]

/-- **The closure in two stages.** -/
theorem FirstStage.closure_append_iff :
    Closure clauses (A ++ B) l ↔ l ∈ known ∨ Closure left B l := by
  constructor
  · exact h.known_or_closure_left hpeace
  · intro hl
    cases hl with
    | inl hknown => exact h.closure_append hknown
    | inr hleft => exact h.closure_of_left hleft

theorem FirstStage.not_clashes_left : ¬Clashes left B := by
  intro hclash
  cases hclash with
  | inl hpair =>
      obtain ⟨l, hl, hneg⟩ := hpair
      exact not_closure_neg hpeace (h.closure_of_left hl) (h.closure_of_left hneg)
  | inr hempty =>
      obtain ⟨ls, hls, hne, hall⟩ := hempty
      cases h.mem_left ls hls with
      | inr hunit =>
          obtain ⟨u, hu, rfl⟩ := hunit
          exact not_closure_neg hpeace (h.closure_append hu)
            (h.closure_of_left (hall u (by simp)))
      | inl hleft =>
          obtain ⟨clause, hclause, -, rfl⟩ := mem_leftOver.mp hleft
          have hne' : clause ≠ [] := by
            rintro rfl
            exact hne rfl
          refine hpeace (.inr ⟨clause, hclause, hne', fun l hl => ?_⟩)
          by_cases hdenied : -l ∈ known
          · exact h.closure_append hdenied
          · exact h.closure_of_left (hall l (List.mem_filter.mpr ⟨hl, decide_eq_true hdenied⟩))

/-- The literals derived at once are those of the first stage that were not assumed in the second,
and those of the second. -/
theorem FirstStage.derived_iff :
    Closure clauses (A ++ B) l ∧ l ∉ A ++ B ↔
      (l ∈ known ∧ l ∉ A) ∧ l ∉ B ∨ Closure left B l ∧ l ∉ B := by
  rw [h.closure_append_iff hpeace, List.mem_append, not_or]
  constructor
  · rintro ⟨hl, hA, hB⟩
    cases hl with
    | inl hknown => exact .inl ⟨⟨hknown, hA⟩, hB⟩
    | inr hleft => exact .inr ⟨hleft, hB⟩
  · intro hl
    cases hl with
    | inl hfirst => exact ⟨.inl hfirst.1.1, hfirst.1.2, hfirst.2⟩
    | inr hsecond =>
        refine ⟨.inr hsecond.1, fun hA => hsecond.2 ?_, hsecond.2⟩
        exact h.mem_of_closure_left hsecond.1 ((h.mem_known l).mpr (.assumed hA))

end stages

/-! ### What two stages leave -/

section leftOver

variable {clauses : List (List Literal)} {known more units : List Literal}

/-- Two stages leave what a single one leaves, if the second finds no complement of a literal of the
first. -/
theorem leftOver_leftOver (hconsistent : ∀ l ∈ more, -l ∉ known) :
    leftOver more (leftOver known clauses) = leftOver (known ++ more) clauses := by
  have hopen : ∀ clause : List Literal, ((clause.filter fun l => -l ∉ known).all (· ∉ more) &&
      clause.all (· ∉ known)) = clause.all (· ∉ known ++ more) := by
    intro clause
    rw [Bool.eq_iff_iff, Bool.and_eq_true]
    simp only [List.all_eq_true, List.mem_filter, decide_eq_true_iff, List.mem_append, not_or]
    constructor
    · rintro ⟨hmore, hknown⟩ l hl
      exact ⟨hknown l hl, fun hmem => hmore l ⟨hl, hconsistent l hmem⟩ hmem⟩
    · intro hall
      exact ⟨fun l hl => (hall l hl.1).2, fun l hl => (hall l hl).1⟩
  have hshort : ∀ clause : List Literal,
      (clause.filter fun l => -l ∉ known).filter (fun l => -l ∉ more) =
        clause.filter fun l => -l ∉ known ++ more := by
    intro clause
    rw [List.filter_filter]
    apply List.filter_congr
    intro l _
    rw [Bool.eq_iff_iff, Bool.and_eq_true]
    simp only [decide_eq_true_iff, List.mem_append, not_or]
    exact and_comm
  unfold leftOver
  rw [List.filter_map, List.filter_filter, List.map_map]
  simp only [Function.comp_def, hopen, hshort]

theorem leftOver_append (known : List Literal) (clauses clauses' : List (List Literal)) :
    leftOver known (clauses ++ clauses') = leftOver known clauses ++ leftOver known clauses' := by
  simp [leftOver]

theorem leftOver_perm {clauses' : List (List Literal)} (h : clauses.Perm clauses') :
    (leftOver known clauses).Perm (leftOver known clauses') :=
  (h.filter _).map _

theorem leftOver_units (hconsistent : ∀ u ∈ units, -u ∉ known) :
    leftOver known (units.map ([·])) = (units.filter (· ∉ known)).map ([·]) := by
  unfold leftOver
  rw [List.filter_map, List.map_map]
  have hopen : ((fun clause : List Literal => clause.all (· ∉ known)) ∘ fun u => [u]) =
      fun u => decide (u ∉ known) := by
    funext u
    simp
  rw [hopen]
  apply List.map_congr_left
  intro u hu
  simp [hconsistent u (List.mem_of_mem_filter hu)]

/-- **What two stages leave**, apart from the order of the clauses: what a single one leaves, with
the unit clauses of the first that the second does not drop, and those of the second. -/
theorem perm_leftOver_leftOver {left left' : List (List Literal)} {units' : List Literal}
    (h : left.Perm (leftOver known clauses ++ units.map ([·])))
    (h' : left'.Perm (leftOver more left ++ units'.map ([·])))
    (hunits : ∀ u ∈ units, u ∈ known) (hconsistent : ∀ l ∈ known ++ more, -l ∉ known ++ more) :
    left'.Perm (leftOver (known ++ more) clauses ++
      (units.filter (· ∉ more) ++ units').map ([·])) := by
  have hmore : ∀ l ∈ more, -l ∉ known := fun l hl hneg =>
    hconsistent l (List.mem_append_right _ hl) (List.mem_append_left _ hneg)
  have hknown : ∀ u ∈ units, -u ∉ more := fun u hu hneg =>
    hconsistent u (List.mem_append_left _ (hunits u hu)) (List.mem_append_right _ hneg)
  have hleft : (leftOver more left).Perm
      (leftOver (known ++ more) clauses ++ (units.filter (· ∉ more)).map ([·])) := by
    rw [← leftOver_leftOver hmore, ← leftOver_units hknown, ← leftOver_append]
    exact leftOver_perm h
  rw [List.map_append, ← List.append_assoc]
  exact h'.trans (hleft.append_right _)

end leftOver

/-! ### Two reductions -/

section reductions

variable {options options' : Options} {t : Trace} {A B : List Literal} {r : ReducedTrace}

theorem scopeLiterals_of_whole (hcore : options.coreOnly.value = false) :
    scopeLiterals options t = t.clauses.toList.map (·.literals) := by
  rw [scopeLiterals, scope_of_whole hcore, ← t.filterMap_clause?_indices, List.map_filterMap]

theorem foundConflict_eq_false_iff (ht : t.WellFormed) (hr : t.reduce options A = .ok r) :
    r.foundConflict = false ↔ ¬Clashes (scopeLiterals options t) A := by
  obtain ⟨hproper, rfl⟩ := reduce_eq_ok_iff.mp hr
  rw [← foundConflict_iff_clashes options ht hproper, Bool.not_eq_true]

/-- A reduction of a trace without a conflict, and the literals its cascade knows. -/
structure Peaceful (options : Options) (t : Trace) (A : List Literal) (r : ReducedTrace)
    (known : List Literal) : Prop where
  mem_known : ∀ l, l ∈ known ↔ Closure (scopeLiterals options t) A l
  mem_derived : ∀ l, l ∈ r.derived.map Prod.fst ↔ l ∈ known ∧ l ∉ A
  nodup_derived : (r.derived.map Prod.fst).Nodup
  consistent : ∀ l ∈ known, -l ∉ known
  perm : (r.clauses.toList.map (·.literals)).Perm
    (leftOver known (scopeLiterals options t) ++ (r.derived.map Prod.fst).map ([·]))

theorem exists_peaceful (ht : t.WellFormed) (hr : t.reduce options A = .ok r)
    (hpeace : ¬Clashes (scopeLiterals options t) A) : ∃ known, Peaceful options t A r known := by
  obtain ⟨hproper, rfl⟩ := reduce_eq_ok_iff.mp hr
  have hgrounded := (sound_cascade_eraseDups ht options hproper).grounded
  refine ⟨literalsOf (cascade options t A.eraseDups).known, ?_, ?_, ?_, ?_, ?_⟩
  · intro l
    exact mem_literalsOf_known_iff ht hproper hpeace
  · intro l
    rw [map_derived_rebuild, mem_givenLiterals_iff_closure ht hproper hpeace,
      mem_literalsOf_known_iff ht hproper hpeace]
  · rw [map_derived_rebuild]
    exact nodup_givenLiterals hgrounded
  · exact fun l hl => hgrounded.consistent hl
  · rw [map_derived_rebuild]
    exact perm_leftOver_rebuild ht hproper hpeace _

theorem Peaceful.firstStage {known : List Literal} (h : Peaceful options t A r known)
    (hcore : options'.coreOnly.value = false) :
    FirstStage (scopeLiterals options t) A known (scopeLiterals options' r.toTrace) := by
  rw [scopeLiterals_of_whole hcore]
  refine ⟨h.mem_known, fun ls hls => ?_, fun ls hls => ?_⟩
  · rw [h.perm.mem_iff, List.mem_append, List.mem_map] at hls
    refine hls.imp_right fun hunit => ?_
    obtain ⟨u, hu, rfl⟩ := hunit
    exact ⟨u, ((h.mem_derived u).mp hu).1, rfl⟩
  · rw [h.perm.mem_iff]
    exact List.mem_append_left _ hls

end reductions

/-! ### Reductions in two stages -/

/-- One reduction under the assumptions `A ++ B`, one under `A`, and one of its result under `B`,
none of which finds a conflict, with the literals that their cascades know. -/
structure Staged (options options₁ options₂ : Options) (t : Trace) (A B : List Literal)
    (r r₁ r₂ : ReducedTrace) (known known₁ known₂ : List Literal) : Prop where
  once : Peaceful options t (A ++ B) r known
  first : Peaceful options₁ t A r₁ known₁
  second : Peaceful options₂ r₁.toTrace B r₂ known₂
  stage : FirstStage (scopeLiterals options t) A known₁ (scopeLiterals options₂ r₁.toTrace)
  peace : ¬Clashes (scopeLiterals options t) (A ++ B)
  scope_eq : scopeLiterals options₁ t = scopeLiterals options t
  whole : options₂.coreOnly.value = false

namespace Staged

variable {options options₁ options₂ : Options} {t : Trace} {A B : List Literal}
  {r r₁ r₂ : ReducedTrace} {known known₁ known₂ : List Literal}
  (h : Staged options options₁ options₂ t A B r r₁ r₂ known known₁ known₂)
include h

theorem mem_known_iff (l : Literal) : l ∈ known ↔ l ∈ known₁ ++ known₂ := by
  rw [h.once.mem_known, h.stage.closure_append_iff h.peace, List.mem_append, h.second.mem_known]

theorem mem_derived_iff (u : Literal) : u ∈ r.derived.map Prod.fst ↔
    (u ∈ r₁.derived.map Prod.fst ∧ u ∉ B) ∨ u ∈ r₂.derived.map Prod.fst := by
  rw [h.once.mem_derived, h.first.mem_derived, h.second.mem_derived, h.once.mem_known,
    h.second.mem_known]
  exact h.stage.derived_iff h.peace

theorem mem_known₂_iff {u : Literal} (hu : u ∈ r₁.derived.map Prod.fst) : u ∈ known₂ ↔ u ∈ B := by
  constructor
  · intro hmem
    exact h.stage.mem_of_closure_left ((h.second.mem_known u).mp hmem)
      ((h.first.mem_derived u).mp hu).1
  · exact fun hmem => (h.second.mem_known u).mpr (.assumed hmem)

theorem perm_derived :
    ((r₁.derived.map Prod.fst).filter (· ∉ known₂) ++ r₂.derived.map Prod.fst).Perm
      (r.derived.map Prod.fst) := by
  have hnodup : ((r₁.derived.map Prod.fst).filter (· ∉ known₂) ++
      r₂.derived.map Prod.fst).Nodup := by
    refine List.nodup_append.mpr ⟨h.first.nodup_derived.filter _, h.second.nodup_derived, ?_⟩
    intro u hu w hw heq
    rw [List.mem_filter, decide_eq_true_iff] at hu
    rw [← heq] at hw
    exact hu.2 ((h.second.mem_derived u).mp hw).1
  rw [List.perm_ext_iff_of_nodup hnodup h.once.nodup_derived]
  intro u
  rw [List.mem_append, List.mem_filter, decide_eq_true_iff, h.mem_derived_iff]
  exact or_congr_left (and_congr_right fun hu => not_congr (h.mem_known₂_iff hu))

theorem perm_clauses :
    (r₂.clauses.toList.map (·.literals)).Perm (r.clauses.toList.map (·.literals)) := by
  have hfirst := h.first.perm
  rw [h.scope_eq] at hfirst
  have hsecond := h.second.perm
  rw [scopeLiterals_of_whole h.whole] at hsecond
  have hconsistent : ∀ l ∈ known₁ ++ known₂, -l ∉ known₁ ++ known₂ := by
    intro l hl
    rw [← h.mem_known_iff] at hl ⊢
    exact h.once.consistent l hl
  refine (perm_leftOver_leftOver hfirst hsecond
    (fun u hu => ((h.first.mem_derived u).mp hu).1) hconsistent).trans ?_
  rw [leftOver_congr fun l => (h.mem_known_iff l).symm]
  exact ((h.perm_derived.map _).append_left _).trans h.once.perm.symm

end Staged

variable {t : Trace} {A B : List Literal}

/-- **Reducing in two stages is reducing at once.**  If the reduction of a whole trace under the
assumptions `A` and `B` finds no conflict, then neither does the reduction under `A`, nor the
reduction of its result under `B`.  The two stages leave the same clauses as the one, up to their
order, and the literals derived at once are those of the first stage that are not in `B` and those
of the second. -/
theorem reduce_in_stages (options options₁ options₂ : Options) (ht : t.Obtained)
    (hcore : options.coreOnly.value = false) (hcore₁ : options₁.coreOnly.value = false)
    (hcore₂ : options₂.coreOnly.value = false) (hA : ∀ l ∈ A, l.Proper)
    (hB : ∀ l ∈ B, l.Proper) :
    ∃ r r₁ r₂, t.reduce options (A ++ B) = .ok r ∧ t.reduce options₁ A = .ok r₁ ∧
      r₁.toTrace.reduce options₂ B = .ok r₂ ∧
      (r.foundConflict = false →
        r₁.foundConflict = false ∧ r₂.foundConflict = false ∧
        (r₂.clauses.toList.map (·.literals)).Perm (r.clauses.toList.map (·.literals)) ∧
        ∀ u, u ∈ r.derived.map Prod.fst ↔
          (u ∈ r₁.derived.map Prod.fst ∧ u ∉ B) ∨ u ∈ r₂.derived.map Prod.fst) := by
  have hwf := ht.wellFormed
  have hAB : ∀ l ∈ A ++ B, l.Proper := fun l hl =>
    (List.mem_append.mp hl).elim (hA l) (hB l)
  obtain ⟨r, hr⟩ : ∃ r, t.reduce options (A ++ B) = .ok r := ⟨_, reduce_eq_ok options t hAB⟩
  obtain ⟨r₁, hr₁⟩ : ∃ r₁, t.reduce options₁ A = .ok r₁ := ⟨_, reduce_eq_ok options₁ t hA⟩
  obtain ⟨r₂, hr₂⟩ : ∃ r₂, r₁.toTrace.reduce options₂ B = .ok r₂ :=
    ⟨_, reduce_eq_ok options₂ r₁.toTrace hB⟩
  have hwf₁ := (Trace.Obtained.reduce ht hr₁).wellFormed
  refine ⟨r, r₁, r₂, hr, hr₁, hr₂, fun hfound => ?_⟩
  have hscope : scopeLiterals options₁ t = scopeLiterals options t :=
    scopeLiterals_congr (hcore₁.trans hcore.symm)
  have hpeace : ¬Clashes (scopeLiterals options t) (A ++ B) :=
    (foundConflict_eq_false_iff hwf hr).mp hfound
  have hpeace₁ : ¬Clashes (scopeLiterals options₁ t) A := by
    rw [hscope]
    exact fun hclash => hpeace (hclash.mono fun l hl => List.mem_append_left _ hl)
  obtain ⟨known, h⟩ := exists_peaceful hwf hr hpeace
  obtain ⟨known₁, h₁⟩ := exists_peaceful hwf hr₁ hpeace₁
  have hstage : FirstStage (scopeLiterals options t) A known₁ (scopeLiterals options₂ r₁.toTrace) :=
    hscope ▸ h₁.firstStage hcore₂
  have hpeace₂ : ¬Clashes (scopeLiterals options₂ r₁.toTrace) B := hstage.not_clashes_left hpeace
  obtain ⟨known₂, h₂⟩ := exists_peaceful hwf₁ hr₂ hpeace₂
  have hstaged : Staged options options₁ options₂ t A B r r₁ r₂ known known₁ known₂ :=
    ⟨h, h₁, h₂, hstage, hpeace, hscope, hcore₂⟩
  exact ⟨(foundConflict_eq_false_iff hwf hr₁).mpr hpeace₁,
    (foundConflict_eq_false_iff hwf₁ hr₂).mpr hpeace₂, hstaged.perm_clauses,
    hstaged.mem_derived_iff⟩

/-- A case of `reduce_in_stages`: assuming `¬1` derives `2` and `3`, of which the second stage
assumes `3` and drops its unit clause. -/
theorem reduce_in_stages_sample :
    Trace.sample.Obtained ∧ (∀ l ∈ ([-1] : List Literal), l.Proper) ∧
      (∀ l ∈ ([3] : List Literal), l.Proper) ∧
      ∃ r r₁ r₂, Trace.sample.reduce .standard ([-1] ++ [3]) = .ok r ∧
        Trace.sample.reduce .standard [-1] = .ok r₁ ∧
        r₁.toTrace.reduce .standard [3] = .ok r₂ ∧ r.foundConflict = false ∧
        r.derived.map Prod.fst = [2] ∧ r₁.derived.map Prod.fst = [2, 3] ∧
        r₂.foundConflict = false ∧
        (r₂.clauses.toList.map (·.literals)).Perm (r.clauses.toList.map (·.literals)) ∧
        (3 ∈ r.derived.map Prod.fst ↔
          (3 ∈ r₁.derived.map Prod.fst ∧ 3 ∉ ([3] : List Literal)) ∨
            3 ∈ r₂.derived.map Prod.fst) := by
  have hA : ∀ l ∈ ([-1] : List Literal), l.Proper := assumptionFault?_eq_none_iff.mp rfl
  have hB : ∀ l ∈ ([3] : List Literal), l.Proper := assumptionFault?_eq_none_iff.mp rfl
  obtain ⟨r, r₁, r₂, hr, hr₁, hr₂, hstages⟩ := reduce_in_stages .standard .standard .standard
    Trace.sample_obtained rfl rfl rfl hA hB
  have hrun : (Trace.sample.reduce .standard ([-1] ++ [3])).map
      (fun r => (r.foundConflict, r.derived.map Prod.fst)) = .ok (false, [2]) := by
    decide +kernel
  have hrun₁ : (Trace.sample.reduce .standard [-1]).map (·.derived.map Prod.fst) = .ok [2, 3] := by
    decide +kernel
  rw [hr] at hrun
  rw [hr₁] at hrun₁
  obtain ⟨hfound, hderived⟩ := Prod.mk.inj (Except.ok.inj hrun)
  obtain ⟨-, hfound₂, hperm, hliterals⟩ := hstages hfound
  exact ⟨Trace.sample_obtained, hA, hB, r, r₁, r₂, hr, hr₁, hr₂, hfound, hderived,
    Except.ok.inj hrun₁, hfound₂, hperm, hliterals 3⟩

end Reduction
end Refutation
