import Refutation.Proofs.Rebuild

/-! # The closed form of a reduction

The clauses of a reduced trace can be told without the cascade, from the literals that were
propagated and the reasons that the reduced trace records (`remainder?`):

* of the clause that gave a propagated literal the literal alone is left,
* any other clause that contains a propagated literal is gone, and
* what remains loses the literals of which the complement was propagated.

`reduce_closedForm` is the statement about whole traces.  It also says which literals were
propagated: all that became known or, if the reduction stops at conflicts, those up to the first
that emptied a clause. -/

namespace Refutation

/-! ### The closed form -/

/-- The literal, out of some known ones, that a reduced trace derived by the clause at an index of
the trace it was reduced from. -/
def ReducedTrace.givenBy? (r : ReducedTrace) (known : List Literal) (i : Nat) : Option Literal :=
  (r.derived.find? fun d =>
    decide (d.1 ∈ known) && decide (d.2.bind r.origin? = some (.simplified i))).map Prod.fst

namespace Reduction

/-- What known literals leave of the clause at an index, together with its origin, if the clause
gave the literal `given?`. -/
def remainder? (given? : Option Literal) (known : List Literal) (i : Nat)
    (literals : List Literal) : Option (List Literal × Origin) :=
  match given? with
  | some u => some ([u], .simplified i)
  | none =>
      if literals.any (· ∈ known) then none
      else
        let left := literals.filter fun l => -l ∉ known
        some (left, if left = literals then .kept i else .simplified i)

/-- The literals and origins of a reduced trace, clause by clause: an empty clause if the
assumptions contradict one another, and what remains of the clauses at some indices. -/
def closedForm (t : Trace) (assumptions : List Literal) (indices : List Nat) (r : ReducedTrace)
    (known : List Literal) : List (List Literal × Origin) :=
  (if contradictory assumptions then [([], .contradiction)] else []) ++
    indices.filterMap fun i =>
      (t.clause? i).bind fun d => remainder? (r.givenBy? known i) known i d.literals

/-! ### The clauses that gave facts -/

section reasons

variable {whole : List Residual} {facts : List Fact} {fact other : Fact} {i : Nat}

theorem Grounded.literal_eq_of_reason (hwhole : Intact whole) (h : Grounded whole facts)
    (hfact : fact ∈ facts) (hother : other ∈ facts) (hreason : fact.reason = some i)
    (hsame : other.reason = some i) : other.literal = fact.literal := by
  obtain ⟨r, hr, rfl, hforces⟩ := h.forced hfact hreason
  have hforces' := h.forces_of_reason hwhole hother hr hsame
  by_contra hne
  exact h.consistent (literal_mem_literalsOf hother) (hforces.others _ hforces'.mem hne)

end reasons

/-! ### Recorded reasons -/

section recorded

variable {link : Bool} {options : Options} {t : Trace} {assumptions assumed : List Literal}
  {c : Cascade} {fact : Fact} {r : Residual} {u : Literal} {i j : Nat}

theorem derived_rebuild : (rebuild link t assumptions c).derived = c.known.filterMap fun fact =>
    fact.reason.map fun i => (fact.literal, number? assumptions c i) := rfl

theorem mem_derived_rebuild {d : Literal × Option Nat} :
    d ∈ (rebuild link t assumptions c).derived ↔ ∃ fact ∈ c.known, ∃ i,
      fact.reason = some i ∧ (fact.literal, number? assumptions c i) = d := by
  simp only [derived_rebuild, List.mem_filterMap, Option.map_eq_some_iff]

variable (ht : t.WellFormed) (hsound : c.Sound (wholeClauses options t) assumed)
include ht hsound

/-- The clause that gave a fact stays, for it contains no settled literal but the one it gave. -/
theorem exists_remnant_of_reason (hfact : fact ∈ c.known) (hr : r ∈ wholeClauses options t)
    (hreason : fact.reason = some r.index) :
    ∃ r', r.remnant? c.settled = some r' ∧ r'.literals = [fact.literal] ∧
      r'.isShortened = true := by
  have hwhole := intact_wholeClauses ht options
  have hforces := hsound.forces_of_reason hwhole hfact hr hreason
  have hnodup := hwhole.nodup r hr
  have hfree : -fact.literal ∉ literalsOf c.settled := by
    intro hneg
    apply hsound.grounded.consistent (literal_mem_literalsOf hfact)
    exact Cascade.mem_literalsOf_known.mpr (.inl hneg)
  have hstay : r.index ∈ reasonsOf c.settled ∨ ∀ l ∈ r.literals, l ∉ literalsOf c.settled := by
    rcases List.mem_append.mp hfact with hsettled | hpending
    · exact .inl (mem_reasonsOf.mpr ⟨fact, hsettled, hreason⟩)
    · refine .inr fun l hl hknown => ?_
      by_cases hlu : l = fact.literal
      · exact hsound.not_mem_settled hpending (hlu ▸ hknown)
      · exact hsound.grounded_settled.consistent hknown (hforces.others l hl hlu)
  exact Residual.exists_remnant_of_forces hforces hnodup hfree hstay

variable (assumptions) in
theorem exists_stands_of_reason (hfact : fact ∈ c.known) (hreason : fact.reason = some j) :
    ∃ k r', Stands c.residuals (firstNumber assumptions) k r' ∧ r'.index = j ∧
      r'.literals = [fact.literal] ∧ r'.isShortened = true := by
  obtain ⟨r, hr, rfl, -⟩ := hsound.grounded.forced hfact hreason
  obtain ⟨r', hremnant, hliterals, hshort⟩ := exists_remnant_of_reason ht hsound hfact hr hreason
  have hr' : r' ∈ c.residuals := (Cascade.mem_residuals hsound).mpr ⟨r, hr, hremnant⟩
  obtain ⟨k, hstands⟩ := exists_stands (firstNumber assumptions) hr'
  exact ⟨k, r', hstands, Residual.index_of_remnant? hremnant, hliterals, hshort⟩

variable (link assumptions) in
/-- **The reason recorded for a derived literal** is what is left of the clause that gave it. -/
theorem origin?_number? (hfact : fact ∈ c.known) (hreason : fact.reason = some j) :
    j ∈ scope options t ∧
      (number? assumptions c j).bind (rebuild link t assumptions c).origin? =
        some (.simplified j) := by
  obtain ⟨k, r', hstands, rfl, -, hshort⟩ :=
    exists_stands_of_reason assumptions ht hsound hfact hreason
  have hnumber : number? assumptions c r'.index = some k :=
    (number?_eq_some_iff ht hsound).mpr ⟨r', hstands, rfl⟩
  constructor
  · obtain ⟨d, hscope, -⟩ := exists_clause_of_mem_residuals hsound hstands.mem
    exact hscope
  · rw [hnumber, Option.bind_some, origin?_of_shortened hstands hshort]

variable (link assumptions) in
theorem gives_iff {d : Literal × Option Nat} :
    (d ∈ (rebuild link t assumptions c).derived ∧ d.1 ∈ literalsOf c.settled ∧
        d.2.bind (rebuild link t assumptions c).origin? = some (.simplified i)) ↔
      ∃ fact ∈ c.settled, fact.reason = some i ∧ (fact.literal, number? assumptions c i) = d := by
  rw [mem_derived_rebuild]
  constructor
  · rintro ⟨⟨fact, hfact, j, hreason, rfl⟩, hsettled, horigin⟩
    have hj := (origin?_number? link assumptions ht hsound hfact hreason).2
    rw [hj] at horigin
    obtain rfl : j = i := by simpa using horigin
    refine ⟨fact, ?_, hreason, rfl⟩
    rcases List.mem_append.mp hfact with hfact | hpending
    · exact hfact
    · exact (hsound.not_mem_settled hpending hsettled).elim
  · rintro ⟨fact, hfact, hreason, rfl⟩
    have hknown : fact ∈ c.known := List.mem_append_left _ hfact
    exact ⟨⟨fact, hknown, i, hreason, rfl⟩, literal_mem_literalsOf hfact,
      (origin?_number? link assumptions ht hsound hknown hreason).2⟩

theorem givenBy?_of_reason (hfact : fact ∈ c.settled) (hreason : fact.reason = some i) :
    (rebuild link t assumptions c).givenBy? (literalsOf c.settled) i = some fact.literal := by
  have hgives := (gives_iff link assumptions ht hsound).mpr
    ⟨fact, hfact, hreason, rfl⟩
  unfold ReducedTrace.givenBy?
  cases hfind : (rebuild link t assumptions c).derived.find? _ with
  | none =>
      rw [List.find?_eq_none] at hfind
      have hnot := hfind _ hgives.1
      simp [hgives.2.1, hgives.2.2] at hnot
  | some d =>
      have haccepted := List.find?_some hfind
      rw [Bool.and_eq_true, decide_eq_true_iff, decide_eq_true_iff] at haccepted
      obtain ⟨other, hother, hsame, rfl⟩ :=
        (gives_iff link assumptions ht hsound).mp ⟨List.mem_of_find?_eq_some hfind, haccepted⟩
      rw [Option.map_some, hsound.grounded_settled.literal_eq_of_reason
        (intact_wholeClauses ht options) hfact hother hreason hsame]

theorem givenBy?_of_not_mem (h : i ∉ reasonsOf c.settled) :
    (rebuild link t assumptions c).givenBy? (literalsOf c.settled) i = none := by
  unfold ReducedTrace.givenBy?
  rw [Option.map_eq_none_iff, List.find?_eq_none]
  intro d hd haccepted
  rw [Bool.and_eq_true, decide_eq_true_iff, decide_eq_true_iff] at haccepted
  obtain ⟨fact, hfact, hreason, -⟩ := (gives_iff link assumptions ht hsound).mp ⟨hd, haccepted⟩
  exact h (mem_reasonsOf.mpr ⟨fact, hfact, hreason⟩)

/-- **The closed form of one clause.** -/
theorem map_remnant? (hr : r ∈ wholeClauses options t) :
    (r.remnant? c.settled).map (fun r' => (r'.literals, r'.origin)) =
      remainder? ((rebuild link t assumptions c).givenBy? (literalsOf c.settled) r.index)
        (literalsOf c.settled) r.index r.literals := by
  by_cases hreason : r.index ∈ reasonsOf c.settled
  · obtain ⟨fact, hfact, hgave⟩ := mem_reasonsOf.mp hreason
    obtain ⟨r', hremnant, hliterals, hshort⟩ :=
      exists_remnant_of_reason ht hsound (List.mem_append_left _ hfact) hr hgave
    rw [givenBy?_of_reason ht hsound hfact hgave, hremnant, Option.map_some, hliterals,
      Residual.origin, if_pos hshort, Residual.index_of_remnant? hremnant]
    rfl
  · have hany : r.literals.any (· ∈ literalsOf c.settled) = true ↔
        ∃ l ∈ r.literals, l ∈ literalsOf c.settled := by
      simp
    rw [givenBy?_of_not_mem ht hsound hreason]
    cases hremnant : r.remnant? c.settled with
    | none =>
        obtain ⟨-, hgone⟩ := Residual.remnant?_eq_none_iff.mp hremnant
        exact (if_pos (hany.mpr hgone)).symm
    | some r' =>
        have hopen := (Residual.remnant?_eq_some_iff.mp hremnant).1.resolve_left hreason
        have hstay : ¬r.literals.any (· ∈ literalsOf c.settled) = true := by
          rw [hany]
          rintro ⟨l, hl, hknown⟩
          exact hopen l hl hknown
        have hkept : r.literals.filter (fun l => -l ∉ literalsOf c.settled) = r.literals ↔
            ¬r'.isShortened = true := by
          rw [Residual.isShortened_of_remnant? hremnant, List.filter_eq_self]
          simp
        show _ = if _ then _ else _
        rw [if_neg hstay, Option.map_some, Residual.literals_of_remnant? hremnant,
          Residual.origin, Residual.index_of_remnant? hremnant]
        by_cases hshort : r'.isShortened = true
        · rw [if_pos hshort, if_neg (fun h => hkept.mp h hshort)]
        · rw [if_neg hshort, if_pos (hkept.mpr hshort)]

variable (link assumptions) in
theorem map_residuals :
    c.residuals.map (fun r' => (r'.literals, r'.origin)) = (scope options t).filterMap fun i =>
      (t.clause? i).bind fun d =>
        remainder? ((rebuild link t assumptions c).givenBy? (literalsOf c.settled) i)
          (literalsOf c.settled) i d.literals := by
  rw [hsound.residuals_eq, List.map_filterMap, wholeClauses, List.filterMap_filterMap]
  apply List.filterMap_congr
  intro i hi
  cases hd : t.clause? i with
  | none => rfl
  | some d =>
      have hr : Residual.ofClause i d ∈ wholeClauses options t :=
        mem_wholeClauses.mpr ⟨i, hi, d, hd, rfl⟩
      exact map_remnant? ht hsound hr

variable (link assumptions) in
/-- **The clauses of the rebuilt trace have the closed form.** -/
theorem rebuild_closedForm :
    (rebuild link t assumptions c).clauses.toList.map (·.literals) =
        (closedForm t assumptions (scope options t) (rebuild link t assumptions c)
          (literalsOf c.settled)).map Prod.fst ∧
      (rebuild link t assumptions c).origins.toList =
        (closedForm t assumptions (scope options t) (rebuild link t assumptions c)
          (literalsOf c.settled)).map Prod.snd := by
  have hfront : (if contradictory assumptions then [([], Origin.contradiction)] else []) =
      (leading assumptions).map fun d => (d.literals, Origin.contradiction) := by
    unfold leading
    split
    · rfl
    · rfl
  unfold closedForm
  rw [hfront, ← map_residuals link assumptions ht hsound, List.map_append, List.map_append,
    List.map_map, List.map_map, List.map_map, List.map_map]
  constructor
  · rw [map_literals_rebuild]
    rfl
  · show (leading assumptions).map _ ++ c.residuals.map _ = _
    rfl

end recorded

/-! ### The literals propagated -/

section propagated

variable {link : Bool} {options : Options} {t : Trace} {assumptions : List Literal}
  {whole : List Residual} {assumed : List Literal} {c : Cascade}

/-- The facts that a cascade derived are listed in order, each with the new index of the clause that
gave it. -/
theorem exists_derived_facts (link : Bool) (t : Trace) (assumptions : List Literal)
    (hsound : c.Sound whole assumed) :
    ∃ facts : List Fact, c.known = assumed.map (⟨·, none⟩) ++ facts ∧
      (∀ fact ∈ facts, fact.reason.isSome) ∧
      (rebuild link t assumptions c).derived =
        facts.map fun fact => (fact.literal, fact.reason.bind (number? assumptions c)) := by
  obtain ⟨facts, hknown, hsome⟩ := hsound.known_eq
  refine ⟨facts, hknown, hsome, ?_⟩
  have hassumed : (assumed.map fun l => Fact.mk l none).filterMap (fun fact =>
      fact.reason.map fun i => (fact.literal, number? assumptions c i)) = [] := by
    rw [List.filterMap_map]
    exact List.filterMap_eq_nil_iff.mpr fun _ _ => rfl
  have hfacts : ∀ fact ∈ facts, (fact.reason.map fun i =>
      (fact.literal, number? assumptions c i)) =
        some (fact.literal, fact.reason.bind (number? assumptions c)) := by
    intro fact hfact
    obtain ⟨i, hi⟩ := Option.isSome_iff_exists.mp (hsome fact hfact)
    rw [hi]
    rfl
  rw [derived_rebuild, hknown, List.filterMap_append, hassumed, List.nil_append,
    List.filterMap_congr hfacts, List.filterMap_eq_map']

theorem literalsOf_known (link : Bool) (t : Trace) (assumptions : List Literal)
    (hsound : c.Sound whole assumed) : literalsOf c.known =
      assumed ++ (rebuild link t assumptions c).derived.map Prod.fst := by
  obtain ⟨facts, hknown, -, hderived⟩ := exists_derived_facts link t assumptions hsound
  rw [hknown, hderived, literalsOf_append, literalsOf_map_assumed, List.map_map]
  rfl

theorem literalsOf_settled_isPrefix (c : Cascade) :
    literalsOf c.settled <+: literalsOf c.known := by
  rw [Cascade.known, literalsOf_append]
  exact List.prefix_append _ _

theorem settled_eq_known (hstop : options.stopOnConflict.value = false) :
    (cascade options t assumptions).settled = (cascade options t assumptions).known := by
  have hpending : (cascade options t assumptions).pending = [] := by
    rcases cascade_halted options t assumptions
      with h | ⟨h, -⟩
    · exact h
    · rw [hstop] at h
      cases h
  rw [Cascade.known, hpending, List.append_nil]

/-- No shorter list of propagated literals empties a clause. -/
theorem Cascade.Prompt.not_empties {clauses : List (List Literal)} (h : c.Prompt clauses)
    {ls : List Literal} (hls : ls <+: literalsOf c.settled) (hne : ls ≠ literalsOf c.settled) :
    ¬Empties clauses ls := by
  have htake : ls = literalsOf (c.settled.take ls.length) := by
    rw [literalsOf, List.map_take]
    exact List.prefix_iff_eq_take.mp hls
  rw [htake] at hne ⊢
  apply h _ (List.take_prefix _ _)
  rintro heq
  rw [heq] at hne
  exact hne rfl

/-- **Where a reduction stops**: with the first literal that empties a clause, or with the last of
all known literals if none does. -/
theorem settled_of_stop (ht : t.WellFormed) (hproper : ∀ l ∈ assumptions, l.Proper)
    (hnodup : assumptions.Nodup) (hstop : options.stopOnConflict.value = true)
    (hcontra : ¬contradictory assumptions = true) :
    let c := cascade options t assumptions
    (Empties (scopeLiterals options t) (literalsOf c.settled) ∧
        ∀ ls, ls <+: literalsOf c.known → Empties (scopeLiterals options t) ls →
          literalsOf c.settled <+: ls) ∨
      literalsOf c.settled = literalsOf c.known ∧
        ∀ ls, ls <+: literalsOf c.known → ¬Empties (scopeLiterals options t) ls := by
  intro c
  have hprompt : c.Prompt (scopeLiterals options t) := prompt_cascade ht hproper hnodup hstop
  have hconflict : c.inConflict = true ↔
      Empties (scopeLiterals options t) (literalsOf c.settled) := by
    rw [← map_literals_wholeClauses]
    exact Cascade.inConflict_iff (sound_cascade ht hproper hnodup)
  by_cases hempties : Empties (scopeLiterals options t) (literalsOf c.settled)
  · refine .inl ⟨hempties, fun ls hls hls' => ?_⟩
    rcases List.prefix_or_prefix_of_prefix hls (literalsOf_settled_isPrefix c) with h | h
    · by_cases heq : ls = literalsOf c.settled
      · exact heq ▸ List.prefix_refl _
      · exact (hprompt.not_empties h heq hls').elim
    · exact h
  · have hpending : c.pending = [] := by
      rcases cascade_halted options t assumptions
        with h | ⟨-, h | h⟩
      · exact h
      · exact (hcontra h).elim
      · exact (hempties (hconflict.mp h)).elim
    have hall : literalsOf c.settled = literalsOf c.known := by
      rw [Cascade.known, hpending, List.append_nil]
    refine .inr ⟨hall, fun ls hls => ?_⟩
    by_cases heq : ls = literalsOf c.settled
    · rwa [heq]
    · exact hprompt.not_empties (hall ▸ hls) heq

end propagated

/-! ### The closed form of a reduction -/

variable {t : Trace} {assumptions : List Literal}

/-- **The exact result of a reduction.**  Every derived literal has a recorded reason, and the
clauses of the reduced trace are the closed form for the literals propagated, which are a first
part of the accepted assumptions and the derived literals:

* everything, if the reduction does not stop at conflicts;
* nothing, if it does and the assumptions contradict one another;
* otherwise the shortest part that empties a clause, or everything if no part does. -/
theorem reduce_closedForm (options : Options) (ht : t.Obtained)
    (hproper : ∀ l ∈ assumptions, l.Proper) :
    ∃ r indices, t.reduce options assumptions = .ok r ∧
      indices.Pairwise (· < ·) ∧ (∀ i, i ∈ indices ↔ InScope options t i) ∧
      (∀ d ∈ r.derived, ∃ i ∈ indices, d.2.bind r.origin? = some (.simplified i)) ∧
      ∃ known, known = accepted assumptions.eraseDups ++ r.derived.map Prod.fst ∧
      ∃ propagated, propagated <+: known ∧
        r.clauses.toList.map (·.literals) =
          (closedForm t assumptions indices r propagated).map Prod.fst ∧
        r.origins.toList = (closedForm t assumptions indices r propagated).map Prod.snd ∧
        (options.stopOnConflict.value = false → propagated = known) ∧
        (options.stopOnConflict.value = true → (∃ l ∈ assumptions, -l ∈ assumptions) →
          propagated = []) ∧
        (options.stopOnConflict.value = true → (¬∃ l ∈ assumptions, -l ∈ assumptions) →
          (Empties (scopeLiterals options t) propagated ∧
              ∀ ls, ls <+: known → Empties (scopeLiterals options t) ls → propagated <+: ls) ∨
            propagated = known ∧ ∀ ls, ls <+: known → ¬Empties (scopeLiterals options t) ls) := by
  have hwf := ht.wellFormed
  have hsound := sound_cascade_eraseDups hwf options hproper
  have hknown := literalsOf_known options.linkUnitReasons.value t assumptions.eraseDups hsound
  have hcontra : contradictory assumptions.eraseDups = true ↔
      ∃ l ∈ assumptions, -l ∈ assumptions := by
    rw [contradictory_eraseDups, contradictory_iff]
  have hform := rebuild_closedForm options.linkUnitReasons.value assumptions.eraseDups hwf hsound
  have hsame : ∀ r known, closedForm t assumptions.eraseDups (scope options t) r known =
      closedForm t assumptions (scope options t) r known := by
    intro r known
    rw [closedForm, contradictory_eraseDups]
    rfl
  rw [hsame] at hform
  refine ⟨_, scope options t, reduce_eq_ok options t hproper, pairwise_lt_scope options t,
    fun i => mem_scope_iff hwf, ?_, _, rfl,
    literalsOf (cascade options t assumptions.eraseDups).settled, ?_, hform.1, hform.2, ?_, ?_, ?_⟩
  · intro d hd
    obtain ⟨fact, hfact, i, hreason, rfl⟩ := mem_derived_rebuild.mp hd
    exact ⟨i, origin?_number? _ _ hwf hsound hfact hreason⟩
  · rw [← hknown]
    exact literalsOf_settled_isPrefix _
  · intro hstop
    rw [← hknown, settled_eq_known hstop]
  · intro hstop hex
    rw [cascade_eq_start hstop (hcontra.mpr hex)]
    rfl
  · intro hstop hex
    rw [← hknown]
    exact settled_of_stop hwf (fun l hl => hproper l (List.mem_eraseDups.mp hl))
      (nodup_eraseDups _) hstop (fun h => hex (hcontra.mp h))

/-- A case of `reduce_closedForm` that stops before the derived literal `2` is propagated: the
assumptions `¬1` and `¬3` empty the clause `1 ∨ 3`. -/
theorem reduce_closedForm_sample :
    Trace.sample.Obtained ∧ (∀ l ∈ ([-1, -3] : List Literal), l.Proper) ∧
      ∃ r indices, Trace.sample.reduce .standard [-1, -3] = .ok r ∧
        (∀ i, i ∈ indices ↔ InScope .standard Trace.sample i) ∧
        r.derived.map Prod.fst = [2] ∧
        ∃ propagated, propagated <+: [-1, -3, 2] ∧
          r.clauses.toList.map (·.literals) =
            (closedForm Trace.sample [-1, -3] indices r propagated).map Prod.fst ∧
          r.origins.toList =
            (closedForm Trace.sample [-1, -3] indices r propagated).map Prod.snd ∧
          Empties (scopeLiterals .standard Trace.sample) propagated := by
  have hproper : ∀ l ∈ ([-1, -3] : List Literal), l.Proper :=
    assumptionFault?_eq_none_iff.mp rfl
  have hfree : ¬∃ l ∈ ([-1, -3] : List Literal), -l ∈ ([-1, -3] : List Literal) := by
    rw [← contradictory_iff]
    decide
  obtain ⟨r, indices, hr, -, hindices, -, known, hknown, propagated, hpre, hliterals, horigins, -,
    -, hstop⟩ := reduce_closedForm .standard Trace.sample_obtained hproper
  have hderived : r.derived.map Prod.fst = [2] := by
    have hrun : (Trace.sample.reduce .standard [-1, -3]).map (·.derived.map Prod.fst) =
        .ok [2] := by
      decide +kernel
    rw [hr] at hrun
    exact Except.ok.inj hrun
  have haccepted : accepted ([-1, -3] : List Literal).eraseDups = [-1, -3] := by decide +kernel
  rw [haccepted, hderived] at hknown
  have hempties : Empties (scopeLiterals .standard Trace.sample) known := by
    refine ⟨[1, 3], ?_, by decide, ?_⟩
    · decide +kernel
    · intro l hl
      rw [hknown]
      rcases List.mem_pair.mp hl with rfl | rfl
      · decide
      · decide
  refine ⟨Trace.sample_obtained, hproper, r, indices, hr, hindices, hderived, propagated, ?_,
    hliterals, horigins, ?_⟩
  · rw [hknown] at hpre
    exact hpre
  · rcases hstop rfl hfree with ⟨h, -⟩ | ⟨-, h⟩
    · exact h
    · exact (h known (List.prefix_refl _) hempties).elim

end Reduction
end Refutation
