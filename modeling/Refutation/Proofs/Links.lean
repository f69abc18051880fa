import Refutation.Proofs.Confluence

/-! # The antecedents of reduced clauses

A reduced clause is listed with what remains of the antecedents it had, and then, if reasons are
linked, with the earlier unit clauses that shortened it.  Which these are can be told from the
reduced trace and the trace reduced alone: what remains has a new index, found by the origins
(`ReducedTrace.newIndex?`), and a derived literal has shortened the clause if its complement was in
the clause and is not any more (`ReducedTrace.removers`).  Since literals are propagated in the
order derived, the derived literals are also in the order in which they removed anything
(`filter_known_eq_removedBy`).

`reduce_antecedents` gives the list of antecedents in these terms.  Whether reasons are linked makes
a difference to these lists only, each of which is prolonged by the links. -/

namespace Refutation

/-! ### New indices and links, as the reduced trace shows them -/

namespace ReducedTrace

/-- The new index of a clause of the trace reduced, if something is left of the clause. -/
def newIndex? (r : ReducedTrace) (i : Nat) : Option Nat :=
  r.indices.find? fun k => (r.origin? k).bind Origin.source? == some i

/-- The derived literals that removed a literal from a clause, with their unit clauses, in the order
derived: their complements were among the literals `before`, and are not among those `after`. -/
def removers (r : ReducedTrace) (before after : List Literal) : List (Literal × Option Nat) :=
  r.derived.filter fun entry => decide (-entry.1 ∈ before ∧ -entry.1 ∉ after)

/-- The unit clauses of the literals that removed a literal from the clause at index `i` of the
trace reduced, as far as they are left of clauses before that clause. -/
def links (r : ReducedTrace) (i : Nat) (before after : List Literal) : List Nat :=
  (r.removers before after).filterMap fun entry =>
    entry.2.filter fun k => ((r.origin? k).bind Origin.source?).any (· < i)

end ReducedTrace

namespace Reduction

/-! ### One clause -/

section clause

variable {link : Bool} {options : Options} {t : Trace} {assumptions assumed : List Literal}
  {c : Cascade} {r : Residual} {d : Clause} {i k : Nat}

theorem source?_rebuild_iff :
    ((rebuild link t assumptions c).origin? k).bind Origin.source? = some i ↔
      ∃ r, Stands c.residuals (firstNumber assumptions) k r ∧ r.index = i := by
  rw [Option.bind_eq_some_iff]
  constructor
  · rintro ⟨o, ho, hsource⟩
    rcases origin?_rebuild.mp ho with ⟨-, -, rfl⟩ | ⟨r, hstands, rfl⟩
    · cases hsource
    · rw [r.source?_origin] at hsource
      exact ⟨r, hstands, Option.some.inj hsource⟩
  · rintro ⟨r, hstands, rfl⟩
    exact ⟨_, origin?_of_stands hstands, r.source?_origin⟩

variable (ht : t.WellFormed) (hsound : c.Sound (wholeClauses options t) assumed)
include hsound

/-- **The known literals that removed a literal from a clause**, in the order in which they did.  A
literal that has not been propagated has removed nothing. -/
theorem filter_known_eq_removedBy (hr : r ∈ c.residuals) (hd : t.clause? r.index = some d) :
    c.known.filter (fun fact => decide (-fact.literal ∈ d.literals ∧ -fact.literal ∉ r.literals)) =
      r.removedBy := by
  obtain ⟨-, hremnant⟩ := whole_of_mem_residuals hsound hr hd
  have hlost : ∀ fact : Fact, (-fact.literal ∈ d.literals ∧ -fact.literal ∉ r.literals) ↔
      -fact.literal ∈ d.literals ∧ fact.literal ∈ literalsOf c.settled := by
    intro fact
    rw [Residual.mem_literals_of_remnant? hremnant, Int32.neg_neg]
    exact and_congr_right fun hmem => by
      rw [not_and, not_not]
      exact ⟨fun h => h hmem, fun h _ => h⟩
  have hpending : c.pending.filter (fun fact =>
      decide (-fact.literal ∈ d.literals ∧ -fact.literal ∉ r.literals)) = [] := by
    rw [List.filter_eq_nil_iff]
    intro fact hfact hremoves
    rw [decide_eq_true_iff, hlost] at hremoves
    exact hsound.not_mem_settled hfact hremoves.2
  have hsettled : c.settled.filter (fun fact =>
      decide (-fact.literal ∈ d.literals ∧ -fact.literal ∉ r.literals)) =
        c.settled.filter (fun fact => -fact.literal ∈ d.literals) := by
    apply List.filter_congr
    intro fact hfact
    rw [decide_eq_decide, hlost]
    exact and_iff_left (literal_mem_literalsOf hfact)
  rw [Cascade.known, List.filter_append, hpending, List.append_nil, hsettled,
    ← (Residual.remnant?_eq_some_iff.mp hremnant).2]
  rfl

variable (link assumptions) in
theorem removers_rebuild (hr : r ∈ c.residuals) (hd : t.clause? r.index = some d) :
    (rebuild link t assumptions c).removers d.literals r.literals =
      r.removedBy.filterMap fun fact =>
        fact.reason.map fun i => (fact.literal, number? assumptions c i) := by
  rw [ReducedTrace.removers, derived_rebuild, List.filter_filterMap,
    ← filter_known_eq_removedBy hsound hr hd, List.filterMap_filter]
  apply List.filterMap_congr
  intro fact _
  cases hreason : fact.reason with
  | none => simp
  | some i => simp [Option.filter]

include ht

variable (link assumptions) in
theorem newIndex?_rebuild (i : Nat) :
    (rebuild link t assumptions c).newIndex? i = number? assumptions c i := by
  have hstands : ∀ k, (((rebuild link t assumptions c).origin? k).bind Origin.source? == some i) =
      true ↔ number? assumptions c i = some k := by
    intro k
    rw [beq_iff_eq, source?_rebuild_iff, number?_eq_some_iff ht hsound]
  unfold ReducedTrace.newIndex?
  cases hfind : (rebuild link t assumptions c).indices.find? _ with
  | some k =>
      have hsource := List.find?_some hfind
      exact ((hstands k).mp hsource).symm
  | none =>
      rw [List.find?_eq_none] at hfind
      rw [eq_comm, Option.eq_none_iff_forall_ne_some]
      intro k hk
      obtain ⟨r, hr, -⟩ := (number?_eq_some_iff ht hsound).mp hk
      exact hfind k (Trace.mem_indices_of_clause? (clause?_of_stands hr)) ((hstands k).mpr hk)

variable (link assumptions) in
theorem links_rebuild (hr : r ∈ c.residuals) (hd : t.clause? r.index = some d) :
    (rebuild link t assumptions c).links r.index d.literals r.literals =
      ((r.removedBy.filterMap (·.reason)).filter (· < r.index)).filterMap
        (number? assumptions c) := by
  rw [ReducedTrace.links, removers_rebuild link assumptions hsound hr hd,
    List.filterMap_filterMap, List.filterMap_filter, List.filterMap_filterMap]
  apply List.filterMap_congr
  intro fact hfact
  have hknown : fact ∈ c.known := by
    rw [← filter_known_eq_removedBy hsound hr hd] at hfact
    exact List.mem_of_mem_filter hfact
  cases hreason : fact.reason with
  | none => rfl
  | some j =>
      obtain ⟨k, r', hstands, rfl, -, -⟩ :=
        exists_stands_of_reason assumptions ht hsound hknown hreason
      have hnumber : number? assumptions c r'.index = some k :=
        (number?_eq_some_iff ht hsound).mpr ⟨r', hstands, rfl⟩
      have hsource : ((rebuild link t assumptions c).origin? k).bind Origin.source? =
          some r'.index := source?_rebuild_iff.mpr ⟨r', hstands, rfl⟩
      simp [hnumber, hsource, Option.filter]

variable (link assumptions) in
/-- **The antecedents of a reduced clause**: what remains of those it had, and the links. -/
theorem antecedents_rebuild (hr : r ∈ c.residuals) (hd : t.clause? r.index = some d) :
    r.antecedents link t (number? assumptions c) =
      (d.antecedents.filterMap (rebuild link t assumptions c).newIndex? ++
        if link then (rebuild link t assumptions c).links r.index d.literals r.literals
          else []).eraseDups := by
  have hnew : (rebuild link t assumptions c).newIndex? = number? assumptions c :=
    funext fun i => newIndex?_rebuild link assumptions ht hsound i
  rw [Residual.antecedents, Trace.antecedents_eq hd, List.filterMap_append, hnew,
    links_rebuild link assumptions ht hsound hr hd]
  cases link with
  | true => rfl
  | false => rfl

end clause

/-! ### With and without links -/

section options

variable {options options' : Options} {t : Trace} {assumptions : List Literal} {c : Cascade}

theorem cascade_congr (hstop : options'.stopOnConflict.value = options.stopOnConflict.value)
    (hcore : options'.coreOnly.value = options.coreOnly.value) (assumptions : List Literal) :
    cascade options' t assumptions = cascade options t assumptions := by
  unfold cascade
  rw [hstop, scope_congr hcore]

/-- **Links prolong the lists of antecedents.** -/
theorem antecedents_prefix_link (link : Bool) (t : Trace) (assumptions : List Literal) (c : Cascade)
    (k : Nat) : (rebuild false t assumptions c).antecedents k <+:
      (rebuild link t assumptions c).antecedents k := by
  rcases antecedents_rebuild_eq_nil_or t assumptions c k with hnil | ⟨r, -, hlisted⟩
  · rw [hnil]
    exact List.nil_prefix
  · rw [hlisted, hlisted]
    simp only [Residual.antecedents, Bool.false_eq_true, if_false, List.append_nil,
      List.filterMap_append]
    exact eraseDups_prefix_append _ _

end options

/-! ### The antecedents of a reduction -/

variable {t : Trace} {assumptions : List Literal}

/-- **The antecedents of reduced clauses.**  What is left of a clause is listed with the new indices
of those antecedents of the clause of which something is left, in the order recorded, and then, if
reasons are linked, with the earlier unit clauses of the derived literals that removed a literal
from it, in the order in which the cascade removed them; each once, and all of them earlier clauses.

Another reduction that differs in whether reasons are linked gives the same literals, origins,
assumptions and derived literals, and lists of antecedents that the links prolong. -/
theorem reduce_antecedents (options : Options) (ht : t.Obtained)
    (hproper : ∀ l ∈ assumptions, l.Proper) :
    ∃ r, t.reduce options assumptions = .ok r ∧
      (∀ k i, (r.origin? k = some (.kept i) ∨ r.origin? k = some (.simplified i)) →
        ∃ c d, r.clause? k = some c ∧ t.clause? i = some d ∧
          c.antecedents = (d.antecedents.filterMap r.newIndex? ++
            if options.linkUnitReasons.value then r.links i d.literals c.literals
              else []).eraseDups ∧
          (∀ a ∈ c.antecedents, a < k) ∧
          ∃ left ∈ (cascade options t assumptions.eraseDups).residuals, left.index = i ∧
            (r.removers d.literals c.literals).map Prod.fst = givenLiterals left.removedBy) ∧
      ∀ options', options'.stopOnConflict.value = options.stopOnConflict.value →
        options'.coreOnly.value = options.coreOnly.value →
          ∃ r', t.reduce options' assumptions = .ok r' ∧
            r'.clauses.toList.map (·.literals) = r.clauses.toList.map (·.literals) ∧
            r'.origins = r.origins ∧ r'.assumptions = r.assumptions ∧ r'.derived = r.derived ∧
            (options.linkUnitReasons.value = false →
              ∀ k, r.antecedents k <+: r'.antecedents k) := by
  have hwf := ht.wellFormed
  have hsound := sound_cascade_eraseDups hwf options hproper
  have hreduce := reduce_eq_ok options t hproper
  have hwf' := (Trace.Obtained.reduce ht hreduce).wellFormed
  refine ⟨_, hreduce, fun k i horigin => ?_, fun options' hstop hcore => ?_⟩
  · obtain ⟨left, hstands, rfl⟩ := exists_stands_of_origin horigin
    obtain ⟨d, -, hd, -⟩ := exists_clause_of_mem_residuals hsound hstands.mem
    refine ⟨_, d, clause?_of_stands hstands, hd,
      antecedents_rebuild _ _ hwf hsound hstands.mem hd,
      (hwf' k _ (clause?_of_stands hstands)).antecedent_lt, left, hstands.mem, rfl, ?_⟩
    rw [removers_rebuild _ _ hsound hstands.mem hd, map_fst_filterMap_reason]
  · refine ⟨_, reduce_eq_ok options' t hproper, ?_, ?_, rfl, ?_, fun hlink k => ?_⟩
    · rw [map_literals_rebuild, map_literals_rebuild, cascade_congr hstop hcore]
    · rw [cascade_congr hstop hcore]
      rfl
    · rw [cascade_congr hstop hcore]
      rfl
    · rw [cascade_congr hstop hcore, hlink]
      exact antecedents_prefix_link _ _ _ _ k

/-- The clauses `1 ∨ 2`, `¬2 ∨ 3 ∨ 4 ∨ 7` and `¬3 ∨ 6`, and a resolvent of the last two. -/
def renumberedSample : Trace :=
  ⟨#[⟨[1, 2], []⟩, ⟨[-2, 3, 4, 7], []⟩, ⟨[-3, 6], []⟩, ⟨[-2, 4, 6, 7], [2, 3]⟩]⟩

theorem renumberedSample_obtained : renumberedSample.Obtained :=
  Trace.obtained_iff_wellFormed.mpr (by decide)

/-- A case of `reduce_antecedents` in which a clause loses one of its two antecedents and is linked
to a unit clause: under `¬1` and `¬3` the third clause is satisfied, and `2`, given by the first
clause, shortens the last clause, which has index 3 now. -/
theorem reduce_antecedents_renumberedSample :
    renumberedSample.Obtained ∧ (∀ l ∈ ([-1, -3] : List Literal), l.Proper) ∧
      Options.standard.stopOnConflict.value = Options.unlinked.stopOnConflict.value ∧
      Options.standard.coreOnly.value = Options.unlinked.coreOnly.value ∧
      Options.unlinked.linkUnitReasons.value = false ∧
      ∃ r r', renumberedSample.reduce .unlinked [-1, -3] = .ok r ∧
        renumberedSample.reduce .standard [-1, -3] = .ok r' ∧
        r.origin? 3 = some (.simplified 4) ∧ r'.origins = r.origins ∧
        r.antecedents 3 = [2] ∧ r'.antecedents 3 = [2, 1] ∧
        ∀ k, r.antecedents k <+: r'.antecedents k := by
  have hproper : ∀ l ∈ ([-1, -3] : List Literal), l.Proper := assumptionFault?_eq_none_iff.mp rfl
  obtain ⟨r, hr, -, hlinks⟩ :=
    reduce_antecedents .unlinked renumberedSample_obtained hproper
  obtain ⟨r', hr', -, horigins, -, -, hprolonged⟩ := hlinks .standard rfl rfl
  have hrun : (renumberedSample.reduce .unlinked [-1, -3]).map
      (fun r => (r.origin? 3, r.antecedents 3)) = .ok (some (.simplified 4), [2]) := by
    decide +kernel
  have hrun' : (renumberedSample.reduce .standard [-1, -3]).map (·.antecedents 3) =
      .ok [2, 1] := by
    decide +kernel
  rw [hr] at hrun
  rw [hr'] at hrun'
  obtain ⟨horigin, hshort⟩ := Prod.mk.inj (Except.ok.inj hrun)
  exact ⟨renumberedSample_obtained, hproper, rfl, rfl, rfl, r, r', hr, hr', horigin, horigins,
    hshort, Except.ok.inj hrun', hprolonged rfl⟩

end Reduction
end Refutation
