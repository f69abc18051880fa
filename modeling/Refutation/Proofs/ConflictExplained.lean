import Refutation.Proofs.Explained
import Refutation.Proofs.Justification

/-! # What the explanation of a conflict refutes

The axioms of an explanation are the leaves of its tree.  The explanation of a conflict is to show
that the assumptions contradict them, and does so if every unit clause of the cascade that shortened
a clause of the explanation is in the explanation as well.  A unit clause may be missing, for a
clause is linked to the unit clauses that shortened it only if these are earlier clauses; one that
comes later is in the explanation only if something else uses it (`LateUnit`).

A valuation that makes the assumptions true and satisfies the leaves therefore makes false the
literal of some late unit (`explainConflict_unsatisfiable`), and where there is a late unit it may
exist (`not_explainConflict_unsatisfiable`).

The proof follows the cascade.  A shortened clause has the derivation of the whole clause in its
copy, so that the leaves satisfy the whole clause; and the literals it has lost are false, since
their complements were assumed, belong to late units, or became known earlier through unit clauses
of the explanation. -/

namespace Refutation

/-! ### Leaves -/

/-- A valuation satisfies the leaves of a tree: the nodes without antecedents. -/
def ProofTree.LeavesSatisfied (p : ProofTree) (v : Valuation) : Prop :=
  ∀ key c, p.node? key = some c → c.isAxiom = true → Satisfies v c.literals

namespace Explains

variable {full : Trace} {reduced : ReducedTrace} {source? : Nat → Option Nat} {i k source : Nat}
  {p : ProofTree} {node : Nat → Nat} {copy : Nat → Nat → Nat} {v : Valuation}

/-- The leaves of a copy are axioms of the full trace, and entail all that is copied. -/
theorem satisfiedAt_source (h : Explains full reduced source? i p node copy)
    (hfull : full.WellFormed) (hjust : full.Justified) (hleaves : p.LeavesSatisfied v)
    (hk : reduced.graph.Uses i k) (hsource : source? k = some source) :
    full.SatisfiedAt v source := by
  have hall : ∀ j, full.graph.Uses source j → full.SatisfiedAt v j := by
    intro j
    induction j using Nat.strongRecOn with
    | ind j ih =>
        intro hj d hd
        obtain ⟨c, hc, hcopy⟩ := (h.copied k source hk hsource).clause?_name j hj
        rw [Trace.clause?_graph, hd] at hc
        cases hc
        cases hax : d.isAxiom with
        | true =>
            have hleaf : (d.rename (copy k)).isAxiom = true := by
              simpa [Clause.isAxiom, Clause.rename] using hax
            rw [ProofTree.clause?_graph] at hcopy
            exact hleaves _ (d.rename (copy k)) hcopy hleaf
        | false =>
            apply hjust j d hd hax v
            intro a ha
            have hstep : a ∈ full.graph.antecedents j := by
              rwa [ClauseGraph.antecedents_of_clause? hd]
            exact ih a ((hfull j d hd).antecedent_lt a ha) (.tail hj hstep)
  exact hall source (.refl source)

theorem satisfies_of_leaf (h : Explains full reduced source? i p node copy)
    (hleaves : p.LeavesSatisfied v) (hk : reduced.graph.Uses i k) (hsource : source? k = none)
    {c : Clause} (hc : reduced.clause? k = some c) (hnone : c.antecedents = []) :
    Satisfies v c.literals := by
  obtain ⟨d, hd, hnode⟩ := h.node?_node k hk
  rw [hc] at hd
  cases hd
  rw [hnone, hsource] at hnode
  exact hleaves _ ⟨c.literals, []⟩ hnode rfl

end Explains

/-! ### Late units -/

/-- Clause `j` is a late unit for clause `k` in the derivation of clause `i` of the reduced trace:
its literal `l` was derived and took the complement from `k`, but it comes after `k`, and it is not
in the derivation. -/
structure LateUnit (full : Trace) (reduced : ReducedTrace) (i k j : Nat) (l : Literal) : Prop where
  used : reduced.graph.Uses i k
  lost : ∃ source d c, reduced.origin? k = some (.simplified source) ∧
    full.clause? source = some d ∧ reduced.clause? k = some c ∧ -l ∈ d.literals ∧ -l ∉ c.literals
  derived : (l, some j) ∈ reduced.derived
  later : k < j
  unused : ¬reduced.graph.Uses i j

namespace Reduction

section late

variable {options : Options} {t : Trace} {assumptions assumed : List Literal} {c : Cascade}
  {v : Valuation} {i k : Nat} {s : Residual} {d : Clause} {g : Fact}

theorem mem_settled_of_lost (hsound : c.Sound (wholeClauses options t) assumed)
    (hs : s ∈ c.residuals) (hd : t.clause? s.index = some d) (hg : g ∈ c.known)
    (hlost : -g.literal ∈ d.literals) (hgone : -g.literal ∉ s.literals) :
    g ∈ c.settled ∧ g ∈ s.removedBy := by
  obtain ⟨-, hremnant⟩ := whole_of_mem_residuals hsound hs hd
  have hsettled : g.literal ∈ literalsOf c.settled := by
    by_contra hunsettled
    apply hgone
    refine (Residual.mem_literals_of_remnant? hremnant).mpr ⟨hlost, ?_⟩
    rwa [Int32.neg_neg]
  obtain ⟨g', hg', heq⟩ := mem_literalsOf.mp hsettled
  have hknown' : g' ∈ c.known := List.mem_append_left _ hg'
  obtain rfl : g' = g := hsound.grounded.eq_of_literal_eq hknown' hg heq
  refine ⟨hg', ?_⟩
  rw [← (Residual.remnant?_eq_some_iff.mp hremnant).2]
  exact List.mem_filter.mpr ⟨hg', decide_eq_true hlost⟩

/-- **A unit clause that shortened a clause is in the derivation, or is late**: if it precedes the
clause, the clause is linked to it. -/
theorem uses_or_lateUnit (ht : t.WellFormed) (hsound : c.Sound (wholeClauses options t) assumed)
    (hk : (rebuild true t assumptions c).graph.Uses i k)
    (hstands : Stands c.residuals (firstNumber assumptions) k s)
    (hd : t.clause? s.index = some d) (hg : g ∈ c.known) {reason : Nat}
    (hreason : g.reason = some reason) (hlost : -g.literal ∈ d.literals)
    (hgone : -g.literal ∉ s.literals) :
    ∃ j, number? assumptions c reason = some j ∧
      ((rebuild true t assumptions c).graph.Uses i j ∨
        LateUnit t (rebuild true t assumptions c) i k j g.literal) := by
  obtain ⟨j, s', hstands', rfl, -, -⟩ := exists_stands_of_reason assumptions ht hsound hg hreason
  have hnumber : number? assumptions c s'.index = some j :=
    (number?_eq_some_iff ht hsound).mpr ⟨s', hstands', rfl⟩
  refine ⟨j, hnumber, ?_⟩
  by_cases hused : (rebuild true t assumptions c).graph.Uses i j
  · exact .inl hused
  have hremoved := (mem_settled_of_lost hsound hstands.mem hd hg hlost hgone).2
  have hclause : (rebuild true t assumptions c).clause? k =
      some ⟨s.literals, s.antecedents true t (number? assumptions c)⟩ := clause?_of_stands hstands
  have hnot : ¬s'.index < s.index := by
    intro hlt
    apply hused
    refine .tail hk ?_
    rw [ClauseGraph.antecedents_of_clause? hclause]
    exact mem_antecedents_residual.mpr
      ⟨s'.index, hnumber, .inr ⟨rfl, mem_reasonsOf.mpr ⟨g, hremoved, hreason⟩, hlt⟩⟩
  have hne : s.index ≠ s'.index := by
    intro heq
    obtain ⟨hwhole, -⟩ := whole_of_mem_residuals hsound hstands.mem hd
    rw [← heq] at hreason
    exact hsound.grounded.neg_not_mem_of_reason (intact_wholeClauses ht options) hg hwhole hreason
      hlost
  have hlater : s.index < s'.index := by omega
  have hshort : s.isShortened = true := by
    rw [Residual.isShortened, Bool.not_eq_true', List.isEmpty_eq_false_iff_exists_mem]
    exact ⟨g, hremoved⟩
  right
  exact {
    used := hk
    lost := ⟨s.index, d, _, origin?_of_shortened hstands hshort, hd, hclause, hlost, hgone⟩
    derived := mem_derived_rebuild.mpr ⟨g, hg, s'.index, hreason, by rw [hnumber]⟩
    later := hstands.lt (ascending_residuals ht hsound) hstands' hlater
    unused := hused }

theorem not_mem_reasonsOf_of_whole (ht : t.WellFormed)
    (hsound : c.Sound (wholeClauses options t) assumed) (hs : s ∈ c.residuals)
    (hwhole : ¬s.isShortened = true) : s.index ∉ reasonsOf c.settled := by
  intro hgave
  obtain ⟨g, hg, hreason⟩ := mem_reasonsOf.mp hgave
  obtain ⟨k, s', hstands, hindex, -, hshort⟩ :=
    exists_stands_of_reason [] ht hsound (List.mem_append_left _ hg) hreason
  obtain rfl := eq_of_index_eq (ascending_residuals ht hsound) hstands.mem hs hindex
  exact hwhole hshort

/-- A clause of the derivation that was not shortened is satisfied, if it is in case it has no
antecedents, and if its antecedents are. -/
theorem satisfies_of_whole (ht : t.WellFormed) (hjust : t.Justified)
    (hsound : c.Sound (wholeClauses options t) assumed)
    (hstands : Stands c.residuals (firstNumber assumptions) k s) (hwhole : ¬s.isShortened = true)
    (hleaf : s.antecedents true t (number? assumptions c) = [] → Satisfies v s.literals)
    (hants : ∀ a ∈ s.antecedents true t (number? assumptions c),
      (rebuild true t assumptions c).SatisfiedAt v a) : Satisfies v s.literals := by
  cases hax : t.isAxiom s.index with
  | true => exact hleaf (antecedents_residual_eq_nil hax (.inr (Bool.eq_false_iff.mpr hwhole)))
  | false =>
      have hreason := not_mem_reasonsOf_of_whole ht hsound hstands.mem hwhole
      exact satisfies_of_antecedents ht hjust hsound hstands.mem hax hreason hants

end late

/-! ### Valuations that the leaves do not exclude -/

/-- A valuation makes true what was assumed and the literals of the late units, and satisfies the
whole of each clause that was shortened, as far as the derivation of clause `i` goes. -/
structure Escapes (t : Trace) (r : ReducedTrace) (assumed : List Literal) (i : Nat)
    (v : Valuation) : Prop where
  assumed : ∀ l ∈ assumed, Literal.Holds v l
  late : ∀ k j l, LateUnit t r i k j l → Literal.Holds v l
  sources : ∀ k source, r.graph.Uses i k → r.origin? k = some (.simplified source) →
    t.SatisfiedAt v source

namespace Escapes

variable {options : Options} {t : Trace} {assumptions assumed : List Literal} {c : Cascade}
  {v : Valuation} {i k : Nat} {s : Residual} {d : Clause} {g : Fact}
  (h : Escapes t (rebuild true t assumptions c) assumed i v) (ht : t.WellFormed)
  (hsound : c.Sound (wholeClauses options t) assumed)
include h ht hsound

/-- A fact that took a literal from a clause of the derivation holds, if it does so in case its unit
clause is in the derivation. -/
theorem holds_of_lost (hk : (rebuild true t assumptions c).graph.Uses i k)
    (hstands : Stands c.residuals (firstNumber assumptions) k s)
    (hd : t.clause? s.index = some d) (hg : g ∈ c.known) (hlost : -g.literal ∈ d.literals)
    (hgone : -g.literal ∉ s.literals)
    (hunit : ∀ reason j, g.reason = some reason → number? assumptions c reason = some j →
      (rebuild true t assumptions c).graph.Uses i j → Literal.Holds v g.literal) :
    Literal.Holds v g.literal := by
  cases hreason : g.reason with
  | none => exact h.assumed _ (hsound.mem_assumed hg hreason)
  | some reason =>
      obtain ⟨j, hnumber, hor⟩ :=
        uses_or_lateUnit ht hsound hk hstands hd hg hreason hlost hgone
      cases hor with
      | inl hused => exact hunit reason j hreason hnumber hused
      | inr hlate => exact h.late k j _ hlate

theorem satisfies_of_held (hk : (rebuild true t assumptions c).graph.Uses i k)
    (hstands : Stands c.residuals (firstNumber assumptions) k s) (hshort : s.isShortened = true)
    (hd : t.clause? s.index = some d)
    (hheld : ∀ g ∈ c.known, -g.literal ∈ d.literals → -g.literal ∉ s.literals →
      Literal.Holds v g.literal) : Satisfies v s.literals := by
  obtain ⟨-, hremnant⟩ := whole_of_mem_residuals hsound hstands.mem hd
  obtain ⟨l, hl, hholds⟩ := h.sources k s.index hk (origin?_of_shortened hstands hshort) d hd
  refine ⟨l, ?_, hholds⟩
  by_contra hgone
  have hmem : -l ∈ literalsOf c.settled := by
    by_contra hleft
    exact hgone ((Residual.mem_literals_of_remnant? hremnant).mpr ⟨hl, hleft⟩)
  obtain ⟨g, hg, hgl⟩ := mem_literalsOf.mp hmem
  have hneg : -g.literal = l := by rw [hgl, Int32.neg_neg]
  have hheld' := hheld g (List.mem_append_left _ hg) (by rwa [hneg]) (by rwa [hneg])
  rw [hgl] at hheld'
  exact (Literal.holds_neg ((ht _ d hd).proper l hl) v).mp hheld' hholds

/-- **Facts whose unit clauses are in the derivation hold.**  By induction along the cascade: the
other literals of a unit clause were taken by earlier facts. -/
theorem holds_of_used {facts : List Fact} (hfacts : facts <+: c.known) (hg : g ∈ facts)
    {reason j : Nat} (hreason : g.reason = some reason)
    (hnumber : number? assumptions c reason = some j)
    (hused : (rebuild true t assumptions c).graph.Uses i j) : Literal.Holds v g.literal := by
  induction facts using List.reverseRecOn generalizing g reason j with
  | nil => exact absurd hg List.not_mem_nil
  | append_singleton facts fact ih =>
      have hbefore : facts <+: c.known := (List.prefix_append _ _).trans hfacts
      cases List.mem_append.mp hg with
      | inl hearlier => exact ih hbefore hearlier hreason hnumber hused
      | inr hlast =>
          obtain rfl : g = fact := List.mem_singleton.mp hlast
          have hknown : g ∈ c.known := hfacts.subset hg
          obtain ⟨j', s, hstands, rfl, hliterals, hshort⟩ :=
            exists_stands_of_reason assumptions ht hsound hknown hreason
          obtain rfl : j' = j := by
            have hnumber' := (number?_eq_some_iff ht hsound).mpr ⟨s, hstands, rfl⟩
            rw [hnumber] at hnumber'
            exact (Option.some.inj hnumber').symm
          obtain ⟨d, -, hd, -⟩ := exists_clause_of_mem_residuals hsound hstands.mem
          obtain ⟨hwhole, -⟩ := whole_of_mem_residuals hsound hstands.mem hd
          have hforces : Forces facts (Residual.ofClause s.index d) g.literal :=
            (hsound.grounded.of_isPrefix hfacts).forces_of_gives
              (intact_wholeClauses ht options) hwhole hreason
          have hsat : Satisfies v s.literals := by
            apply h.satisfies_of_held ht hsound hused hstands hshort hd
            intro f hf hlost hgone
            apply h.holds_of_lost ht hsound hused hstands hd hf hlost hgone
            intro reason' j' hreason' hnumber' hused'
            have hne : -f.literal ≠ g.literal := by
              intro heq
              rw [hliterals, heq] at hgone
              exact hgone (List.mem_singleton.mpr rfl)
            have hearlier : f ∈ facts := hforces.mem_of_denied hsound.grounded hbefore hf hlost hne
            exact ih hbefore hearlier hreason' hnumber' hused'
          rw [hliterals] at hsat
          simpa [satisfies_cons] using hsat

theorem satisfies_of_shortened (hk : (rebuild true t assumptions c).graph.Uses i k)
    (hstands : Stands c.residuals (firstNumber assumptions) k s)
    (hshort : s.isShortened = true) : Satisfies v s.literals := by
  obtain ⟨d, -, hd, -⟩ := exists_clause_of_mem_residuals hsound hstands.mem
  apply h.satisfies_of_held ht hsound hk hstands hshort hd
  intro g hg hlost hgone
  apply h.holds_of_lost ht hsound hk hstands hd hg hlost hgone
  intro reason j hreason hnumber hused
  exact h.holds_of_used ht hsound (List.prefix_refl _) hg hreason hnumber hused

/-- **The whole derivation is satisfied** if its clauses without antecedents are, those that were
shortened apart. -/
theorem satisfiedAt_of_uses (hjust : t.Justified)
    (hleaves : ∀ k d, (rebuild true t assumptions c).graph.Uses i k →
      (rebuild true t assumptions c).shortenedFrom? k = none →
        (rebuild true t assumptions c).clause? k = some d → d.antecedents = [] →
          Satisfies v d.literals)
    (hk : (rebuild true t assumptions c).graph.Uses i k) :
    (rebuild true t assumptions c).SatisfiedAt v k := by
  induction k using Nat.strongRecOn with
  | ind k ih =>
      intro d hd
      cases clause?_rebuild.mp hd with
      | inl hleading =>
          obtain ⟨hcontra, rfl, rfl⟩ := hleading
          have hnone : (rebuild true t assumptions c).shortenedFrom? 1 = none := by
            rw [ReducedTrace.shortenedFrom?, origin?_rebuild.mpr (.inl ⟨hcontra, rfl, rfl⟩)]
          exact hleaves 1 _ hk hnone hd rfl
      | inr hleft =>
          obtain ⟨s, hstands, rfl⟩ := hleft
          by_cases hshort : s.isShortened = true
          · exact h.satisfies_of_shortened ht hsound hk hstands hshort
          · have hnone : (rebuild true t assumptions c).shortenedFrom? k = none := by
              rw [ReducedTrace.shortenedFrom?, origin?_of_whole hstands hshort]
            apply satisfies_of_whole ht hjust hsound hstands hshort (hleaves k _ hk hnone hd)
            intro a ha
            have hstep : a ∈ (rebuild true t assumptions c).antecedents k := by
              rwa [Trace.antecedents_eq hd]
            exact ih a ((wellFormed_rebuild ht hsound).lt_of_mem_antecedents hstep)
              (.tail hk hstep)

theorem false_of_conflict (hjust : t.Justified)
    (hconflict : (rebuild true t assumptions c).conflict? = some i)
    (hleaves : ∀ k d, (rebuild true t assumptions c).graph.Uses i k →
      (rebuild true t assumptions c).shortenedFrom? k = none →
        (rebuild true t assumptions c).clause? k = some d → d.antecedents = [] →
          Satisfies v d.literals) : False := by
  obtain ⟨⟨d, hd, hempty⟩, -⟩ := Trace.conflict?_eq_some_iff.mp hconflict
  have hsat := h.satisfiedAt_of_uses ht hsound hjust hleaves (.refl i) d hd
  rw [hempty] at hsat
  exact not_satisfies_nil v hsat

end Escapes

/-! ### The conflict of a reduction -/

variable {t : Trace} {assumptions : List Literal}

/-- **The explanation of a conflict is a refutation, up to late units.**  If a reduction that links
clauses to reasons finds a conflict, then the conflict has an explanation, and a valuation that
makes the assumptions true and satisfies the leaves of the explanation makes the literal of some
late unit false. -/
theorem explainConflict_unsatisfiable (options : Options) (ht : t.Obtained) (hjust : t.Justified)
    (hproper : ∀ l ∈ assumptions, l.Proper) (hlink : options.linkUnitReasons.value = true) :
    ∃ r, t.reduce options assumptions = .ok r ∧ ∀ conflict, r.conflict? = some conflict →
      ∃ p, explainConflict t r = .ok (some p) ∧
        ∀ v, (∀ l ∈ assumptions, Literal.Holds v l) → p.LeavesSatisfied v →
          ∃ k j l, LateUnit t r conflict k j l ∧ ¬Literal.Holds v l := by
  have hwf := ht.wellFormed
  have hsound := sound_cascade_eraseDups hwf options hproper
  have hreduce := reduce_eq_ok options t hproper
  rw [hlink] at hreduce
  refine ⟨_, hreduce, ?_⟩
  intro conflict hconflict
  have hcontains := Trace.contains_iff.mpr
    (Trace.mem_indices.mp (Trace.mem_indices_of_conflict? hconflict))
  obtain ⟨p, node, copy, hp, hexplains⟩ := exists_explains hwf (wellFormed_rebuild hwf hsound)
    hcontains (by
      intro hmissing
      obtain ⟨k, source, hk⟩ := hmissing
      exact not_missingSource_of_reduce hwf hreduce hk)
  refine ⟨p, ?_, ?_⟩
  · simp only [explainConflict, hconflict, hp]
    rfl
  intro v hassumptions hleaves
  by_contra hnone
  have hescapes : Escapes t (rebuild true t assumptions.eraseDups
      (cascade options t assumptions.eraseDups)) (accepted assumptions.eraseDups) conflict v := {
    assumed := fun l hl => hassumptions l (List.mem_eraseDups.mp (mem_of_mem_accepted hl))
    late := fun k j l hlate => by
      by_contra hholds
      exact hnone ⟨k, j, l, hlate, hholds⟩
    sources := fun k source hk horigin => hexplains.satisfiedAt_source hwf hjust hleaves hk
      (ReducedTrace.shortenedFrom?_eq_some_iff.mpr horigin) }
  exact hescapes.false_of_conflict hwf hsound hjust hconflict
    fun k d hk hsource hd hnone => hexplains.satisfies_of_leaf hleaves hk hsource hd hnone

/-- A case of `explainConflict_unsatisfiable` without late units: the unit clause `2` comes before
the clause it empties, and no valuation is left. -/
theorem explainConflict_unsatisfiable_linkedSample :
    linkedSample.Obtained ∧ linkedSample.Justified ∧ (∀ l ∈ ([-1] : List Literal), l.Proper) ∧
      Options.standard.linkUnitReasons.value = true ∧
      ∃ r, linkedSample.reduce .standard [-1] = .ok r ∧ r.conflict? = some 2 ∧
        ∃ p, explainConflict linkedSample r = .ok (some p) ∧
          ∀ v, ¬((∀ l ∈ ([-1] : List Literal), Literal.Holds v l) ∧ p.LeavesSatisfied v) := by
  have hproper : ∀ l ∈ ([-1] : List Literal), l.Proper := assumptionFault?_eq_none_iff.mp rfl
  obtain ⟨r, hr, hexplained⟩ := explainConflict_unsatisfiable .standard linkedSample_obtained
    linkedSample_justified hproper rfl
  have hrun : (linkedSample.reduce .standard [-1]).map (fun r => (r.conflict?, r.derived)) =
      .ok (some 2, [(2, some 1)]) := by
    decide +kernel
  rw [hr] at hrun
  obtain ⟨hconflict, hderived⟩ := Prod.mk.inj (Except.ok.inj hrun)
  obtain ⟨p, hp, hrefuted⟩ := hexplained 2 hconflict
  refine ⟨linkedSample_obtained, linkedSample_justified, hproper, rfl, r, hr, hconflict, p, hp, ?_⟩
  intro v hsat
  obtain ⟨k, j, l, hlate, -⟩ := hrefuted v hsat.1 hsat.2
  -- the only reason is the first clause, and nothing comes before it
  have hmem := hlate.derived
  rw [hderived, List.mem_singleton, Prod.mk.injEq, Option.some.injEq] at hmem
  have hlater := hlate.later
  obtain ⟨source, d, c, horigin, -⟩ := hlate.lost
  obtain rfl : k = 0 := by omega
  cases horigin

/-- The axioms `¬2` and `1 ∨ 2`, which assuming `¬1` reduces to the empty clause and `2`. -/
def lateSample : Trace := ⟨#[⟨[-2], []⟩, ⟨[1, 2], []⟩]⟩

theorem lateSample_obtained : lateSample.Obtained :=
  Trace.obtained_iff_wellFormed.mpr (by decide)

theorem lateSample_justified : lateSample.Justified :=
  Trace.justified_of_axioms (by decide)

/-- **The explanation of a conflict may be satisfiable together with the assumptions.**  The empty
clause left of `¬2` comes before the unit clause `2` that emptied it, so that it is not linked to it
and its explanation has `¬2` as the only leaf. -/
theorem not_explainConflict_unsatisfiable :
    ¬∀ (options : Options) (t : Trace) (assumptions : List Literal), t.Obtained → t.Justified →
      (∀ l ∈ assumptions, l.Proper) → options.linkUnitReasons.value = true →
        ∀ r, t.reduce options assumptions = .ok r →
          ∀ p, explainConflict t r = .ok (some p) →
            ∀ v, ¬((∀ l ∈ assumptions, Literal.Holds v l) ∧ p.LeavesSatisfied v) := by
  intro hall
  have hrun : (lateSample.reduce .standard [-1]).map (explainConflict lateSample) =
      .ok (.ok (some ⟨#[some ⟨[], [1]⟩, some ⟨[-2], []⟩], 0⟩)) := by
    decide +kernel
  have hproper : ∀ l ∈ ([-1] : List Literal), l.Proper := assumptionFault?_eq_none_iff.mp rfl
  obtain ⟨r, hr⟩ : ∃ r, lateSample.reduce .standard [-1] = .ok r :=
    ⟨_, reduce_eq_ok .standard lateSample hproper⟩
  rw [hr] at hrun
  apply hall .standard lateSample [-1] lateSample_obtained lateSample_justified hproper rfl r hr _
    (Except.ok.inj hrun) fun _ => false
  constructor
  · intro l hl
    rw [List.mem_singleton.mp hl]
    decide
  · intro key d hd hleaf
    rcases key with _ | _ | key
    · cases hd
      cases hleaf
    · cases hd
      decide
    · cases hd

end Reduction
end Refutation
