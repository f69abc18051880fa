import Mathlib.Data.Finset.Max
import Refutation.Proofs.NormalForm
import Refutation.Proofs.PropagationOrder

/-! # Propagating formulas again, and in another order

The literals of a formula are found by splitting its disjunctions first, and normalising what they
are split into afterwards.  Normalising may uncover a disjunction under a double negation.  It then
counts as one literal, and is only split when what is left of the clause is written as a disjunction
anew.  So a clause may hide a literal (`Formula.Hides`): the literal or its complement comes up when
the clause is shortened.

Nothing else can go wrong.  Propagating a literal leaves a clause that mentions it exactly if it
shortens a clause that hides it, and propagating it again makes a difference exactly in this case
(`unitPropagate_unitPropagate`).  Two literals on different subjects may be propagated in either
order if no clause that the one shortens hides the other. -/

namespace Refutation
namespace Formula

variable {f g clause literal literal' : Formula}

/-! ### Literals of a formula -/

theorem isNormal_of_mem_literals (h : f ∈ Disjunctive.literals clause) : f.IsNormal := by
  obtain ⟨g, -, rfl⟩ := List.mem_map.mp h
  exact isNormal_normalised g

theorem literals_disjunction (fs : List Formula) :
    Disjunctive.literals (disjunction fs) = fs.flatMap Disjunctive.literals := by
  change (disjunction fs).disjuncts.map normalised = fs.flatMap fun f => f.disjuncts.map normalised
  rw [disjuncts_disjunction, List.map_flatMap]

theorem IsNormal.literals_eq (h : f.IsNormal) (hliteral : f.isLiteral = true) :
    Disjunctive.literals f = [f] := by
  change f.disjuncts.map normalised = [f]
  rw [disjuncts_of_isLiteral hliteral, List.map_singleton, h.normalised_eq]

theorem filter_flatMap_literals {fs : List Formula} (hself : Disjunctive.literals g = [g])
    (h : ∀ f ∈ fs, f ≠ g → g ∉ Disjunctive.literals f) :
    (fs.flatMap Disjunctive.literals).filter (· ≠ g) =
      (fs.filter (· ≠ g)).flatMap Disjunctive.literals := by
  induction fs with
  | nil => rfl
  | cons f fs ih =>
      rw [List.flatMap_cons, List.filter_append, ih fun f hf => h f (List.mem_cons_of_mem _ hf)]
      by_cases heq : f = g
      · subst heq
        simp [hself]
      · have hkept : (Disjunctive.literals f).filter (· ≠ g) = Disjunctive.literals f := by
          rw [List.filter_eq_self]
          rintro g' hg'
          refine decide_eq_true ?_
          rintro rfl
          exact h f List.mem_cons_self heq hg'
        rw [hkept, List.filter_cons_of_pos (by simpa using heq), List.flatMap_cons]

theorem size_lt_of_mem_literals (hliteral : f.isLiteral = false)
    (h : g ∈ Disjunctive.literals f) : g.size < f.size := by
  obtain ⟨g', hg', rfl⟩ := List.mem_map.mp h
  exact (size_normalised_le g').trans_lt (size_lt_of_mem_disjuncts hliteral hg')

/-! ### What a literal does to a clause -/

/-- The literal or its complement is among the literals of the clause. -/
def Mentions (clause literal : Formula) : Prop :=
  literal.normalised ∈ Disjunctive.literals clause ∨
    literal.complement ∈ Disjunctive.literals clause

/-- The clause contains the complement of the literal and not the literal, so that propagating the
literal shortens it. -/
def ShortenedBy (clause literal : Formula) : Prop :=
  literal.normalised ∉ Disjunctive.literals clause ∧
    literal.complement ∈ Disjunctive.literals clause

/-- The clause does not contain the literal, but one of its literals mentions it when read as a
clause, and is not just the complement of the literal. -/
def Hides (clause literal : Formula) : Prop :=
  literal.normalised ∉ Disjunctive.literals clause ∧
    ∃ f ∈ Disjunctive.literals clause, f ≠ literal.complement ∧ f.Mentions literal

instance (clause literal : Formula) : Decidable (clause.Mentions literal) :=
  inferInstanceAs (Decidable (_ ∨ _))

instance (clause literal : Formula) : Decidable (clause.ShortenedBy literal) :=
  inferInstanceAs (Decidable (_ ∧ _))

instance (clause literal : Formula) : Decidable (clause.Hides literal) :=
  inferInstanceAs (Decidable (_ ∧ _))

theorem not_hides_of_isLiteral (h : ∀ f ∈ Disjunctive.literals clause, f.isLiteral = true) :
    ¬clause.Hides literal := by
  rintro ⟨hnot, f, hf, hne, hmentions⟩
  have hself := (isNormal_of_mem_literals hf).literals_eq (h f hf)
  rw [Mentions, hself, List.mem_singleton, List.mem_singleton] at hmentions
  rcases hmentions with rfl | rfl
  · exact hnot hf
  · exact hne rfl

/-- What is left of a clause that the literal shortens. -/
def shortened (clause literal : Formula) : Formula :=
  disjunction ((Disjunctive.literals clause).filter (· ≠ literal.complement))

theorem form_complement (literal : Formula) :
    Disjunctive.form Formula (Disjunctive.complement Formula literal) = literal.complement :=
  (isNormal_complement literal).normalised_eq

theorem assign?_of_mem (h : literal.normalised ∈ Disjunctive.literals clause) :
    assign? clause literal = none := by
  rw [assign?, simplify_of_mem h]
  rfl

theorem ShortenedBy.assign?_eq (h : clause.ShortenedBy literal) :
    assign? clause literal = some (clause.shortened literal) := by
  rw [assign?, simplify_of_complement_mem h.1 (by rw [form_complement]; exact h.2), form_complement]
  rfl

theorem assign?_of_not_mentions (h : ¬clause.Mentions literal) :
    assign? clause literal = some clause := by
  obtain ⟨hnot, hcomplement⟩ := not_or.mp h
  rw [assign?, simplify_of_not_mem hnot (by rwa [form_complement])]
  rfl

theorem mem_or_shortenedBy_or_not_mentions (clause literal : Formula) :
    literal.normalised ∈ Disjunctive.literals clause ∨ clause.ShortenedBy literal ∨
      ¬clause.Mentions literal := by
  unfold ShortenedBy Mentions
  tauto

/-! ### The same literal again -/

theorem mem_literals_shortened_iff :
    g ∈ Disjunctive.literals (clause.shortened literal) ↔
      ∃ f ∈ Disjunctive.literals clause, f ≠ literal.complement ∧ g ∈ Disjunctive.literals f := by
  simp [shortened, literals_disjunction, and_assoc]

theorem mentions_shortened_iff :
    (clause.shortened literal).Mentions literal' ↔
      ∃ f ∈ Disjunctive.literals clause, f ≠ literal.complement ∧ f.Mentions literal' := by
  simp only [Mentions, mem_literals_shortened_iff, ← exists_or, ← and_or_left]

theorem ShortenedBy.mentions_shortened_self_iff (h : clause.ShortenedBy literal) :
    (clause.shortened literal).Mentions literal ↔ clause.Hides literal := by
  rw [mentions_shortened_iff, Hides, and_iff_right h.1]

/-- A clause that is shortened changes: if it hides disjunctions, the largest of them is split. -/
theorem ShortenedBy.shortened_ne (h : clause.ShortenedBy literal) :
    clause.shortened literal ≠ clause := by
  intro hsame
  have hmem : ∀ g ∈ Disjunctive.literals clause, ∃ f ∈ Disjunctive.literals clause,
      f ≠ literal.complement ∧ g ∈ Disjunctive.literals f := by
    intro g hg
    rwa [← mem_literals_shortened_iff, hsame]
  -- A literal comes from a larger one, unless it is one that cannot be split.
  have hlarger : ∀ g ∈ Disjunctive.literals clause, g.isLiteral = false ∨ g = literal.complement →
      ∃ f ∈ Disjunctive.literals clause, f.isLiteral = false ∧ g.size < f.size := by
    intro g hg hsplit
    obtain ⟨f, hf, hne, hgf⟩ := hmem g hg
    cases hliteral : f.isLiteral with
    | false => exact ⟨f, hf, hliteral, size_lt_of_mem_literals hliteral hgf⟩
    | true =>
        rw [(isNormal_of_mem_literals hf).literals_eq hliteral, List.mem_singleton] at hgf
        subst hgf
        rcases hsplit with hsplit | rfl
        · exact absurd hliteral (by simp [hsplit])
        · exact absurd rfl hne
  obtain ⟨f, hf, hsplit, -⟩ := hlarger _ h.2 (.inr rfl)
  obtain ⟨g, hg, hmax⟩ := Finset.exists_max_image
    ((Disjunctive.literals clause).filter (·.isLiteral = false)).toFinset size
    ⟨f, by simp [hf, hsplit]⟩
  simp only [List.mem_toFinset, List.mem_filter, decide_eq_true_eq] at hg hmax
  obtain ⟨g', hg', hsplit', hlt⟩ := hlarger g hg.1 (.inl hg.2)
  exact absurd (hmax g' ⟨hg', hsplit'⟩) (Nat.not_le.mpr hlt)

theorem assign?_eq_self_iff : assign? clause literal = some clause ↔ ¬clause.Mentions literal := by
  refine ⟨fun hsame hmentions => ?_, assign?_of_not_mentions⟩
  rcases mem_or_shortenedBy_or_not_mentions clause literal with hmem | hshort | hnot
  · rw [assign?_of_mem hmem] at hsame
    cases hsame
  · rw [hshort.assign?_eq] at hsame
    exact hshort.shortened_ne (Option.some.inj hsame)
  · exact hnot hmentions

/-! ### Two literals -/

/-- Each of the literals has a subject, and not the same one. -/
structure Apart (literal literal' : Formula) : Prop where
  left : literal.subject? ≠ none
  right : literal'.subject? ≠ none
  ne : literal.subject? ≠ literal'.subject?

theorem Apart.symm (h : literal.Apart literal') : literal'.Apart literal :=
  ⟨h.right, h.left, h.ne.symm⟩

theorem literals_complement (h : literal.subject? ≠ none) :
    Disjunctive.literals literal.complement = [literal.complement] :=
  (isNormal_complement literal).literals_eq (isLiteral_of_subject? (by simpa using h))

theorem Apart.mem_literals_shortened (h : literal.Apart literal')
    (hsubject : g.subject? = literal'.subject?) (hmem : g ∈ Disjunctive.literals clause) :
    g ∈ Disjunctive.literals (clause.shortened literal) := by
  refine mem_literals_shortened_iff.mpr ⟨g, hmem, ?_, ?_⟩
  · rintro rfl
    exact h.ne (by simpa using hsubject)
  · rw [(isNormal_of_mem_literals hmem).literals_eq (isLiteral_of_subject? (hsubject ▸ h.right))]
    exact List.mem_singleton_self g

theorem Apart.bind_assign?_of_mem (h : literal.Apart literal')
    (hmem : literal'.normalised ∈ Disjunctive.literals clause) :
    (assign? clause literal).bind (assign? · literal') = none := by
  rcases mem_or_shortenedBy_or_not_mentions clause literal with hsatisfied | hshort | hnot
  · rw [assign?_of_mem hsatisfied, Option.bind_none]
  · rw [hshort.assign?_eq, Option.bind_some]
    exact assign?_of_mem (h.mem_literals_shortened (subject?_normalised literal') hmem)
  · rw [assign?_of_not_mentions hnot, Option.bind_some, assign?_of_mem hmem]

theorem eq_complement_of_mentions (hnot : literal'.normalised ∉ Disjunctive.literals clause)
    (hhides : ¬clause.Hides literal') (hf : f ∈ Disjunctive.literals clause)
    (hmentions : f.Mentions literal') : f = literal'.complement := by
  by_contra hne
  exact hhides ⟨hnot, f, hf, hne, hmentions⟩

theorem not_mentions_shortened (hno : ¬clause.Mentions literal') (hhides : ¬clause.Hides literal') :
    ¬(clause.shortened literal).Mentions literal' := by
  rw [mentions_shortened_iff]
  rintro ⟨f, hf, -, hmentions⟩
  have heq := eq_complement_of_mentions (fun hmem => hno (.inl hmem)) hhides hf hmentions
  exact hno (.inr (heq ▸ hf))

section apart

variable (h : literal.Apart literal') (hshort : clause.ShortenedBy literal')
  (hhides : ¬clause.Hides literal')
include h hshort hhides

theorem Apart.shortenedBy_shortened : (clause.shortened literal).ShortenedBy literal' := by
  refine ⟨?_, h.mem_literals_shortened (subject?_complement literal') hshort.2⟩
  rw [mem_literals_shortened_iff]
  rintro ⟨f, hf, -, hmem⟩
  have heq := eq_complement_of_mentions hshort.1 hhides hf (.inl hmem)
  rw [heq, literals_complement h.right, List.mem_singleton] at hmem
  exact hshort.1 (hmem ▸ hshort.2)

/-- The two complements may as well be removed at once, before what is left is split again. -/
theorem Apart.shortened_shortened :
    (clause.shortened literal).shortened literal' =
      disjunction (((Disjunctive.literals clause).filter fun f =>
        f ≠ literal.complement ∧ f ≠ literal'.complement).flatMap Disjunctive.literals) := by
  rw [shortened, shortened, literals_disjunction, filter_flatMap_literals
    (literals_complement h.right), List.filter_filter]
  · simp only [ne_eq, Bool.decide_and, Bool.and_comm]
  · intro f hf hne hmem
    exact hne (eq_complement_of_mentions hshort.1 hhides (List.mem_filter.mp hf).1 (.inr hmem))

end apart

/-- The order of two literals makes no difference to a clause that does not hide the one when the
other shortens it. -/
theorem Apart.assign?_comm (h : literal.Apart literal')
    (hhides : clause.ShortenedBy literal → ¬clause.Hides literal')
    (hhides' : clause.ShortenedBy literal' → ¬clause.Hides literal) :
    (assign? clause literal).bind (assign? · literal') =
      (assign? clause literal').bind (assign? · literal) := by
  rcases mem_or_shortenedBy_or_not_mentions clause literal with hmem | hshort | hno
  · rw [h.symm.bind_assign?_of_mem hmem, assign?_of_mem hmem, Option.bind_none]
  · rcases mem_or_shortenedBy_or_not_mentions clause literal' with hmem' | hshort' | hno'
    · rw [h.bind_assign?_of_mem hmem', assign?_of_mem hmem', Option.bind_none]
    · have hnext := h.shortenedBy_shortened hshort' (hhides hshort)
      have hnext' := h.symm.shortenedBy_shortened hshort (hhides' hshort')
      rw [hshort.assign?_eq, hshort'.assign?_eq, Option.bind_some, Option.bind_some,
        hnext.assign?_eq, hnext'.assign?_eq, h.shortened_shortened hshort' (hhides hshort),
        h.symm.shortened_shortened hshort (hhides' hshort')]
      simp only [and_comm]
    · rw [hshort.assign?_eq, assign?_of_not_mentions hno', Option.bind_some, Option.bind_some,
        hshort.assign?_eq, assign?_of_not_mentions (not_mentions_shortened hno' (hhides hshort))]
  · rcases mem_or_shortenedBy_or_not_mentions clause literal' with hmem' | hshort' | hno'
    · rw [h.bind_assign?_of_mem hmem', assign?_of_mem hmem', Option.bind_none]
    · rw [hshort'.assign?_eq, assign?_of_not_mentions hno, Option.bind_some, Option.bind_some,
        hshort'.assign?_eq, assign?_of_not_mentions (not_mentions_shortened hno (hhides' hshort'))]
    · rw [assign?_of_not_mentions hno, assign?_of_not_mentions hno', Option.bind_some,
        Option.bind_some, assign?_of_not_mentions hno, assign?_of_not_mentions hno']

end Formula

/-! ### Lists of formulas -/

section formulas

variable (clauses : List Formula) (literal literal' : Formula)

theorem exists_mentions_unitPropagate_iff :
    (∃ f ∈ unitPropagate clauses literal, f.Mentions literal) ↔
      ∃ c ∈ clauses, c.ShortenedBy literal ∧ c.Hides literal := by
  simp only [mem_unitPropagate_iff]
  constructor
  · rintro ⟨f, ⟨c, hc, hleft⟩, hmentions⟩
    rcases Formula.mem_or_shortenedBy_or_not_mentions c literal with hmem | hshort | hno
    · rw [Formula.assign?_of_mem hmem] at hleft
      cases hleft
    · rw [hshort.assign?_eq, Option.some.injEq] at hleft
      subst hleft
      exact ⟨c, hc, hshort, hshort.mentions_shortened_self_iff.mp hmentions⟩
    · rw [Formula.assign?_of_not_mentions hno, Option.some.injEq] at hleft
      subst hleft
      exact absurd hmentions hno
  · rintro ⟨c, hc, hshort, hhides⟩
    exact ⟨_, ⟨c, hc, hshort.assign?_eq⟩, hshort.mentions_shortened_self_iff.mpr hhides⟩

theorem unitPropagate_self_eq_iff :
    unitPropagate (unitPropagate clauses literal) literal = unitPropagate clauses literal ↔
      ¬∃ f ∈ unitPropagate clauses literal, f.Mentions literal := by
  have hnodup : (unitPropagate clauses literal).Nodup := by
    rw [unitPropagate_eq]
    exact nodup_eraseDups _
  rw [unitPropagate_eq_self_iff, and_iff_right hnodup]
  simp only [Formula.assign?_eq_self_iff, not_exists, not_and]

variable {literal literal'} in
theorem unitPropagate_comm (hapart : literal.Apart literal')
    (hhides : ∀ c ∈ clauses, (c.ShortenedBy literal → ¬c.Hides literal') ∧
      (c.ShortenedBy literal' → ¬c.Hides literal)) :
    unitPropagate (unitPropagate clauses literal) literal' =
      unitPropagate (unitPropagate clauses literal') literal := by
  rw [unitPropagate_unitPropagate_eq, unitPropagate_unitPropagate_eq]
  congr 1
  exact List.filterMap_congr fun c hc => hapart.assign?_comm (hhides c hc).1 (hhides c hc).2

/-- **Propagating a formula literal again, or two of them in either order.**

A clause that propagation leaves mentions the literal exactly if it is what is left of a clause that
hides it, and only then is the list changed by propagating the literal again.  Two literals on
different subjects may be propagated in either order if no clause that the one shortens hides the
other. -/
theorem unitPropagate_unitPropagate :
    ((∃ f ∈ unitPropagate clauses literal, f.Mentions literal) ↔
        ∃ c ∈ clauses, c.ShortenedBy literal ∧ c.Hides literal) ∧
      (unitPropagate (unitPropagate clauses literal) literal = unitPropagate clauses literal ↔
        ∀ c ∈ clauses, c.ShortenedBy literal → ¬c.Hides literal) ∧
      ∀ literal' : Formula, literal.Apart literal' →
        (∀ c ∈ clauses, (c.ShortenedBy literal → ¬c.Hides literal') ∧
          (c.ShortenedBy literal' → ¬c.Hides literal)) →
        unitPropagate (unitPropagate clauses literal) literal' =
          unitPropagate (unitPropagate clauses literal') literal := by
  refine ⟨exists_mentions_unitPropagate_iff clauses literal, ?_, fun literal' hapart hhides =>
    unitPropagate_comm clauses hapart hhides⟩
  rw [unitPropagate_self_eq_iff, exists_mentions_unitPropagate_iff]
  simp only [not_exists, not_and]

/-- If all literals of the clauses are literals, so that only atoms and constraints are negated,
nothing is hidden. -/
theorem unitPropagate_of_isLiteral
    (h : ∀ c ∈ clauses, ∀ f ∈ Disjunctive.literals c, f.isLiteral = true) :
    unitPropagate (unitPropagate clauses literal) literal = unitPropagate clauses literal ∧
      (literal.Apart literal' → unitPropagate (unitPropagate clauses literal) literal' =
        unitPropagate (unitPropagate clauses literal') literal) := by
  have hhides : ∀ c ∈ clauses, ∀ l, ¬c.Hides l := fun c hc _ =>
    Formula.not_hides_of_isLiteral (h c hc)
  refine ⟨?_, fun hapart => unitPropagate_comm clauses hapart fun c hc =>
    ⟨fun _ => hhides c hc literal', fun _ => hhides c hc literal⟩⟩
  rw [unitPropagate_self_eq_iff, exists_mentions_unitPropagate_iff]
  rintro ⟨c, hc, -, hhidden⟩
  exact hhides c hc literal hhidden

end formulas

/-- Clauses on `p`, `q`, `r`, `s` and `u`, with double negations: `!r | !!(p | s)` is split when it
is shortened, `!!(p | !r)` hides `r` but is not shortened, and `!!!q | (p | s)` becomes equal to the
first. -/
def layeredSample : List Formula :=
  [.or (.not (.atom "r")) (.not (.not (.or (.atom "p") (.atom "s")))),
    .not (.not (.or (.atom "p") (.not (.atom "r")))),
    .or (.not (.atom "r")) (.or (.not (.atom "q")) (.not (.count .no "u"))),
    .or (.atom "r") (.not (.atom "q")),
    .or (.not (.not (.not (.atom "q")))) (.or (.atom "p") (.atom "s"))]

theorem unitPropagate_unitPropagate_layered :
    (∀ c ∈ layeredSample, c.ShortenedBy (.atom "r") → ¬c.Hides (.atom "r")) ∧
      unitPropagate (unitPropagate layeredSample (.atom "r")) (.atom "r") =
        unitPropagate layeredSample (.atom "r") ∧
      (Formula.atom "r").Apart (.atom "q") ∧
      (∀ c ∈ layeredSample, (c.ShortenedBy (.atom "r") → ¬c.Hides (.atom "q")) ∧
        (c.ShortenedBy (.atom "q") → ¬c.Hides (.atom "r"))) ∧
      unitPropagate (unitPropagate layeredSample (.atom "r")) (.atom "q") =
        unitPropagate (unitPropagate layeredSample (.atom "q")) (.atom "r") ∧
      unitPropagate (unitPropagate layeredSample (.atom "r")) (.atom "q") =
        [.or (.atom "p") (.atom "s"), .not (.not (.or (.atom "p") (.not (.atom "r")))),
          .count .some "u"] := by
  obtain ⟨-, hagain, hcomm⟩ := unitPropagate_unitPropagate layeredSample (.atom "r")
  have hhides : ∀ c ∈ layeredSample, c.ShortenedBy (.atom "r") → ¬c.Hides (.atom "r") := by decide
  have hapart : (Formula.atom "r").Apart (.atom "q") := ⟨by decide, by decide, by decide⟩
  have hhides' : ∀ c ∈ layeredSample, (c.ShortenedBy (.atom "r") → ¬c.Hides (.atom "q")) ∧
      (c.ShortenedBy (.atom "q") → ¬c.Hides (.atom "r")) := by decide
  exact ⟨hhides, hagain.mpr hhides, hapart, hhides', hcomm _ hapart hhides', by decide⟩

/-- The clause `!r | !!(p | f)`. -/
def hidingSample (f : Formula) : Formula :=
  .or (.not (.atom "r")) (.not (.not (.or (.atom "p") f)))

/-- In `!r | !!(p | !r)` the literal `r` is hidden, and the same literal shortens what is left of it
once more.  In `!r | !!(p | q)` the literal `q` is hidden: it satisfies what is left if `r` comes
first, and otherwise `p | q` remains. -/
theorem not_unitPropagate_unitPropagate :
    (∃ f ∈ unitPropagate [hidingSample (.not (.atom "r"))] (.atom "r"), f.Mentions (.atom "r")) ∧
      unitPropagate [hidingSample (.not (.atom "r"))] (.atom "r") =
        [.or (.atom "p") (.not (.atom "r"))] ∧
      unitPropagate (unitPropagate [hidingSample (.not (.atom "r"))] (.atom "r")) (.atom "r") =
        [.atom "p"] ∧
      (Formula.atom "r").Apart (.atom "q") ∧
      unitPropagate (unitPropagate [hidingSample (.atom "q")] (.atom "r")) (.atom "q") = [] ∧
      unitPropagate (unitPropagate [hidingSample (.atom "q")] (.atom "q")) (.atom "r") =
        [.or (.atom "p") (.atom "q")] :=
  ⟨by decide, by decide, by decide, ⟨by decide, by decide, by decide⟩, by decide, by decide⟩

end Refutation
