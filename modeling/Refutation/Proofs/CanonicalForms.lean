import Mathlib.Logic.Basic
import Mathlib.Tactic.ByContra
import Refutation.Formula.Meaning
import Refutation.Proofs.NormalForm

/-! # Normal forms of literals are canonical

A literal built from an atom or a constraint by any number of negations has one normal form for its
meaning: literals that are true under the same interpretations have equal normal forms
(`Formula.normal_forms_canonical`).

The meaning of a literal tells its subject.  Whether it is true depends on the value of its subject
only (`Formula.holds_congr`), and it is true for one value and false for another
(`Formula.exists_holds_and_exists_not`); so a literal about anything else is not equivalent to it
(`Formula.subject?_eq_of_equivalent`).  Of the normal forms that are about one
subject, no two are equivalent: numbers of members up to two are enough to tell the constraints and
their negations apart. -/

namespace Refutation

namespace Multiplicity

variable {m n : Multiplicity}

/-! ### Constraints -/

theorem exists_allows (m : Multiplicity) : ∃ k, m.Allows k := by
  cases m with
  | some | one | lone => exact ⟨1, by simp [Allows]⟩
  | no => exact ⟨0, rfl⟩

theorem exists_not_allows (m : Multiplicity) : ∃ k, ¬m.Allows k := by
  cases m with
  | some => exact ⟨0, by simp [Allows]⟩
  | no | one | lone => exact ⟨2, by simp [Allows]⟩

theorem eq_of_allows_iff (h : ∀ k, m.Allows k ↔ n.Allows k) : m = n := by
  have hzero := h 0
  have hone := h 1
  have htwo := h 2
  cases m <;> cases n <;> simp [Allows] at hzero hone htwo ⊢

theorem complement?_eq_some_iff :
    m.complement? = Option.some n ↔ ∀ k, n.Allows k ↔ ¬m.Allows k := by
  refine ⟨Formula.allows_complement?, fun h => ?_⟩
  have hzero := h 0
  have hone := h 1
  have htwo := h 2
  cases m <;> cases n <;> simp [Allows, complement?] at hzero hone htwo ⊢

end Multiplicity

/-! ### The value of a subject -/

namespace Interpretation

variable {s s' : Formula.Subject} {I J : Interpretation}

/-- All atoms have one truth value, and all relations one number of members. -/
def uniform (truth : Bool) (members : Nat) : Interpretation := ⟨fun _ => truth, fun _ => members⟩

/-- Two interpretations give a subject the same value. -/
def AgreeOn (I J : Interpretation) : Formula.Subject → Prop
  | .atom name => I.truth name = J.truth name
  | .relation name => I.members name = J.members name

/-- The interpretation `I`, but with the value that `J` gives to a subject. -/
def withValue (I : Interpretation) (s : Formula.Subject) (J : Interpretation) : Interpretation where
  truth name := if s = .atom name then J.truth name else I.truth name
  members name := if s = .relation name then J.members name else I.members name

theorem agreeOn_withValue_self : AgreeOn (I.withValue s J) J s := by
  cases s with
  | atom | relation => exact if_pos rfl

theorem agreeOn_withValue_of_ne (h : s ≠ s') : AgreeOn (I.withValue s J) I s' := by
  cases s' with
  | atom | relation => exact if_neg h

end Interpretation

namespace Formula

variable {f g : Formula} {s s' : Subject} {I J : Interpretation} {name : String}

/-- Two formulas are true under the same interpretations. -/
def Equivalent (f g : Formula) : Prop := ∀ I, f.Holds I ↔ g.Holds I

theorem Equivalent.symm (h : f.Equivalent g) : g.Equivalent f := fun I => (h I).symm

theorem holds_congr (hf : f.subject? = some s) (h : I.AgreeOn J s) : f.Holds I ↔ f.Holds J := by
  induction f with
  | falsum | or => cases hf
  | atom name =>
      cases hf
      simp only [Holds, show I.truth name = J.truth name from h]
  | count multiplicity relation =>
      cases hf
      simp only [Holds, show I.members relation = J.members relation from h]
  | not body ih => exact not_congr (ih hf)

/-- **No literal is always true or always false**, by induction on its negations. -/
theorem exists_holds_and_exists_not (hf : f.subject? ≠ none) :
    (∃ I, f.Holds I) ∧ ∃ I, ¬f.Holds I := by
  induction f with
  | falsum | or => exact (hf rfl).elim
  | atom name =>
      exact ⟨⟨.uniform true 0, rfl⟩, ⟨.uniform false 0, by simp [Holds, Interpretation.uniform]⟩⟩
  | count multiplicity relation =>
      obtain ⟨k, hk⟩ := multiplicity.exists_allows
      obtain ⟨l, hl⟩ := multiplicity.exists_not_allows
      exact ⟨⟨.uniform true k, hk⟩, ⟨.uniform true l, hl⟩⟩
  | not body ih =>
      obtain ⟨⟨I, hI⟩, ⟨J, hJ⟩⟩ := ih hf
      exact ⟨⟨J, hJ⟩, ⟨I, not_not.mpr hI⟩⟩

/-- **Equivalent literals have the same subject.**  Otherwise the value of one subject could be
changed so that one literal becomes false, and the other stays true. -/
theorem subject?_eq_of_equivalent (hf : f.subject? = some s) (hg : g.subject? = some s')
    (h : f.Equivalent g) : s = s' := by
  by_contra hne
  obtain ⟨⟨I, hI⟩, ⟨J, hJ⟩⟩ := exists_holds_and_exists_not (f := f) (by simp [hf])
  have hfalse : ¬f.Holds (I.withValue s J) := by
    rwa [holds_congr hf Interpretation.agreeOn_withValue_self]
  have htrue : g.Holds (I.withValue s J) := by
    rw [holds_congr hg (Interpretation.agreeOn_withValue_of_ne hne), ← h I]
    exact hI
  exact hfalse ((h _).mpr htrue)

/-! ### Normal forms about one subject -/

theorem IsNormal.eq_of_subject_atom (h : f.IsNormal) (hf : f.subject? = some (.atom name)) :
    f = .atom name ∨ f = .not (.atom name) := by
  cases f with
  | falsum | or | count => cases hf
  | atom =>
      cases hf
      exact .inl rfl
  | not body =>
      cases body with
      | falsum | or | count => cases hf
      | atom =>
          cases hf
          exact .inr rfl
      | not => exact h.elim

theorem IsNormal.exists_of_subject_relation (h : f.IsNormal)
    (hf : f.subject? = some (.relation name)) :
    ∃ m : Multiplicity, f = .count m name ∨ m.complement? = none ∧ f = .not (.count m name) := by
  cases f with
  | falsum | or | atom => cases hf
  | count m =>
      cases hf
      exact ⟨m, .inl rfl⟩
  | not body =>
      cases body with
      | falsum | or | atom => cases hf
      | count m =>
          cases hf
          exact ⟨m, .inr ⟨h, rfl⟩⟩
      | not => exact h.elim

theorem not_equivalent_not_count {m n : Multiplicity} (hn : n.complement? = none) :
    ¬(Formula.count m name).Equivalent (.not (.count n name)) := by
  intro h
  have hcomplement : n.complement? = some m :=
    Multiplicity.complement?_eq_some_iff.mpr fun k => h (.uniform true k)
  simp [hn] at hcomplement

/-- **Equivalent normal forms about one subject are equal.** -/
theorem IsNormal.eq_of_equivalent (hf : f.IsNormal) (hg : g.IsNormal) (hfs : f.subject? = some s)
    (hgs : g.subject? = some s) (h : f.Equivalent g) : f = g := by
  cases s with
  | atom name =>
      -- An atom that is true makes its negation false.
      have hatom := h (.uniform true 0)
      obtain rfl | rfl := hf.eq_of_subject_atom hfs
      all_goals
        obtain rfl | rfl := hg.eq_of_subject_atom hgs
        all_goals simp [Holds, Interpretation.uniform] at hatom ⊢
  | relation name =>
      obtain ⟨m, rfl | ⟨hm, rfl⟩⟩ := hf.exists_of_subject_relation hfs
      · obtain ⟨n, rfl | ⟨hn, rfl⟩⟩ := hg.exists_of_subject_relation hgs
        · rw [Multiplicity.eq_of_allows_iff fun k => h (.uniform true k)]
        · exact absurd h (not_equivalent_not_count hn)
      · obtain ⟨n, rfl | ⟨hn, rfl⟩⟩ := hg.exists_of_subject_relation hgs
        · exact absurd h.symm (not_equivalent_not_count hm)
        · rw [Multiplicity.eq_of_allows_iff fun k => not_iff_not.mp (h (.uniform true k))]

/-! ### Canonical forms -/

/-- **Literals are equivalent exactly if their normal forms are equal.** -/
theorem equivalent_iff_normalised_eq (hf : f.subject? ≠ none) (hg : g.subject? ≠ none) :
    f.Equivalent g ↔ f.normalised = g.normalised := by
  constructor
  · intro h
    obtain ⟨s, hs⟩ := Option.ne_none_iff_exists'.mp hf
    obtain ⟨s', hs'⟩ := Option.ne_none_iff_exists'.mp hg
    obtain rfl := subject?_eq_of_equivalent hs hs' h
    refine f.isNormal_normalised.eq_of_equivalent g.isNormal_normalised
      ((subject?_normalised f).trans hs) ((subject?_normalised g).trans hs') fun I => ?_
    rw [holds_normalised, holds_normalised, h I]
  · intro h I
    rw [← holds_normalised, h, holds_normalised]

/-- **Normal forms of literals are canonical**: formulas made of an atom or a constraint by any
number of negations are true under the same interpretations exactly if their normal forms are equal.

For any formula at all, normalising is idempotent and keeps the meaning; the complement is a normal
form, that of the negation, and false exactly when the formula is true; and complementing twice is
normalising. -/
theorem normal_forms_canonical (f g : Formula) :
    (f.subject? ≠ none → g.subject? ≠ none →
      ((∀ I, f.Holds I ↔ g.Holds I) ↔ f.normalised = g.normalised)) ∧
    f.normalised.normalised = f.normalised ∧
    (∀ I, f.normalised.Holds I ↔ f.Holds I) ∧
    f.complement.IsNormal ∧ f.complement.normalised = f.complement ∧
    f.complement = (Formula.not f).normalised ∧
    (∀ I, ¬f.complement.Holds I ↔ f.Holds I) ∧
    f.complement.complement = f.normalised := by
  refine ⟨equivalent_iff_normalised_eq, f.isNormal_normalised.normalised_eq,
    fun I => holds_normalised I f, f.isNormal_complement, f.isNormal_complement.normalised_eq, rfl,
    fun I => ?_, f.complement_complement⟩
  rw [holds_complement, not_not]

/-- Three negations of *some* mean *no*.  Not having exactly one member differs from having none. -/
theorem normal_forms_canonical_counts :
    (∀ I, (Formula.not (.not (.not (.count .some "r")))).Holds I ↔ (Formula.count .no "r").Holds I) ∧
      ¬∀ I, (Formula.not (.count .one "r")).Holds I ↔ (Formula.count .no "r").Holds I := by
  obtain ⟨hsome, -⟩ :=
    normal_forms_canonical (.not (.not (.not (.count .some "r")))) (.count .no "r")
  obtain ⟨hone, -⟩ := normal_forms_canonical (.not (.count .one "r")) (.count .no "r")
  refine ⟨(hsome (by decide) (by decide)).mpr (by decide), fun hsame => ?_⟩
  have heq := (hone (by decide) (by decide)).mp hsame
  revert heq
  decide

end Formula
end Refutation
