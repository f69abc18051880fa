import Refutation.Formula.Basic

/-! # What formulas mean

An interpretation gives each named atom a truth value and each named relation a number of members.
The operations on formulas are sound for this meaning: `negate` negates, `normalised` keeps the
meaning, and splitting and disjoining keep it too. -/

namespace Refutation

/-- A truth value for each atom and a number of members for each relation. -/
structure Interpretation where
  truth : String → Bool
  members : String → Nat

/-- Whether a number of members meets a constraint. -/
def Multiplicity.Allows : Multiplicity → Nat → Prop
  | .some, n => 1 ≤ n
  | .no, n => n = 0
  | .one, n => n = 1
  | .lone, n => n ≤ 1

namespace Formula

/-- The truth of a formula under an interpretation. -/
def Holds (I : Interpretation) : Formula → Prop
  | .falsum => False
  | .atom name => I.truth name = true
  | .count multiplicity relation => multiplicity.Allows (I.members relation)
  | .not body => ¬body.Holds I
  | .or left right => left.Holds I ∨ right.Holds I

theorem allows_complement? {m n : Multiplicity} (h : m.complement? = some n) (k : Nat) :
    n.Allows k ↔ ¬m.Allows k := by
  cases m <;> simp only [Multiplicity.complement?, Option.some.injEq, reduceCtorEq] at h <;>
    subst h <;> simp only [Multiplicity.Allows] <;> omega

variable (I : Interpretation)

theorem holds_negate (f : Formula) : f.negate.Holds I ↔ ¬f.Holds I := by
  cases f with
  | falsum | atom | or => rfl
  | not body => exact Classical.not_not.symm
  | count multiplicity relation =>
      cases hm : multiplicity.complement? with
      | none => simp [negate, hm, Holds]
      | some complementary => simp [negate, hm, Holds, allows_complement? hm]

theorem holds_normalised (f : Formula) : f.normalised.Holds I ↔ f.Holds I := by
  induction f with
  | not body ih => exact (holds_negate I _).trans (not_congr ih)
  | falsum | atom | count | or => rfl

theorem holds_complement (f : Formula) : f.complement.Holds I ↔ ¬f.Holds I :=
  (holds_negate I _).trans (not_congr (holds_normalised I f))

theorem holds_disjunction (fs : List Formula) :
    (disjunction fs).Holds I ↔ ∃ f ∈ fs, f.Holds I := by
  induction fs with
  | nil => simp [disjunction, Holds]
  | cons f rest ih =>
      cases rest with
      | nil => simp [disjunction]
      | cons g rest => simp only [disjunction, Holds, ih, List.mem_cons, exists_eq_or_imp]

theorem exists_mem_disjuncts_holds (f : Formula) :
    (∃ g ∈ f.disjuncts, g.Holds I) ↔ f.Holds I := by
  induction f with
  | falsum => simp [disjuncts, Holds]
  | or left right ihl ihr =>
      rw [Holds, ← ihl, ← ihr]
      simp only [disjuncts, List.mem_append, or_and_right, exists_or]
  | atom | count | not => simp [disjuncts]

end Formula
end Refutation
