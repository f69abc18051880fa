import Refutation.Formula.Basic

/-! # Normal forms of formulas

A formula is in normal form if the negation in front of it, where there is one, has nothing to
remove: it does not negate a negation, nor a constraint that has a complementary one
(`Formula.IsNormal`).  Negating a normal form by `negate` gives a normal form, so that `normalised`
and `complement` only give normal forms (`Formula.isNormal_normalised`,
`Formula.isNormal_complement`), and a normal form stays as it is (`Formula.IsNormal.normalised_eq`),
also when it is negated twice (`Formula.IsNormal.negate_negate`).

Normalising does not make a formula larger, and splitting a disjunction makes it smaller.  A literal
is about an atom or a relation, its subject.  Negations do not change it. -/

namespace Refutation
namespace Formula

variable {f : Formula}

/-! ### Normal forms -/

/-- No negation in front of the formula can be removed. -/
def IsNormal : Formula → Prop
  | .not (.not _) => False
  | .not (.count multiplicity _) => multiplicity.complement? = none
  | _ => True

theorem isNormal_negate (h : f.IsNormal) : f.negate.IsNormal := by
  cases f with
  | falsum | atom | or => trivial
  | count multiplicity relation =>
      cases hm : multiplicity.complement? with
      | none => simp [negate, hm, IsNormal]
      | some complementary => simp [negate, hm, IsNormal]
  | not body =>
      cases body with
      | not => exact h.elim
      | falsum | atom | count | or => trivial

theorem isNormal_normalised (f : Formula) : f.normalised.IsNormal := by
  induction f with
  | not body ih => exact isNormal_negate ih
  | falsum | atom | count | or => trivial

theorem isNormal_complement (f : Formula) : f.complement.IsNormal :=
  isNormal_negate f.isNormal_normalised

theorem IsNormal.normalised_eq (h : f.IsNormal) : f.normalised = f := by
  cases f with
  | falsum | atom | count | or => rfl
  | not body =>
      cases body with
      | not => exact h.elim
      | count multiplicity relation =>
          have hm : multiplicity.complement? = none := h
          simp [normalised, negate, hm]
      | falsum | atom | or => rfl

theorem IsNormal.negate_negate (h : f.IsNormal) : f.negate.negate = f := by
  cases f with
  | falsum | atom | or => rfl
  | count m relation =>
      cases hm : m.complement? with
      | none => simp [negate, hm]
      | some n => simp [negate, hm, Multiplicity.complement?_complement? hm]
  | not body =>
      cases body with
      | falsum | atom | or => rfl
      | count m relation =>
          have hm : m.complement? = none := h
          simp [negate, hm]
      | not => exact h.elim

theorem complement_complement (f : Formula) : f.complement.complement = f.normalised := by
  rw [complement, f.isNormal_complement.normalised_eq, complement,
    f.isNormal_normalised.negate_negate]

/-! ### Size -/

/-- The number of atoms, constraints and operations in a formula, counting false as one. -/
def size : Formula → Nat
  | .falsum | .atom _ | .count _ _ => 1
  | .not body => body.size + 1
  | .or left right => left.size + right.size + 1

theorem size_negate_le (f : Formula) : f.negate.size ≤ f.size + 1 := by
  cases f with
  | falsum | atom | or => exact Nat.le_refl _
  | count multiplicity relation =>
      cases hm : multiplicity.complement? <;> simp [negate, hm, size]
  | not body => simp only [negate, size]; omega

theorem size_normalised_le (f : Formula) : f.normalised.size ≤ f.size := by
  induction f with
  | falsum | atom | count | or => exact Nat.le_refl _
  | not body ih => exact Nat.le_trans (size_negate_le _) (Nat.succ_le_succ ih)

theorem size_le_of_mem_disjuncts {g : Formula} (h : g ∈ f.disjuncts) : g.size ≤ f.size := by
  induction f with
  | falsum => simp [disjuncts] at h
  | atom | count | not => exact Nat.le_of_eq (congrArg size (List.mem_singleton.mp h))
  | or left right ihl ihr =>
      simp only [size]
      rcases List.mem_append.mp h with h | h
      · have hle := ihl h
        omega
      · have hle := ihr h
        omega

theorem size_lt_of_mem_disjuncts {g : Formula} (hliteral : f.isLiteral = false)
    (h : g ∈ f.disjuncts) : g.size < f.size := by
  cases f with
  | falsum => simp [disjuncts] at h
  | atom | count | not => cases hliteral
  | or left right =>
      simp only [size]
      rcases List.mem_append.mp h with h | h
      · have hle := size_le_of_mem_disjuncts h
        omega
      · have hle := size_le_of_mem_disjuncts h
        omega

/-! ### Subjects -/

/-- What a literal is about. -/
inductive Subject where
  /-- An atom. -/
  | atom (name : String)
  /-- The number of members of a relation. -/
  | relation (name : String)
  deriving DecidableEq, Repr

/-- The subject of a formula: the atom or the relation that it constrains under any number of
negations. -/
def subject? : Formula → Option Subject
  | .atom name => some (.atom name)
  | .count _ relation => some (.relation relation)
  | .not body => body.subject?
  | .falsum | .or _ _ => none

@[simp]
theorem subject?_negate (f : Formula) : f.negate.subject? = f.subject? := by
  cases f with
  | falsum | atom | not | or => rfl
  | count multiplicity relation =>
      cases hm : multiplicity.complement? <;> simp [negate, hm, subject?]

@[simp]
theorem subject?_normalised (f : Formula) : f.normalised.subject? = f.subject? := by
  induction f with
  | not body ih => exact (subject?_negate _).trans ih
  | falsum | atom | count | or => rfl

@[simp]
theorem subject?_complement (f : Formula) : f.complement.subject? = f.subject? :=
  (subject?_negate _).trans (subject?_normalised f)

theorem isLiteral_of_subject? (h : f.subject? ≠ none) : f.isLiteral = true := by
  cases f with
  | falsum | or => exact (h rfl).elim
  | atom | count | not => rfl

end Formula
end Refutation
