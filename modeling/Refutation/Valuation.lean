import Refutation.Trace.Basic

/-! # What clauses mean

A valuation gives each atom a truth value.  It satisfies a clause if some literal of the clause
holds, and some clauses entail another if every valuation that satisfies them satisfies it.

A trace is *justified* if each of its resolvents is entailed by its antecedents.  The axioms of a
justified trace then entail all of its clauses (`Trace.satisfied_of_axioms`), so that a justified
trace with an empty clause refutes its axioms. -/

namespace Refutation

/-- A truth value for each atom. -/
abbrev Valuation := Nat → Bool

/-- A literal holds if its atom has the truth value that the literal gives it. -/
def Literal.Holds (v : Valuation) (l : Literal) : Prop := v (Literal.atom l) = Literal.polarity l

instance (v : Valuation) (l : Literal) : Decidable (Literal.Holds v l) :=
  inferInstanceAs (Decidable (_ = _))

/-- A valuation satisfies a list of literals, read as a clause, if one of them holds. -/
def Satisfies (v : Valuation) (literals : List Literal) : Prop := ∃ l ∈ literals, Literal.Holds v l

instance (v : Valuation) (literals : List Literal) : Decidable (Satisfies v literals) :=
  List.decidableBEx (Literal.Holds v) literals

/-- A valuation satisfies the clause at an index, if there is one. -/
def Trace.SatisfiedAt (t : Trace) (v : Valuation) (i : Nat) : Prop :=
  ∀ c, t.clause? i = some c → Satisfies v c.literals

/-- Every resolvent is entailed by its antecedents. -/
def Trace.Justified (t : Trace) : Prop :=
  ∀ i c, t.clause? i = some c → c.isAxiom = false →
    ∀ v, (∀ a ∈ c.antecedents, t.SatisfiedAt v a) → Satisfies v c.literals

/-! ### Literals -/

@[simp]
theorem not_satisfies_nil (v : Valuation) : ¬Satisfies v [] := by
  simp [Satisfies]

theorem satisfies_cons {v : Valuation} {l : Literal} {ls : List Literal} :
    Satisfies v (l :: ls) ↔ Literal.Holds v l ∨ Satisfies v ls := by
  simp [Satisfies]

theorem Literal.toInt_neg {l : Literal} (h : l.Proper) : (-l).toInt = -l.toInt := by
  have hmin : l.toInt ≠ -2147483648 := fun hm => h.2 (Int32.toInt_inj.mp hm)
  have hlow := Int32.le_toInt l
  have hhigh := Int32.toInt_lt l
  rw [Int32.toInt_neg, Int.bmod_eq_of_le] <;> omega

theorem Literal.atom_neg {l : Literal} (h : l.Proper) : Literal.atom (-l) = Literal.atom l := by
  unfold Literal.atom
  rw [Literal.toInt_neg h, Int.natAbs_neg]

theorem Literal.polarity_neg {l : Literal} (h : l.Proper) :
    Literal.polarity (-l) = !Literal.polarity l := by
  have hzero : l.toInt ≠ 0 := fun h0 => h.1 (Int32.toInt_inj.mp h0)
  unfold Literal.polarity
  simp only [Int32.lt_iff_toInt_lt, Literal.toInt_neg h, Int32.toInt_zero]
  by_cases hpos : 0 < l.toInt
  · simp only [hpos, decide_true, Bool.not_true, decide_eq_false_iff_not]
    omega
  · simp only [hpos, decide_false, Bool.not_false, decide_eq_true_eq]
    omega

theorem Literal.holds_neg {l : Literal} (h : l.Proper) (v : Valuation) :
    Literal.Holds v (-l) ↔ ¬Literal.Holds v l := by
  unfold Literal.Holds
  rw [Literal.atom_neg h, Literal.polarity_neg h]
  cases v (Literal.atom l) <;> cases Literal.polarity l <;> simp

/-- **Resolution is sound**: what is left of two clauses without a literal and its complement is
satisfied with them. -/
theorem Satisfies.resolve {v : Valuation} {l : Literal} {xs ys zs : List Literal} (hl : l.Proper)
    (hxs : Satisfies v xs) (hys : Satisfies v ys) (hzs : xs.erase l ++ ys.erase (-l) ⊆ zs) :
    Satisfies v zs := by
  obtain ⟨x, hx, hholds⟩ := hxs
  obtain ⟨y, hy, hholds'⟩ := hys
  by_cases hxl : x = l
  · subst hxl
    have hne : y ≠ -x := fun heq => (Literal.holds_neg hl v).mp (heq ▸ hholds') hholds
    exact ⟨y, hzs (List.mem_append_right _ ((List.mem_erase_of_ne hne).mpr hy)), hholds'⟩
  · exact ⟨x, hzs (List.mem_append_left _ ((List.mem_erase_of_ne hxl).mpr hx)), hholds⟩

/-! ### Traces -/

theorem Trace.justified_of_axioms {t : Trace} (h : ∀ c ∈ t.clauses, c.isAxiom = true) :
    t.Justified := by
  intro i c hc hresolvent
  cases i with
  | zero => cases hc
  | succ i =>
      rw [h c (Array.mem_of_getElem? hc)] at hresolvent
      cases hresolvent

theorem Trace.satisfied_of_axioms {t : Trace} (hwf : t.WellFormed) (hjust : t.Justified)
    {v : Valuation}
    (hax : ∀ i c, t.clause? i = some c → c.isAxiom = true → Satisfies v c.literals) (i : Nat) :
    t.SatisfiedAt v i := by
  induction i using Nat.strongRecOn with
  | ind i ih =>
      intro c hc
      cases hkind : c.isAxiom with
      | true => exact hax i c hc hkind
      | false => exact hjust i c hc hkind v fun a ha => ih a ((hwf i c hc).antecedent_lt a ha)

end Refutation
