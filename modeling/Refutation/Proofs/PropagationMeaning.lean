import Refutation.Formula.Meaning
import Refutation.Propagation
import Refutation.Valuation

/-! # Unit propagation preserves meaning

A literal known to be true satisfies the clauses that contain it, and a literal known to be false
adds nothing to the clauses that contain it.  So dropping the former and shortening the latter
changes nothing about whether all clauses hold.

For this it does not matter what clauses and literals are made of.  A `Meaning` says when they hold,
and asks that a clause holds exactly if one of its literals does, that the disjunction of some
literals holds exactly if one of them does, and that a literal may be replaced by its form.  One
clause (`Meaning.holds_iff_remains`), one literal (`Meaning.holds_propagate_iff`) and a sequence of
literals (`Meaning.holds_unitPropagate_iff`) are treated in this generality.  A valuation gives a
meaning to lists of integer literals and an interpretation gives one to formulas, whatever negations
and disjunctions these are nested from (`propagate_preserves_meaning`). -/

namespace Refutation

/-- When clauses and their literals hold. -/
structure Meaning (C L : Type) [Disjunctive C L] where
  Holds : C → Prop
  LiteralHolds : L → Prop
  holds_iff_literals : ∀ c, Holds c ↔ ∃ l ∈ Disjunctive.literals c, LiteralHolds l
  holds_ofLiterals : ∀ ls, Holds (Disjunctive.ofLiterals ls) ↔ ∃ l ∈ ls, LiteralHolds l
  literalHolds_form : ∀ l, LiteralHolds (Disjunctive.form C l) ↔ LiteralHolds l

section outcomes

variable {C L : Type} [Disjunctive C L] [DecidableEq L] {clause : C} {literal complement : L}

theorem simplify_of_mem (h : Disjunctive.form C literal ∈ Disjunctive.literals clause) :
    simplify clause literal complement = .satisfied := if_pos h

theorem simplify_of_complement_mem
    (h : Disjunctive.form C literal ∉ Disjunctive.literals clause)
    (hcomplement : Disjunctive.form C complement ∈ Disjunctive.literals clause) :
    simplify clause literal complement = .shortened (Disjunctive.ofLiterals
      ((Disjunctive.literals clause).filter (· ≠ Disjunctive.form C complement))) :=
  (if_neg h).trans (if_pos hcomplement)

theorem simplify_of_not_mem (h : Disjunctive.form C literal ∉ Disjunctive.literals clause)
    (hcomplement : Disjunctive.form C complement ∉ Disjunctive.literals clause) :
    simplify clause literal complement = .unchanged :=
  (if_neg h).trans (if_neg hcomplement)

end outcomes

namespace Meaning

variable {C L : Type} [Disjunctive C L] [DecidableEq L] (M : Meaning C L) {clause : C}
  {literal complement : L}

/-! ### One clause -/

omit [DecidableEq L] in
theorem holds_of_mem (hliteral : M.LiteralHolds literal)
    (h : Disjunctive.form C literal ∈ Disjunctive.literals clause) : M.Holds clause := by
  rw [M.holds_iff_literals]
  exact ⟨_, h, (M.literalHolds_form literal).mpr hliteral⟩

theorem holds_removed_iff (hcomplement : ¬M.LiteralHolds complement) :
    M.Holds (Disjunctive.ofLiterals
        ((Disjunctive.literals clause).filter (· ≠ Disjunctive.form C complement))) ↔
      M.Holds clause := by
  rw [M.holds_ofLiterals, M.holds_iff_literals]
  constructor
  · rintro ⟨l, hl, hholds⟩
    exact ⟨l, (List.mem_filter.mp hl).1, hholds⟩
  · rintro ⟨l, hl, hholds⟩
    refine ⟨l, List.mem_filter.mpr ⟨hl, decide_eq_true ?_⟩, hholds⟩
    rintro rfl
    exact hcomplement ((M.literalHolds_form complement).mp hholds)

/-- **A clause holds exactly if what remains of it does**; nothing remains of a clause that holds
already. -/
theorem holds_iff_remains (hliteral : M.LiteralHolds literal)
    (hcomplement : ¬M.LiteralHolds complement) :
    M.Holds clause ↔
      ∀ rest, (simplify clause literal complement).remains? clause = some rest → M.Holds rest := by
  by_cases hmem : Disjunctive.form C literal ∈ Disjunctive.literals clause
  · rw [simplify_of_mem hmem]
    simp [Outcome.remains?, M.holds_of_mem hliteral hmem]
  by_cases hcomp : Disjunctive.form C complement ∈ Disjunctive.literals clause
  · rw [simplify_of_complement_mem hmem hcomp]
    simp only [Outcome.remains?, Option.some.injEq, forall_eq', M.holds_removed_iff hcomplement]
  · rw [simplify_of_not_mem hmem hcomp]
    simp [Outcome.remains?]

/-! ### All clauses -/

variable [DecidableEq C] (clauses : List C)

theorem holds_propagate_iff (hliteral : M.LiteralHolds literal)
    (hcomplement : ¬M.LiteralHolds complement) :
    (∀ c ∈ propagate clauses literal complement, M.Holds c) ↔ ∀ c ∈ clauses, M.Holds c := by
  simp only [propagate, List.mem_eraseDups, List.mem_filterMap]
  constructor
  · intro h c hc
    rw [M.holds_iff_remains hliteral hcomplement]
    exact fun rest hrest => h rest ⟨c, hc, hrest⟩
  · rintro h rest ⟨c, hc, hrest⟩
    exact (M.holds_iff_remains hliteral hcomplement).mp (h c hc) rest hrest

/-- **Propagating literals one after the other keeps the meaning of the clauses together**, if the
complements of the literals are false. -/
theorem holds_unitPropagate_iff {literals : List L} (hliterals : ∀ l ∈ literals, M.LiteralHolds l)
    (hcomplements : ∀ l ∈ literals, ¬M.LiteralHolds (Disjunctive.complement C l)) :
    (∀ c ∈ literals.foldl unitPropagate clauses, M.Holds c) ↔ ∀ c ∈ clauses, M.Holds c := by
  induction literals generalizing clauses with
  | nil => exact Iff.rfl
  | cons l literals ih =>
      rw [List.forall_mem_cons] at hliterals hcomplements
      rw [List.foldl_cons, ih _ hliterals.2 hcomplements.2]
      exact M.holds_propagate_iff clauses hliterals.1 hcomplements.1

end Meaning

/-! ### The two kinds of clauses -/

/-- What a valuation makes of lists of integer literals. -/
def Valuation.meaning (v : Valuation) : Meaning (List Literal) Literal where
  Holds := Satisfies v
  LiteralHolds := Literal.Holds v
  holds_iff_literals _ := Iff.rfl
  holds_ofLiterals _ := Iff.rfl
  literalHolds_form _ := Iff.rfl

/-- What an interpretation makes of formulas read as clauses.  Their literals may be any formulas in
normal form, disjunctions and false among them. -/
def Interpretation.meaning (I : Interpretation) : Meaning Formula Formula where
  Holds f := f.Holds I
  LiteralHolds f := f.Holds I
  holds_iff_literals f := by
    rw [← f.exists_mem_disjuncts_holds I]
    constructor
    · rintro ⟨g, hg, hholds⟩
      exact ⟨g.normalised, List.mem_map_of_mem hg, (g.holds_normalised I).mpr hholds⟩
    · rintro ⟨l, hl, hholds⟩
      obtain ⟨g, hg, rfl⟩ := List.mem_map.mp hl
      exact ⟨g, hg, (g.holds_normalised I).mp hholds⟩
  holds_ofLiterals := Formula.holds_disjunction I
  literalHolds_form := Formula.holds_normalised I

/-- **Unit propagation preserves meaning**, for formulas under any interpretation and for integer
clauses under any valuation.

With a complement chosen freely, a literal that is true and has a false complement leaves clauses
that are all true exactly if those given are.  The complement that belongs to a literal is false
whenever the literal is true, except that `0` and the least integer have none.  So the same is true
of any sequence of true literals, each propagated through what the one before has left, and of a
single literal in particular. -/
theorem propagate_preserves_meaning (I : Interpretation) (v : Valuation) :
    (∀ (clauses : List Formula) (literal : Formula) (complement : Formula → Formula),
      literal.Holds I → ¬(complement literal).Holds I →
        ((∀ c ∈ clauses, c.Holds I) ↔
          ∀ c ∈ propagate clauses literal (complement literal), c.Holds I)) ∧
    (∀ (clauses : List (List Literal)) (literal : Literal) (complement : Literal → Literal),
      Literal.Holds v literal → ¬Literal.Holds v (complement literal) →
        ((∀ c ∈ clauses, Satisfies v c) ↔
          ∀ c ∈ propagate clauses literal (complement literal), Satisfies v c)) ∧
    (∀ literal : Formula, literal.Holds I → ¬literal.complement.Holds I) ∧
    (∀ literal : Literal, literal.Proper → Literal.Holds v literal →
      ¬Literal.Holds v (-literal)) ∧
    (∀ (clauses : List Formula) (literals : List Formula), (∀ l ∈ literals, l.Holds I) →
      ((∀ c ∈ clauses, c.Holds I) ↔
        ∀ c ∈ literals.foldl unitPropagate clauses, c.Holds I)) ∧
    ∀ (clauses : List (List Literal)) (literals : List Literal),
      (∀ l ∈ literals, l.Proper ∧ Literal.Holds v l) →
        ((∀ c ∈ clauses, Satisfies v c) ↔
          ∀ c ∈ literals.foldl unitPropagate clauses, Satisfies v c) := by
  have hformula : ∀ literal : Formula, literal.Holds I → ¬literal.complement.Holds I :=
    fun literal hliteral hcomplement => (literal.holds_complement I).mp hcomplement hliteral
  have hinteger : ∀ literal : Literal, literal.Proper → Literal.Holds v literal →
      ¬Literal.Holds v (-literal) :=
    fun literal hproper hliteral hneg => (Literal.holds_neg hproper v).mp hneg hliteral
  refine ⟨?_, ?_, hformula, hinteger, ?_, ?_⟩
  · intro clauses literal complement hliteral hcomplement
    exact (I.meaning.holds_propagate_iff clauses hliteral hcomplement).symm
  · intro clauses literal complement hliteral hcomplement
    exact (v.meaning.holds_propagate_iff clauses hliteral hcomplement).symm
  · intro clauses literals hliterals
    exact (I.meaning.holds_unitPropagate_iff clauses hliterals
      fun l hl => hformula l (hliterals l hl)).symm
  · intro clauses literals hliterals
    exact (v.meaning.holds_unitPropagate_iff clauses (fun l hl => (hliterals l hl).2)
      fun l hl => hinteger l (hliterals l hl).1 (hliterals l hl).2).symm

/-- Cases under an interpretation in which `q` is true and `r` has two members, and a valuation in
which `1` is true and all other atoms are false.

The literal `some r` satisfies its double negation and removes `no r` and its own negation; a
negated disjunction and a doubly negated false stay.  With `one r` chosen as its complement it
removes that instead.  The literals `1` and then `¬2` leave two unit clauses, and `1` with the
complement `2` keeps `¬1`. -/
theorem propagate_preserves_meaning_sample :
    (Formula.count .some "r").Holds ⟨(· == "q"), fun _ => 2⟩ ∧
      ¬(Formula.count .one "r").Holds ⟨(· == "q"), fun _ => 2⟩ ∧
      (∀ l ∈ ([1, -2] : List Literal), l.Proper ∧ Literal.Holds (· == 1) l) ∧
      ((∀ c ∈ [Formula.or (.not (.not (.count .some "r"))) (.atom "p"),
          .or (.not (.or (.atom "p") (.atom "q"))) (.count .no "r"),
          .or (.not (.not .falsum)) (.or (.not (.count .some "r")) (.atom "q"))],
        c.Holds ⟨(· == "q"), fun _ => 2⟩) ↔
        ∀ c ∈ [Formula.not (.or (.atom "p") (.atom "q")), .or .falsum (.atom "q")],
          c.Holds ⟨(· == "q"), fun _ => 2⟩) ∧
      ((∀ c ∈ [Formula.or (.count .one "r") (.atom "q"), .or (.count .no "r") (.atom "q")],
        c.Holds ⟨(· == "q"), fun _ => 2⟩) ↔
        ∀ c ∈ [Formula.atom "q", .or (.count .no "r") (.atom "q")],
          c.Holds ⟨(· == "q"), fun _ => 2⟩) ∧
      ((∀ c ∈ ([[1, 3], [-1, 2, 4, -1], [3, 2]] : List (List Literal)), Satisfies (· == 1) c) ↔
        ∀ c ∈ ([[4], [3]] : List (List Literal)), Satisfies (· == 1) c) ∧
      ((∀ c ∈ ([[-1, 3], [2, 3]] : List (List Literal)), Satisfies (· == 1) c) ↔
        ∀ c ∈ ([[-1, 3], [3]] : List (List Literal)), Satisfies (· == 1) c) := by
  obtain ⟨hformulaWith, hintegerWith, -, -, hformula, hinteger⟩ :=
    propagate_preserves_meaning ⟨(· == "q"), fun _ => 2⟩ (· == 1)
  have hsome : (Formula.count .some "r").Holds ⟨(· == "q"), fun _ => 2⟩ :=
    show 1 ≤ 2 by decide
  have hone : ¬(Formula.count .one "r").Holds ⟨(· == "q"), fun _ => 2⟩ :=
    show ¬2 = 1 by decide
  have hliterals : ∀ l ∈ ([1, -2] : List Literal), l.Proper ∧ Literal.Holds (· == 1) l := by
    rw [List.forall_mem_cons, List.forall_mem_singleton]
    exact ⟨⟨by decide, by decide⟩, by decide, by decide⟩
  refine ⟨hsome, hone, hliterals, ?_, ?_, ?_, ?_⟩
  · exact hformula _ [.count .some "r"] fun l hl => List.mem_singleton.mp hl ▸ hsome
  · exact hformulaWith _ (.count .some "r") (fun _ => .count .one "r") hsome hone
  · exact hinteger _ [1, -2] hliterals
  · exact hintegerWith _ 1 (fun _ => 2) (by decide) (by decide)

end Refutation
