import Refutation.Proofs.PropagationMeaning
import Refutation.Proofs.Repeats

/-! # The order of propagation

When literals are propagated one after the other, repeats are merged and satisfied clauses dropped
in between.  It makes no difference: each clause can be treated on its own, by all the literals, and
repeats may be merged once at the end (`foldl_unitPropagate_cons`).

For integer clauses there is a closed form of what is left of a clause.  A clause that contains one
of the literals is satisfied, and any other loses their complements, in whatever order they come and
however often (`foldl_unitPropagate_literals`). -/

namespace Refutation

/-! ### Each clause on its own -/

section clauses

variable {C L : Type} [Disjunctive C L] [DecidableEq L]

/-- What is left of a clause if a literal is true; nothing if that satisfies the clause. -/
def assign? (clause : C) (literal : L) : Option C :=
  (simplify clause literal (Disjunctive.complement C literal)).remains? clause

/-- What is left of a clause if some literals are true. -/
def assignAll? (clause : C) (literals : List L) : Option C := literals.foldlM assign? clause

theorem assignAll?_cons (clause : C) (literal : L) (literals : List L) :
    assignAll? clause (literal :: literals) =
      (assign? clause literal).bind (assignAll? · literals) := rfl

theorem assignAll?_singleton (clause : C) (literal : L) :
    assignAll? clause [literal] = assign? clause literal := by
  simp [assignAll?]

variable [DecidableEq C] [BEq C] [LawfulBEq C] (clauses : List C) (literal : L) (literals : List L)

theorem unitPropagate_eq :
    unitPropagate clauses literal = (clauses.filterMap (assign? · literal)).eraseDups :=
  eraseDups_eq_of_lawful _ _ _

theorem mem_unitPropagate_iff {result : C} :
    result ∈ unitPropagate clauses literal ↔ ∃ c ∈ clauses, assign? c literal = some result := by
  rw [unitPropagate_eq, List.mem_eraseDups, List.mem_filterMap]

theorem unitPropagate_eq_self_iff :
    unitPropagate clauses literal = clauses ↔
      clauses.Nodup ∧ ∀ c ∈ clauses, assign? c literal = some c := by
  have hkept : clauses.filterMap (assign? · literal) = clauses ↔
      ∀ c ∈ clauses, assign? c literal = some c := by
    simpa using List.filterMap_eq_map_iff_forall_eq_some (f := (assign? · literal)) (g := id)
      (l := clauses)
  rw [unitPropagate_eq, ← hkept]
  constructor
  · intro hsame
    -- Neither step can lengthen the list, so that neither of them does anything.
    have hall : clauses.filterMap (assign? · literal) = clauses :=
      ((eraseDups_sublist _).eq_of_length_le
        (by rw [hsame]; exact List.length_filterMap_le _ _)).symm.trans hsame
    exact ⟨eraseDups_eq_self_iff.mp (by rwa [hall] at hsame), hall⟩
  · rintro ⟨hnodup, hsame⟩
    rw [hsame, eraseDups_eq_self_iff.mpr hnodup]

/-- **Propagating literals treats each clause on its own**, and merges repeats. -/
theorem foldl_unitPropagate_cons :
    (literal :: literals).foldl unitPropagate clauses =
      (clauses.filterMap (assignAll? · (literal :: literals))).eraseDups := by
  induction literals generalizing clauses literal with
  | nil => simp only [List.foldl_cons, List.foldl_nil, unitPropagate_eq, assignAll?_singleton]
  | cons next literals ih =>
      rw [List.foldl_cons, ih, unitPropagate_eq, eraseDups_filterMap_eraseDups,
        List.filterMap_filterMap]
      rfl

theorem unitPropagate_unitPropagate_eq (literal' : L) :
    unitPropagate (unitPropagate clauses literal) literal' =
      (clauses.filterMap fun c => (assign? c literal).bind (assign? · literal')).eraseDups := by
  refine (foldl_unitPropagate_cons clauses literal [literal']).trans ?_
  simp only [assignAll?_cons _ literal [literal'], assignAll?_singleton]

end clauses

/-! ### Integer literals -/

variable {literals : List Literal}

theorem assign?_literals (clause : List Literal) (literal : Literal) :
    assign? clause literal =
      if literal ∈ clause then none else some (clause.filter (· ≠ -literal)) := by
  unfold assign?
  rw [simplify_literals]
  split
  · rfl
  · split
    · rfl
    · next hmem =>
      have hself : clause.filter (· ≠ -literal) = clause := by
        rw [List.filter_eq_self]
        intro l hl
        refine decide_eq_true ?_
        rintro rfl
        exact hmem hl
      rw [hself]
      rfl

/-- What is left of a clause if no two of the literals are complementary: none of its literals is
lost before it could satisfy the clause. -/
theorem assignAll?_literals (hconsistent : ∀ l ∈ literals, -l ∉ literals) (clause : List Literal) :
    assignAll? clause literals =
      if literals.all (· ∉ clause) then some (clause.filter fun k => literals.all (k ≠ -·))
      else none := by
  induction literals generalizing clause with
  | nil => simp [assignAll?]
  | cons literal literals ih =>
      have hrest : ∀ l ∈ literals, -l ∉ literals := fun l hl hneg =>
        hconsistent l (List.mem_cons_of_mem _ hl) (List.mem_cons_of_mem _ hneg)
      rw [assignAll?_cons, assign?_literals]
      by_cases hmem : literal ∈ clause
      · simp [hmem]
      · have hkept : (literals.all fun l => l ∉ clause.filter (· ≠ -literal)) =
            literals.all (· ∉ clause) := by
          rw [Bool.eq_iff_iff, List.all_eq_true, List.all_eq_true]
          refine forall₂_congr fun l hl => ?_
          rw [decide_eq_true_eq, decide_eq_true_eq, List.mem_filter]
          refine not_congr (and_iff_left (decide_eq_true ?_))
          rintro rfl
          exact hconsistent literal List.mem_cons_self (List.mem_cons_of_mem _ hl)
        rw [if_neg hmem, Option.bind_some, ih hrest, hkept]
        simp only [List.all_cons, hmem, not_false_eq_true, decide_true, Bool.true_and,
          List.filter_filter, Bool.and_comm]

/-- **Propagating integer literals does not depend on their order.**

Let none of the literals be the complement of another, or of itself, as `0` and the least integer
are.  Propagating them one after the other leaves the clauses that contain none of them, each
without their complements; of equal ones the first is kept.  So any list of the same literals, in
another order or with other repeats, leaves exactly the same. -/
theorem foldl_unitPropagate_literals (clauses : List (List Literal)) (hne : literals ≠ [])
    (hconsistent : ∀ l ∈ literals, -l ∉ literals) :
    literals.foldl unitPropagate clauses =
        ((clauses.filter fun clause => literals.all (· ∉ clause)).map fun clause =>
          clause.filter fun k => literals.all (k ≠ -·)).eraseDups ∧
      ∀ literals' : List Literal, (∀ l, l ∈ literals' ↔ l ∈ literals) →
        literals'.foldl unitPropagate clauses = literals.foldl unitPropagate clauses := by
  have hform : ∀ ls : List Literal, ls ≠ [] → (∀ l ∈ ls, -l ∉ ls) →
      ls.foldl unitPropagate clauses =
        ((clauses.filter fun clause => ls.all (· ∉ clause)).map fun clause =>
          clause.filter fun k => ls.all (k ≠ -·)).eraseDups := by
    intro ls hne hconsistent
    obtain ⟨l, rest, rfl⟩ := List.exists_cons_of_ne_nil hne
    rw [foldl_unitPropagate_cons, ← List.filterMap_eq_map, List.filterMap_filter]
    refine congrArg List.eraseDups (List.filterMap_congr fun clause _ => ?_)
    exact assignAll?_literals hconsistent clause
  refine ⟨hform literals hne hconsistent, fun literals' hsame => ?_⟩
  have hne' : literals' ≠ [] := by
    obtain ⟨l, hl⟩ := List.exists_mem_of_ne_nil literals hne
    exact List.ne_nil_of_mem ((hsame l).mpr hl)
  have hall : ∀ p : Literal → Bool, literals'.all p = literals.all p := fun p => by
    rw [Bool.eq_iff_iff, List.all_eq_true, List.all_eq_true]
    simp only [hsame]
  rw [hform literals hne hconsistent,
    hform literals' hne' (by simpa only [hsame] using hconsistent)]
  simp only [hall]

/-- Literals `1` and `¬2`, with a clause that contains both `1` and its complement, one that `¬2`
satisfies only after a repeat of it was merged, and repeats that the second literal brings about. -/
theorem foldl_unitPropagate_literals_sample :
    ([1, -2, 1] : List Literal) ≠ [] ∧
      (∀ l ∈ ([1, -2, 1] : List Literal), -l ∉ ([1, -2, 1] : List Literal)) ∧
      [1, -2, 1].foldl unitPropagate
          ([[3, 1, -1], [-1, 4, 2, 4], [4, 4], [-2, 5], [-1, -2, 5], [2], [2, -1]] : List (List Literal)) =
        [[4, 4], []] ∧
      [-2, 1].foldl unitPropagate
          ([[3, 1, -1], [-1, 4, 2, 4], [4, 4], [-2, 5], [-1, -2, 5], [2], [2, -1]] : List (List Literal)) =
        [1, -2, 1].foldl unitPropagate
          ([[3, 1, -1], [-1, 4, 2, 4], [4, 4], [-2, 5], [-1, -2, 5], [2], [2, -1]] : List (List Literal)) := by
  have hne : ([1, -2, 1] : List Literal) ≠ [] := List.cons_ne_nil _ _
  have hall : ([1, -2, 1] : List Literal).all (-· ∉ ([1, -2, 1] : List Literal)) = true := by
    decide +kernel
  have hconsistent : ∀ l ∈ ([1, -2, 1] : List Literal), -l ∉ ([1, -2, 1] : List Literal) :=
    fun l hl => of_decide_eq_true (List.all_eq_true.mp hall l hl)
  obtain ⟨hform, hsame⟩ := foldl_unitPropagate_literals
    [[3, 1, -1], [-1, 4, 2, 4], [4, 4], [-2, 5], [-1, -2, 5], [2], [2, -1]] hne hconsistent
  exact ⟨hne, hconsistent, hform.trans (by decide +kernel),
    hsame [-2, 1] fun l => by simp [or_comm]⟩

end Refutation
