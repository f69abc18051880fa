import Mathlib.Order.Bounds.Basic
import Refutation.Proofs.StackCopy

/-! # The greatest atom is that of the last literal

The greatest atom of a clause is found by going through all its literals (`Clause.greatestAtom`).
Where the literals are ordered by atom it is the atom of the last one (`Clause.lastAtom`), which
takes no search.  The clauses of a trace are ordered by atom when they are recorded, and a reduction
only removes literals, so that they stay ordered through any number of reductions.

A copy of a clause in a proof tree has the same literals, and so the same greatest atom
(`Trace.Obtained.lastAtom_isGreatest`). -/

namespace Refutation

/-- The number is the greatest atom of some literals, or `0` if there are none. -/
structure IsGreatestAtom (n : Nat) (ls : List Literal) : Prop where
  eq_zero : ls = [] → n = 0
  isGreatest : ls ≠ [] → IsGreatest {atom | ∃ l ∈ ls, Literal.atom l = atom} n

section literals

variable {m n : Nat} {ls : List Literal} {l : Literal}

theorem IsGreatestAtom.unique (hm : IsGreatestAtom m ls) (hn : IsGreatestAtom n ls) : m = n := by
  by_cases hls : ls = []
  · rw [hm.eq_zero hls, hn.eq_zero hls]
  · exact (hm.isGreatest hls).unique (hn.isGreatest hls)

theorem IsGreatestAtom.atom_le (h : IsGreatestAtom n ls) (hl : l ∈ ls) : l.atom ≤ n :=
  (h.isGreatest (List.ne_nil_of_mem hl)).2 ⟨l, hl, rfl⟩

theorem IsGreatestAtom.of_mem (hl : l ∈ ls) (hle : ∀ k ∈ ls, Literal.atom k ≤ l.atom) :
    IsGreatestAtom l.atom ls := by
  refine ⟨fun hnil => absurd hnil (List.ne_nil_of_mem hl), fun _ => ⟨⟨l, hl, rfl⟩, ?_⟩⟩
  rintro _ ⟨k, hk, rfl⟩
  exact hle k hk

theorem isGreatestAtom_nil : IsGreatestAtom 0 [] := ⟨fun _ => rfl, fun h => absurd rfl h⟩

theorem IsGreatestAtom.concat (h : IsGreatestAtom n ls) (l : Literal) :
    IsGreatestAtom (max n l.atom) (ls ++ [l]) := by
  have hle : ∀ k ∈ ls ++ [l], Literal.atom k ≤ max n l.atom := by
    intro k hk
    rcases List.mem_append.mp hk with hk | hk
    · exact (h.atom_le hk).trans (Nat.le_max_left ..)
    · rw [List.mem_singleton.mp hk]
      exact Nat.le_max_right ..
  rcases Nat.le_total n l.atom with hnl | hln
  · rw [Nat.max_eq_right hnl] at hle ⊢
    exact .of_mem (List.mem_append_right _ List.mem_cons_self) hle
  · rw [Nat.max_eq_left hln] at hle ⊢
    by_cases hls : ls = []
    · -- the first atom is only not greater than nothing if it is 0 itself
      have hzero : n = l.atom := Nat.le_antisymm ((h.eq_zero hls).trans_le (Nat.zero_le _)) hln
      rw [hzero] at hle ⊢
      exact .of_mem (List.mem_append_right _ List.mem_cons_self) hle
    · obtain ⟨k, hk, rfl⟩ := (h.isGreatest hls).1
      exact .of_mem (List.mem_append_left _ hk) hle

end literals

namespace Clause

variable {c : Clause}

/-- **Going through all literals finds the greatest atom**, whatever their order. -/
theorem isGreatestAtom_greatestAtom (c : Clause) : IsGreatestAtom c.greatestAtom c.literals := by
  unfold greatestAtom
  induction c.literals using List.reverseRecOn with
  | nil => exact isGreatestAtom_nil
  | append_singleton ls l ih =>
      rw [List.map_append, List.map_singleton, List.foldl_append]
      exact ih.concat l

/-- **The last literal has the greatest atom** if the literals are ordered by atom. -/
theorem isGreatestAtom_lastAtom
    (h : c.literals.Pairwise fun l k => Literal.atom l ≤ Literal.atom k) :
    IsGreatestAtom c.lastAtom c.literals := by
  unfold lastAtom
  revert h
  cases c.literals using List.reverseRecOn with
  | nil => exact fun _ => isGreatestAtom_nil
  | append_singleton ls l =>
      intro h
      rw [List.getLast?_concat, Option.map_some, Option.getD_some]
      refine .of_mem (List.mem_append_right _ List.mem_cons_self) fun k hk => ?_
      rcases List.mem_append.mp hk with hk | hk
      · exact (List.pairwise_append.mp h).2.2 k hk l List.mem_cons_self
      · rw [List.mem_singleton.mp hk]

end Clause

/-! ### Clauses of traces -/

theorem Literal.atom_le_of_compareByAtom {l k : Literal} (h : compareByAtom l k = .lt) :
    l.atom ≤ k.atom := by
  have hle : (compareByAtom l k).isLE = true := by rw [h]; rfl
  rcases isLE_compareByAtom_iff.mp hle with hlt | ⟨heq, -⟩
  · exact Nat.le_of_lt hlt
  · exact Nat.le_of_eq heq

theorem ProofTree.ExactCopy.exists_node {p q : ProofTree} {g : ClauseGraph} {i key : Nat}
    {keys : Std.TreeMap Nat Nat} (h : ExactCopy p g i q key keys) :
    ∃ c d, g.clause? i = some c ∧ q.node? key = some d ∧ d.literals = c.literals := by
  obtain ⟨c, as, hc, hnode, -⟩ := h.node i key h.keys_self
  exact ⟨c, _, hc, hnode, rfl⟩

theorem ClauseView.CopiedTo.greatestAtom_eq {t : Trace} {i key : Nat} {c : Clause}
    {p q : ProofTree} {keys : Std.TreeMap Nat Nat}
    (h : (ClauseView.clause t i).CopiedTo p q key keys) (hc : t.clause? i = some c) :
    ∃ d, q.node? key = some d ∧ d.greatestAtom = c.greatestAtom := by
  obtain ⟨e, d, he, hd, hliterals⟩ := h.exact.exists_node
  obtain rfl : c = e := Option.some.inj (hc.symm.trans he)
  exact ⟨d, hd, by rw [Clause.greatestAtom, hliterals, Clause.greatestAtom]⟩

/-- **The atom of the last literal of a clause is the greatest**, for every clause of a trace and
after any number of reductions: no literal has a greater atom, some literal has it, and it is `0`
for the empty clause.  It is what going through all literals finds, for the clause and for the root
of a proof tree that the clause and its derivation have been copied to, be it the detached copy or
the copy made with a stack. -/
theorem Trace.Obtained.lastAtom_isGreatest {t : Trace} (ht : t.Obtained) {i : Nat} {c : Clause}
    (hc : t.clause? i = some c) :
    IsGreatestAtom c.lastAtom c.literals ∧ c.lastAtom = c.greatestAtom ∧
      (∃ p, t.proofTree? i = some p ∧
        ∃ d, p.node? p.root = some d ∧ d.greatestAtom = c.lastAtom) ∧
      ∃ r, Copying.EndsWith #[] t.graph i r ∧
        ∃ d, r.tree.node? r.tree.root = some d ∧ d.greatestAtom = c.lastAtom := by
  have hordered : c.literals.Pairwise fun l k => Literal.atom l ≤ Literal.atom k :=
    (ht.wellFormed i c hc).ascending.imp Literal.atom_le_of_compareByAtom
  have hlast := Clause.isGreatestAtom_lastAtom hordered
  have heq : c.lastAtom = c.greatestAtom := hlast.unique c.isGreatestAtom_greatestAtom
  have hview : (ClauseView.clause t i).Obtained :=
    ⟨ht, contains_iff.mpr (isSome_clause?_iff.mp (by rw [hc]; rfl))⟩
  obtain ⟨-, ⟨r, hends, hstack⟩, -, hdetached, hproofTree⟩ :=
    ClauseView.copiedTo_of_obtained hview ⟨#[], 0⟩
  rw [heq]
  exact ⟨heq ▸ hlast, rfl, ⟨_, hproofTree t i rfl, hdetached.greatestAtom_eq hc⟩, r, hends,
    hstack.greatestAtom_eq hc⟩

/-- Clauses with both literals of an atom, and with atoms at the end of the range. -/
def Trace.rangeSample : Trace :=
  ⟨#[⟨[-3, 3, -7, 2147483647], []⟩, ⟨[-2147483647, 2147483647], []⟩]⟩

theorem Trace.rangeSample_obtained : rangeSample.Obtained :=
  obtained_iff_wellFormed.mpr (by decide +kernel)

/-- Two reductions remove the two last literals of the first clause, so that `3` is its greatest
atom. -/
theorem Trace.Obtained.lastAtom_isGreatest_rangeSample :
    rangeSample.Obtained ∧
      rangeSample.clause? 2 = some ⟨[-2147483647, 2147483647], []⟩ ∧
      IsGreatestAtom 2147483647 [-2147483647, 2147483647] ∧
      ∃ r r', rangeSample.reduce .standard [7] = .ok r ∧
        r.toTrace.reduce .standard [-2147483647] = .ok r' ∧
        r'.clause? 1 = some ⟨[-3, 3], []⟩ ∧ IsGreatestAtom 3 [-3, 3] ∧
        ∃ p, r'.proofTree? 1 = some p ∧ ∃ d, p.node? p.root = some d ∧ d.greatestAtom = 3 := by
  have hproper : ∀ l ∈ [7], Literal.Proper l := Reduction.assumptionFault?_eq_none_iff.mp rfl
  have hr := Reduction.reduce_eq_ok .standard rangeSample hproper
  generalize Reduction.rebuild _ _ _ _ = r at hr
  have hproper' : ∀ l ∈ [-2147483647], Literal.Proper l :=
    Reduction.assumptionFault?_eq_none_iff.mp rfl
  have hr' := Reduction.reduce_eq_ok .standard r.toTrace hproper'
  generalize Reduction.rebuild _ _ _ _ = r' at hr'
  have hrun : ((rangeSample.reduce .standard [7]).bind fun r =>
      r.toTrace.reduce .standard [-2147483647]).map (·.clauses) = .ok #[⟨[-3, 3], []⟩] := by
    decide +kernel
  have hclauses : r'.clauses = #[⟨[-3, 3], []⟩] := by
    rw [hr] at hrun
    change Except.map _ (r.toTrace.reduce .standard [-2147483647]) = _ at hrun
    rw [hr'] at hrun
    exact Except.ok.inj hrun
  have hclause : r'.clause? 1 = some ⟨[-3, 3], []⟩ := by
    rw [clause?, hclauses]
    rfl
  have hobtained : r'.toTrace.Obtained := .reduce (.reduce rangeSample_obtained hr) hr'
  obtain ⟨hgreatest, -, hcopy, -⟩ := hobtained.lastAtom_isGreatest hclause
  have hsecond : rangeSample.clause? 2 = some ⟨[-2147483647, 2147483647], []⟩ := rfl
  obtain ⟨hends, -⟩ := rangeSample_obtained.lastAtom_isGreatest hsecond
  exact ⟨rangeSample_obtained, hsecond, hends, r, r', hr, hr', hclause, hgreatest, hcopy⟩

end Refutation
