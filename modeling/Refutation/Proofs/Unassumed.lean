import Refutation.Proofs.Rebuild
import Refutation.Proofs.SameDerivation

/-! # Reduction under no assumptions

Without assumptions there is nothing to propagate, and a reduction copies the clauses in scope, one
after the other, as they are (`clause?_copy`).  Only the antecedents are rebuilt: they are named by
their new indices, and each is named once, so that an antecedent recorded twice is lost.

If the whole trace is in scope the indices stay what they are.  The copy is then the trace itself
exactly if no clause repeats an antecedent, and a clause of it has the same derivation as the clause
copied exactly if no clause of that derivation does (`reduce_nothing_assumed`). -/

namespace Refutation

namespace Reduction

/-! ### The copy -/

section copy

variable {options : Options} {t : Trace} {c : Clause} {i k : Nat}

/-- What a reduction under no assumptions makes of a trace. -/
def copy (options : Options) (t : Trace) : ReducedTrace :=
  rebuild options.linkUnitReasons.value t [] (start t (scope options t) [])

/-- The clause in scope that is copied to an index. -/
def copiedAt? (options : Options) (t : Trace) : Nat → Option Nat
  | 0 => none
  | n + 1 => (scope options t)[n]?

theorem copiedAt?_succ (n : Nat) : copiedAt? options t (n + 1) = (scope options t)[n]? := rfl

theorem mem_scope_of_copiedAt? (hk : copiedAt? options t k = some i) : i ∈ scope options t := by
  cases k with
  | zero => cases hk
  | succ n => exact List.mem_of_getElem? hk

theorem cascade_nil (options : Options) (t : Trace) :
    cascade options t [] = start t (scope options t) [] := by
  have hdone : (start t (scope options t) []).step? = none := Cascade.step?_eq_none_iff.mpr rfl
  rw [cascade_eq_run (by simp [contradictory]), Cascade.run, hdone]
  exact ite_self _

theorem reduce_nil (options : Options) (t : Trace) :
    t.reduce options [] = .ok (copy options t) := by
  rw [copy, ← cascade_nil]
  rfl

theorem wholeClauses_eq_map (ht : t.WellFormed) :
    wholeClauses options t =
      (scope options t).map fun i => Residual.ofClause i ((t.clause? i).getD ⟨[], []⟩) := by
  have hwhole : ∀ i ∈ scope options t, (t.clause? i).map (Residual.ofClause i) =
      some (Residual.ofClause i ((t.clause? i).getD ⟨[], []⟩)) := by
    intro i hi
    obtain ⟨c, hc⟩ := exists_clause_of_mem_scope ht hi
    rw [hc]
    rfl
  rw [wholeClauses, List.filterMap_congr hwhole, List.filterMap_eq_map']

theorem stands_wholeClauses_iff (ht : t.WellFormed) {r : Residual} :
    Stands (wholeClauses options t) 1 k r ↔
      ∃ i c, copiedAt? options t k = some i ∧ t.clause? i = some c ∧ Residual.ofClause i c = r := by
  constructor
  · rintro ⟨n, hn, rfl⟩
    rw [wholeClauses_eq_map ht, List.getElem?_map, Option.map_eq_some_iff] at hn
    obtain ⟨i, hi, rfl⟩ := hn
    obtain ⟨c, hc⟩ := exists_clause_of_mem_scope ht (List.mem_of_getElem? hi)
    refine ⟨i, c, ?_, hc, ?_⟩
    · rw [Nat.add_comm, copiedAt?_succ, hi]
    · rw [hc]
      rfl
  · rintro ⟨i, c, hi, hc, rfl⟩
    cases k with
    | zero => cases hi
    | succ n =>
        refine ⟨n, ?_, Nat.add_comm n 1⟩
        rw [copiedAt?_succ] at hi
        rw [wholeClauses_eq_map ht, List.getElem?_map, hi, Option.map_some, hc]
        rfl

theorem number?_start_iff (ht : t.WellFormed) :
    number? [] (start t (scope options t) []) i = some k ↔ copiedAt? options t k = some i := by
  have hasc := (intact_wholeClauses ht options).ascending
  rw [number?, residuals_start, getElem?_numbering hasc]
  show (∃ r, Stands (wholeClauses options t) 1 k r ∧ r.index = i) ↔ _
  constructor
  · rintro ⟨r, hstands, rfl⟩
    obtain ⟨j, c, hj, -, rfl⟩ := (stands_wholeClauses_iff ht).mp hstands
    exact hj
  · intro hk
    obtain ⟨c, hc⟩ := exists_clause_of_mem_scope ht (mem_scope_of_copiedAt? hk)
    exact ⟨Residual.ofClause i c, (stands_wholeClauses_iff ht).mpr ⟨i, c, hk, hc, rfl⟩, rfl⟩

theorem antecedents_ofClause (link : Bool) (hc : t.clause? i = some c)
    (number? : Nat → Option Nat) :
    (Residual.ofClause i c).antecedents link t number? =
      (c.antecedents.filterMap number?).eraseDups := by
  have hreasons : (if link then ((Residual.ofClause i c).removedBy.filterMap (·.reason)).filter
      (· < (Residual.ofClause i c).index) else []) = [] := ite_self []
  rw [Residual.antecedents, hreasons, List.append_nil]
  show ((t.antecedents i).filterMap number?).eraseDups = _
  rw [Trace.antecedents_eq hc]

/-- **The clauses copied** keep their literals, and their antecedents by new indices, each once. -/
theorem clause?_copy (ht : t.WellFormed) (hk : copiedAt? options t k = some i)
    (hc : t.clause? i = some c) :
    (copy options t).clause? k = some ⟨c.literals,
        (c.antecedents.filterMap (number? [] (start t (scope options t) []))).eraseDups⟩ ∧
      (copy options t).origin? k = some (.kept i) := by
  have hstands : Stands (start t (scope options t) []).residuals (firstNumber []) k
      (Residual.ofClause i c) := (stands_wholeClauses_iff ht).mpr ⟨i, c, hk, hc, rfl⟩
  refine ⟨?_, origin?_of_whole hstands (by simp [Residual.isShortened, Residual.ofClause])⟩
  rw [← antecedents_ofClause options.linkUnitReasons.value hc]
  exact clause?_of_stands hstands

theorem size_copy (ht : t.WellFormed) : (copy options t).size = (scope options t).length := by
  show ((leading [] ++ (wholeClauses options t).map _).toArray).size = _
  rw [wholeClauses_eq_map ht]
  simp [leading, contradictory]

end copy

/-! ### The copy of a whole trace -/

section whole

variable {options : Options} {t : Trace} {i : Nat}

theorem copiedAt?_of_whole (hcore : options.coreOnly.value = false) (hi : i ∈ t.indices) :
    copiedAt? options t i = some i := by
  rw [Trace.mem_indices] at hi
  obtain ⟨n, rfl⟩ : ∃ n, i = n + 1 := ⟨i - 1, by omega⟩
  rw [copiedAt?_succ, scope_of_whole hcore, Trace.indices, List.getElem?_range' (by omega),
    Nat.one_mul, Nat.add_comm]

variable (ht : t.WellFormed) (hcore : options.coreOnly.value = false)
include ht hcore

theorem clause?_copy_of_whole {c : Clause} (hc : t.clause? i = some c) :
    (copy options t).clause? i = some ⟨c.literals, c.antecedents.eraseDups⟩ ∧
      (copy options t).origin? i = some (.kept i) := by
  have hidentity : ∀ a ∈ c.antecedents,
      number? [] (start t (scope options t) []) a = some a := by
    intro a ha
    rw [number?_start_iff ht]
    apply copiedAt?_of_whole hcore
    exact ht.mem_indices_of_mem_antecedents (Trace.antecedents_eq hc ▸ ha)
  have hcopy := clause?_copy ht (copiedAt?_of_whole hcore (Trace.mem_indices_of_clause? hc)) hc
  rwa [List.filterMap_congr hidentity, List.filterMap_some] at hcopy

theorem size_copy_of_whole : (copy options t).size = t.size := by
  rw [size_copy ht, scope_of_whole hcore, Trace.indices, List.length_range']

theorem clause?_copy_eq_none (hnone : t.clause? i = none) : (copy options t).clause? i = none := by
  rw [← Option.not_isSome_iff_eq_none, Trace.isSome_clause?_iff] at hnone ⊢
  rwa [size_copy_of_whole ht hcore]

theorem antecedents_copy (i : Nat) :
    (copy options t).antecedents i = (t.antecedents i).eraseDups := by
  cases hc : t.clause? i with
  | none => simp [Trace.antecedents, hc, clause?_copy_eq_none ht hcore hc]
  | some c =>
      rw [Trace.antecedents_eq hc, Trace.antecedents_eq (clause?_copy_of_whole ht hcore hc).1]

/-- **The copy is the trace** exactly if no clause repeats an antecedent. -/
theorem toTrace_copy_eq_iff :
    (copy options t).toTrace = t ↔ ∀ i, (t.antecedents i).Nodup := by
  constructor
  · intro hsame i
    rw [← eraseDups_eq_self_iff, ← antecedents_copy ht hcore, hsame]
  · intro hnodup
    have hclause : ∀ i, (copy options t).clause? i = t.clause? i := by
      intro i
      cases hc : t.clause? i with
      | none => exact clause?_copy_eq_none ht hcore hc
      | some c =>
          have hi := hnodup i
          rw [Trace.antecedents_eq hc] at hi
          rw [(clause?_copy_of_whole ht hcore hc).1, eraseDups_eq_self_iff.mpr hi]
    exact congrArg Trace.mk (Array.ext_getElem? fun n => hclause (n + 1))

/-- A clause that unfolds like its copy repeats no antecedent, and its antecedents unfold like their
copies again. -/
theorem unfoldsLike_copy_next
    (hlike : ClauseGraph.UnfoldsLike (copy options t).graph i t.graph i) :
    (t.antecedents i).Nodup ∧ ∀ a ∈ t.antecedents i,
      ClauseGraph.UnfoldsLike (copy options t).graph a t.graph a := by
  cases hc : t.clause? i with
  | none => simp [Trace.antecedents, hc]
  | some c =>
      have hcopy := (clause?_copy_of_whole ht hcore hc).1
      have hagrees := ClauseGraph.agrees_of_unfoldsLike hlike hcopy hc
      have hnodup : c.antecedents.Nodup :=
        length_eraseDups_eq_iff.mp (Clause.agrees_iff.mp hagrees).2
      rw [Trace.antecedents_eq hc]
      refine ⟨hnodup, fun a ha depth => ?_⟩
      rw [eraseDups_eq_self_iff.mpr hnodup] at hcopy
      have hdeeper := hlike (depth + 1)
      simp only [ClauseGraph.unfold, Trace.clause?_graph, hcopy, hc, Derivation.step.injEq,
        true_and] at hdeeper
      exact List.map_inj_left.mp hdeeper a ha

/-- **A clause has the derivation of its copy** exactly if no clause of the derivation repeats an
antecedent. -/
theorem unfoldsLike_copy_iff :
    ClauseGraph.UnfoldsLike (copy options t).graph i t.graph i ↔
      ∀ j, Reaches t.antecedents i j → (t.antecedents j).Nodup := by
  constructor
  · intro hlike j hj
    have hreached : ClauseGraph.UnfoldsLike (copy options t).graph j t.graph j :=
      hj.mem_of_reaches (P := fun k => ClauseGraph.UnfoldsLike (copy options t).graph k t.graph k)
        (fun _ hk => (unfoldsLike_copy_next ht hcore hk).2) hlike
    exact (unfoldsLike_copy_next ht hcore hreached).1
  · intro hnodup depth
    induction depth generalizing i with
    | zero => rfl
    | succ depth ih =>
        cases hc : t.clause? i with
        | none =>
            simp only [ClauseGraph.unfold, Trace.clause?_graph, hc,
              clause?_copy_eq_none ht hcore hc]
        | some c =>
            have hants := Trace.antecedents_eq hc
            have hi := hnodup i (.refl i)
            rw [hants] at hi
            simp only [ClauseGraph.unfold, Trace.clause?_graph, hc,
              (clause?_copy_of_whole ht hcore hc).1, eraseDups_eq_self_iff.mpr hi]
            congr 1
            apply List.map_congr_left
            intro a ha
            exact ih fun j hj => hnodup j ((Reaches.single (hants ▸ ha)).trans hj)

end whole

/-! ### Reduction of a whole trace under no assumptions -/

/-- **Reduced under no assumptions, a trace stays as it is but for repeated antecedents.**  There
are as many clauses as before, at the same indices and with the same literals, all of them kept and
none derived; of antecedents recorded repeatedly the first is left.  Nothing has changed at all
exactly if no clause repeats an antecedent, and a clause has the derivation it had exactly if no
clause of its derivation does. -/
theorem reduce_nothing_assumed (options : Options) {t : Trace} (ht : t.Obtained)
    (hcore : options.coreOnly.value = false) :
    ∃ r, t.reduce options [] = .ok r ∧ r.size = t.size ∧ r.assumptions = [] ∧ r.derived = [] ∧
      (∀ i c, t.clause? i = some c →
        r.clause? i = some ⟨c.literals, c.antecedents.eraseDups⟩ ∧ r.origin? i = some (.kept i)) ∧
      (r.toTrace = t ↔ ∀ i, (t.antecedents i).Nodup) ∧
      ∀ i ∈ t.indices,
        ((ClauseView.clause r.toTrace i).sameAs (.clause t i) = true ↔
          ∀ j, Reaches t.antecedents i j → (t.antecedents j).Nodup) := by
  have hform := ht.wellFormed
  have hreduce := reduce_nil options t
  refine ⟨copy options t, hreduce, size_copy_of_whole hform hcore, rfl, rfl,
    fun i c hc => clause?_copy_of_whole hform hcore hc, toTrace_copy_eq_iff hform hcore, ?_⟩
  intro i hi
  rw [Trace.mem_indices] at hi
  have hcopied : (ClauseView.clause (copy options t).toTrace i).Obtained := by
    refine ⟨.reduce ht hreduce, Trace.contains_iff.mpr ?_⟩
    rwa [size_copy_of_whole hform hcore]
  have horiginal : (ClauseView.clause t i).Obtained := ⟨ht, Trace.contains_iff.mpr hi⟩
  rw [ClauseView.sameAs_iff_unfoldsLike hcopied horiginal]
  exact unfoldsLike_copy_iff hform hcore

/-- A unit clause, and the same clause derived from it twice. -/
def repeatedSample : Trace := ⟨#[⟨[1], []⟩, ⟨[1], [1, 1]⟩]⟩

theorem repeatedSample_obtained : repeatedSample.Obtained :=
  Trace.obtained_iff_wellFormed.mpr (by decide)

/-- The first clause of the sample keeps its derivation, the second does not. -/
theorem reduce_nothing_assumed_sample :
    repeatedSample.Obtained ∧ Options.standard.coreOnly.value = false ∧
      ∃ r, repeatedSample.reduce .standard [] = .ok r ∧
        (ClauseView.clause r.toTrace 1).sameAs (.clause repeatedSample 1) = true ∧
        ¬(ClauseView.clause r.toTrace 2).sameAs (.clause repeatedSample 2) = true := by
  obtain ⟨r, hr, -, -, -, -, -, hsame⟩ :=
    reduce_nothing_assumed .standard repeatedSample_obtained rfl
  refine ⟨repeatedSample_obtained, rfl, r, hr, ?_, ?_⟩
  · rw [hsame 1 (by decide)]
    intro j hj
    have hfirst : j = 1 := hj.mem_of_reaches (P := (· = 1)) (by rintro _ rfl; decide) rfl
    rw [hfirst]
    decide
  · rw [hsame 2 (by decide)]
    intro hnodup
    exact absurd (hnodup 2 (.refl 2)) (by decide)

/-- **A reduction under no assumptions need not be the identity**: a repeated antecedent is lost. -/
theorem not_reduce_nothing_assumed_identity :
    ¬∀ (options : Options) (t : Trace), t.Obtained → options.coreOnly.value = false →
      ∀ r, t.reduce options [] = .ok r → ∀ i c, t.clause? i = some c → r.clause? i = some c := by
  intro hall
  have hsame := hall .standard repeatedSample repeatedSample_obtained rfl _
    (reduce_nil .standard repeatedSample) 2 _ rfl
  have hsecond : repeatedSample.clause? 2 = some ⟨[1], [1, 1]⟩ := rfl
  rw [(clause?_copy_of_whole repeatedSample_obtained.wellFormed rfl hsecond).1] at hsame
  exact absurd hsame (by decide)

end Reduction
end Refutation
