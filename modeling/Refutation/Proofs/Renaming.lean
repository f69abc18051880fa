import Mathlib.Order.Monotone.Basic
import Refutation.Proofs.Rebuild

/-! # Renaming the clauses of a reduction

The cascade of a reduction knows clauses by their indices, but all that it does with an index is to
compare it with another.  With the indices renamed by an injective function the cascade therefore
takes the same steps, and comes to the same end under the new names (`Cascade.run_rename`).

`Renamed f s m t` says that the clauses of a trace `m` at the indices in `s` are found in a trace
`t` again, in the same order but at other indices.  If these clauses are the scope of a reduction of
either trace, the reductions have the same result, except that the origins of one are named by
indices of `m` and those of the other by indices of `t` (`reduce_renamed`). -/

namespace Refutation

variable {f : Nat → Nat}

/-- The outcome of a simplification, with what is left transformed. -/
def Outcome.map {C D : Type} (g : C → D) : Outcome C → Outcome D
  | .satisfied => .satisfied
  | .shortened clause => .shortened (g clause)
  | .unchanged => .unchanged

theorem Outcome.remains?_map {C D : Type} (g : C → D) (clause : C) (o : Outcome C) :
    (o.map g).remains? (g clause) = (o.remains? clause).map g := by
  cases o <;> rfl

/-- The origin with the index of the clause it names renamed. -/
def Origin.rename (f : Nat → Nat) : Origin → Origin
  | .kept index => .kept (f index)
  | .simplified index => .simplified (f index)
  | .contradiction => .contradiction

/-- The reduced trace with the clauses that its origins name renamed. -/
def ReducedTrace.renameOrigins (f : Nat → Nat) (r : ReducedTrace) : ReducedTrace :=
  { r with origins := r.origins.map (Origin.rename f) }

namespace Reduction

/-! ### Renaming the state of a cascade -/

/-- The fact with its reason renamed. -/
def Fact.rename (f : Nat → Nat) (fact : Fact) : Fact := ⟨fact.literal, fact.reason.map f⟩

/-- What is left of a clause, with the clause and the reasons renamed. -/
def Residual.rename (f : Nat → Nat) (r : Residual) : Residual :=
  ⟨f r.index, r.literals, r.removedBy.map (Fact.rename f)⟩

/-- The state of a cascade with all clauses renamed. -/
def Cascade.rename (f : Nat → Nat) (c : Cascade) : Cascade :=
  ⟨c.residuals.map (Residual.rename f), c.settled.map (Fact.rename f),
    c.pending.map (Fact.rename f)⟩

namespace Residual

theorem isShortened_rename (r : Residual) : (r.rename f).isShortened = r.isShortened := by
  simp [isShortened, rename]

theorem unit?_rename (r : Residual) : (r.rename f).unit? = r.unit?.map (Fact.rename f) := by
  obtain ⟨index, literals, removedBy⟩ := r
  match literals with
  | [] => rfl
  | [l] => rfl
  | l :: l' :: rest => rfl

theorem origin_rename (r : Residual) : (r.rename f).origin = r.origin.rename f := by
  rw [origin, isShortened_rename, origin]
  split <;> rfl

variable (hf : Function.Injective f)
include hf

/-- A clause and the reason of a fact are renamed alike, so that the clause that gave the fact is
told from the others as before. -/
theorem simplifyBy_rename (r : Residual) (fact : Fact) :
    (r.rename f).simplifyBy (fact.rename f) = (r.simplifyBy fact).map (Residual.rename f) := by
  have hreason : (fact.rename f).reason = some (r.rename f).index ↔ fact.reason = some r.index :=
    (Option.map_injective hf).eq_iff (b := some r.index)
  have hsimplify : simplify (r.rename f).literals (fact.rename f).literal
      (-(fact.rename f).literal) = simplify r.literals fact.literal (-fact.literal) := rfl
  unfold simplifyBy
  by_cases h : fact.reason = some r.index
  · rw [if_pos h, if_pos (hreason.mpr h)]
    rfl
  · rw [if_neg h, if_neg (mt hreason.mp h), hsimplify]
    cases simplify r.literals fact.literal (-fact.literal) with
    | satisfied => rfl
    | shortened literals => simp [Outcome.map, rename]
    | unchanged => rfl

theorem after?_rename (r : Residual) (fact : Fact) :
    (r.rename f).after? (fact.rename f) = (r.after? fact).map (Residual.rename f) := by
  rw [after?, simplifyBy_rename hf, Outcome.remains?_map]
  rfl

theorem unitAfter?_rename (r : Residual) (fact : Fact) :
    (r.rename f).unitAfter? (fact.rename f) = (r.unitAfter? fact).map (Fact.rename f) := by
  unfold unitAfter?
  rw [simplifyBy_rename hf]
  cases r.simplifyBy fact with
  | satisfied => rfl
  | shortened r' => exact r'.unit?_rename
  | unchanged => rfl

end Residual

namespace Cascade

theorem known_rename (c : Cascade) : (c.rename f).known = c.known.map (Fact.rename f) :=
  List.map_append.symm

theorem knows_rename (c : Cascade) (l : Literal) : (c.rename f).knows l = c.knows l := by
  rw [knows, known_rename, List.any_map]
  rfl

theorem inConflict_rename (c : Cascade) : (c.rename f).inConflict = c.inConflict := by
  show (c.residuals.map (Residual.rename f)).any _ = _
  rw [List.any_map]
  refine List.any_congr rfl fun r => ?_
  show ((r.rename f).isShortened && r.literals.isEmpty) = _
  rw [Residual.isShortened_rename]

theorem derive_rename (c : Cascade) (fact : Fact) :
    (c.rename f).derive (fact.rename f) = (c.derive fact).rename f := by
  unfold derive
  rw [knows_rename, knows_rename]
  show (if c.knows fact.literal || c.knows (-fact.literal) then _ else _) = _
  split
  · rfl
  · simp [rename]

theorem foldl_derive_rename (facts : List Fact) (c : Cascade) :
    (facts.map (Fact.rename f)).foldl derive (c.rename f) = (facts.foldl derive c).rename f := by
  induction facts generalizing c with
  | nil => rfl
  | cons fact facts ih =>
      rw [List.map_cons, List.foldl_cons, derive_rename, ih]
      rfl

variable (hf : Function.Injective f)
include hf

/-- **A step of the renamed cascade** is the renamed step. -/
theorem step?_rename (c : Cascade) : (c.rename f).step? = c.step?.map (Cascade.rename f) := by
  cases hpending : c.pending with
  | nil => simp [step?, rename, hpending]
  | cons fact rest =>
      have hunits : (c.residuals.map (Residual.rename f)).filterMap
          (·.unitAfter? (fact.rename f)) =
            (c.residuals.filterMap (·.unitAfter? fact)).map (Fact.rename f) := by
        rw [List.filterMap_map, List.map_filterMap]
        exact List.filterMap_congr fun r _ => r.unitAfter?_rename hf fact
      have hafter : (c.residuals.map (Residual.rename f)).filterMap (·.after? (fact.rename f)) =
          (c.residuals.filterMap (·.after? fact)).map (Residual.rename f) := by
        rw [List.filterMap_map, List.map_filterMap]
        exact List.filterMap_congr fun r _ => r.after?_rename hf fact
      have hstart : (⟨(c.residuals.filterMap (·.after? fact)).map (Residual.rename f),
          c.settled.map (Fact.rename f) ++ [fact.rename f], rest.map (Fact.rename f)⟩ : Cascade) =
            rename f ⟨c.residuals.filterMap (·.after? fact), c.settled ++ [fact], rest⟩ := by
        simp [rename]
      simp only [step?, rename, hpending, List.map_cons, Option.map_some]
      rw [hunits, hafter, hstart, foldl_derive_rename]
      rfl

/-- **The renamed cascade comes to the same end.** -/
theorem run_rename (stop : Bool) (c : Cascade) :
    (c.rename f).run stop = (c.run stop).rename f := by
  fun_induction run stop c with
  | case1 c hstop =>
      rw [run, inConflict_rename, if_pos hstop]
  | case2 c hstop hnone =>
      have hstep : (c.rename f).step? = none := by
        rw [step?_rename hf, hnone]
        rfl
      rw [run, hstep]
      exact ite_self _
  | case3 c hstop c' hsome ih =>
      have hstep : (c.rename f).step? = some (c'.rename f) := by
        rw [step?_rename hf, hsome]
        rfl
      rw [← ih, run_of_step stop ?_ hstep]
      rwa [inConflict_rename, ← Bool.not_eq_true]

end Cascade

/-- **The new indices** of renamed clauses are those they had, if no two had the same index. -/
theorem number?_rename (hf : Function.Injective f) {c : Cascade}
    (hasc : (c.residuals.map (·.index)).Pairwise (· < ·)) (assumptions : List Literal) (i : Nat) :
    number? assumptions (c.rename f) (f i) = number? assumptions c i := by
  have hindex : (c.rename f).residuals.map (·.index) = (c.residuals.map (·.index)).map f := by
    rw [Cascade.rename, List.map_map, List.map_map]
    rfl
  rw [number?, numbering, hindex, number?, numbering]
  exact getElem?_ofList_zipIdx_map hf (hasc.imp fun hlt => Nat.ne_of_lt hlt)

/-! ### Renaming the clauses of a trace -/

/-- The clauses of `m` at the indices in `s` are clauses of `t` in the same order, at the indices
that `f` gives.  They have the same literals and, at these indices, the same antecedents except for
repeats. -/
structure Renamed (f : Nat → Nat) (s : List Nat) (m t : Trace) : Prop where
  strictMono : StrictMono f
  clause?_name : ∀ i ∈ s, ∃ (c : Clause) (as : List Nat), m.clause? i = some c ∧
    t.clause? (f i) = some ⟨c.literals, as.map f⟩ ∧ as.eraseDups = c.antecedents.eraseDups

namespace Renamed

variable {s : List Nat} {m t : Trace} (h : Renamed f s m t) {link : Bool}
  {assumptions : List Literal} {c : Cascade}
include h

theorem start_rename (assumptions : List Literal) :
    start t (s.map f) assumptions = (start m s assumptions).rename f := by
  have hwhole : ∀ i ∈ s, (t.clause? (f i)).map (Residual.ofClause (f i)) =
      ((m.clause? i).map (Residual.ofClause i)).map (Residual.rename f) := by
    intro i hi
    obtain ⟨c, as, hm, ht, -⟩ := h.clause?_name i hi
    rw [hm, ht]
    rfl
  simp only [start, Cascade.rename, List.filterMap_map, List.map_filterMap, List.map_map,
    List.map_nil]
  congr 1
  exact List.filterMap_congr hwhole

/-- A clause finds the reasons that precede it under their new names, since order is kept. -/
theorem reasons_rename (r : Residual) :
    ((r.rename f).removedBy.filterMap (·.reason)).filter (· < (r.rename f).index) =
      ((r.removedBy.filterMap (·.reason)).filter (· < r.index)).map f := by
  have hreasons : (r.rename f).removedBy.filterMap (·.reason) =
      (r.removedBy.filterMap (·.reason)).map f := by
    rw [Residual.rename, List.filterMap_map, List.map_filterMap]
    rfl
  rw [hreasons, List.filter_map]
  congr 1
  exact List.filter_congr fun i _ => decide_eq_decide.mpr h.strictMono.lt_iff_lt

/-- **The antecedents of a clause** get the same new indices. -/
theorem antecedents_rename {r : Residual} (hr : r.index ∈ s) {number? number?' : Nat → Option Nat}
    (hnumber : ∀ i, number?' (f i) = number? i) :
    (r.rename f).antecedents link t number?' = r.antecedents link m number? := by
  obtain ⟨d, as, hm, ht, has⟩ := h.clause?_name r.index hr
  have hrecorded : t.antecedents (r.rename f).index = as.map f := Trace.antecedents_eq ht
  have hreasons : (if link then ((r.rename f).removedBy.filterMap (·.reason)).filter
      (· < (r.rename f).index) else []) =
        (if link then (r.removedBy.filterMap (·.reason)).filter (· < r.index) else []).map f := by
    rw [h.reasons_rename]
    cases link <;> rfl
  rw [Residual.antecedents, hrecorded, hreasons, ← List.map_append, List.filterMap_map,
    show number?' ∘ f = number? from funext hnumber, Residual.antecedents, Trace.antecedents_eq hm]
  exact eraseDups_filterMap_congr (eraseDups_append_congr has)

/-- **The rebuilt traces** differ in the names of origins only. -/
theorem rebuild_rename (hc : ∀ r ∈ c.residuals, r.index ∈ s)
    (hasc : (c.residuals.map (·.index)).Pairwise (· < ·)) :
    rebuild link t assumptions (c.rename f) = (rebuild link m assumptions c).renameOrigins f := by
  have hnumber := number?_rename h.strictMono.injective hasc assumptions
  have hclauses : (c.rename f).residuals.map (fun r => Clause.mk r.literals (r.antecedents link t
      ((numbering (firstNumber assumptions) (c.rename f).residuals)[·]?))) =
        c.residuals.map fun r => Clause.mk r.literals (r.antecedents link m
          ((numbering (firstNumber assumptions) c.residuals)[·]?)) := by
    simp only [Cascade.rename, List.map_map]
    refine List.map_congr_left fun r hr => ?_
    exact congrArg _ (h.antecedents_rename (hc r hr) hnumber)
  have horigins : (c.rename f).residuals.map Residual.origin =
      (c.residuals.map Residual.origin).map (Origin.rename f) := by
    simp only [Cascade.rename, List.map_map]
    exact List.map_congr_left fun r _ => r.origin_rename
  have hderived : ((c.rename f).known.filterMap fun fact => fact.reason.map fun reason =>
      (fact.literal, (numbering (firstNumber assumptions) (c.rename f).residuals)[reason]?)) =
        c.known.filterMap fun fact => fact.reason.map fun reason =>
          (fact.literal, (numbering (firstNumber assumptions) c.residuals)[reason]?) := by
    rw [Cascade.known_rename, List.filterMap_map]
    refine List.filterMap_congr fun fact _ => ?_
    show (fact.reason.map f).map _ = _
    rw [Option.map_map]
    congr 1
    exact funext fun reason => congrArg _ (hnumber reason)
  unfold rebuild ReducedTrace.renameOrigins
  dsimp only
  rw [show (leading assumptions).length + 1 = firstNumber assumptions from rfl, hclauses, horigins,
    hderived]
  simp [Origin.rename]

end Renamed

section reduction

variable {options options' : Options} {m t : Trace}

theorem cascade_rename (h : Renamed f (scope options m) m t)
    (hscope : scope options' t = (scope options m).map f)
    (hstop : options'.stopOnConflict.value = options.stopOnConflict.value)
    (assumptions : List Literal) :
    cascade options' t assumptions = (cascade options m assumptions).rename f := by
  simp only [cascade, hscope, hstop, h.start_rename]
  split
  · rfl
  · exact Cascade.run_rename h.strictMono.injective _ _

/-- **Reductions of renamed clauses** have the same result, except for the names of origins. -/
theorem reduce_renamed (hm : m.WellFormed) (h : Renamed f (scope options m) m t)
    (hscope : scope options' t = (scope options m).map f)
    (hstop : options'.stopOnConflict.value = options.stopOnConflict.value)
    (hlink : options'.linkUnitReasons.value = options.linkUnitReasons.value)
    {assumptions : List Literal} (hproper : ∀ l ∈ assumptions, l.Proper) :
    ∃ r, m.reduce options assumptions = .ok r ∧
      t.reduce options' assumptions = .ok (r.renameOrigins f) := by
  have hsound := sound_cascade_eraseDups hm options hproper
  refine ⟨_, reduce_eq_ok options m hproper, ?_⟩
  rw [reduce_eq_ok options' t hproper, hlink, cascade_rename h hscope hstop, h.rebuild_rename]
  · intro r hr
    obtain ⟨-, hmem, -⟩ := exists_clause_of_mem_residuals hsound hr
    exact hmem
  · exact ascending_residuals hm hsound

end reduction
end Reduction
end Refutation
