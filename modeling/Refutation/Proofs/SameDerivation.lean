import Mathlib.Data.List.Forall2
import Mathlib.Data.List.ProdSigma
import Refutation.Derivation
import Refutation.Proofs.TreeWellFormed

/-! # Comparing derivations

Two derivations are compared by following antecedents in step.  A pair of clauses met again is not
compared again, also while its antecedents are still to be compared.  This is sound since nothing
is concluded before the walk has ended: then every pair that can be met has been compared, those
skipped at the time included (`sameDerivation_iff_pairs`).

If all pairs agree the clauses unfold alike, by induction on the depth; if the clauses unfold alike
then so do the pairs of their antecedents, and all pairs agree (`sameDerivation_iff_unfoldsLike`).
Where no walk over antecedents goes on for ever the unfoldings are finite trees, and the comparison
decides whether they are equal (`ClauseView.sameAs_iff_unfolding`). -/

namespace Refutation

theorem Clause.agrees_iff {c d : Clause} :
    c.agrees d = true ↔
      c.literals = d.literals ∧ c.antecedents.length = d.antecedents.length := by
  simp [agrees]

namespace ClauseGraph

variable {g h : ClauseGraph} {i j : Nat} {d e : Derivation}

theorem Complete.of_uses (hg : g.Complete i) (huses : g.Uses i j) : g.Complete j where
  lt_bound k hk := hg.lt_bound k (huses.trans hk)
  clause_mem k hk := hg.clause_mem k (huses.trans hk)

/-! ### Pairs of clauses -/

theorem pairAgrees_iff :
    pairAgrees g h (i, j) = true ↔
      ∃ c d, g.clause? i = some c ∧ h.clause? j = some d ∧ c.agrees d = true := by
  unfold pairAgrees
  constructor
  · intro hagrees
    split at hagrees
    · next c d hc hd => exact ⟨c, d, hc, hd, hagrees⟩
    · cases hagrees
  · rintro ⟨c, d, hc, hd, hagrees⟩
    simp only [hc, hd, hagrees]

theorem mem_pairNext_iff {p q : Nat × Nat} :
    q ∈ pairNext g h p ↔
      pairAgrees g h p = true ∧ q ∈ (g.antecedents p.1).zip (h.antecedents p.2) := by
  unfold pairNext
  split
  · next hagrees => simp [hagrees]
  · next hagrees => simp [hagrees]

theorem uses_of_reaches_pairNext {p : Nat × Nat} (hp : Reaches (pairNext g h) (i, j) p) :
    g.Uses i p.1 ∧ h.Uses j p.2 := by
  have hstart : g.Uses i (i, j).1 ∧ h.Uses j (i, j).2 := ⟨.refl i, .refl j⟩
  refine hp.mem_of_reaches (P := fun p => g.Uses i p.1 ∧ h.Uses j p.2) ?_ hstart
  intro p hp q hq
  obtain ⟨a, b⟩ := q
  obtain ⟨-, hzip⟩ := mem_pairNext_iff.mp hq
  obtain ⟨ha, hb⟩ := List.of_mem_zip hzip
  exact ⟨.tail hp.1 ha, .tail hp.2 hb⟩

theorem covers_pairNext (hg : g.Complete i) (hh : h.Complete j) :
    Covers (pairNext g h) [(i, j)] ∅ (List.range g.bound ×ˢ List.range h.bound) := by
  intro x hx p hp _
  rw [List.mem_singleton.mp hx] at hp
  obtain ⟨hfst, hsnd⟩ := uses_of_reaches_pairNext hp
  rw [List.mem_product]
  exact ⟨List.mem_range.mpr (hg.lt_bound _ hfst), List.mem_range.mpr (hh.lt_bound _ hsnd)⟩

theorem length_pairs (g h : ClauseGraph) :
    (List.range g.bound ×ˢ List.range h.bound).length = g.bound * h.bound := by
  rw [List.length_product, List.length_range, List.length_range]

/-- **The walk compares every pair that can be met.** -/
theorem sameDerivation_iff_pairs (hg : g.Complete i) (hh : h.Complete j) :
    g.sameDerivation i h j = true ↔
      ∀ p, Reaches (pairNext g h) (i, j) p → pairAgrees g h p = true := by
  have hvertices : ∀ x ∈ [(i, j)], ∀ p, Reaches (pairNext g h) x p →
      p ∈ List.range g.bound ×ˢ List.range h.bound := fun x hx p hp =>
    covers_pairNext hg hh x hx p hp Std.TreeSet.not_mem_emptyc
  have hmem : ∀ p, p ∈ explore (pairNext g h) (g.bound * h.bound) [(i, j)] ∅ ↔
      Reaches (pairNext g h) (i, j) p := by
    intro p
    rw [mem_explore_iff (Nat.le_of_eq (length_pairs g h)) hvertices]
    simp
  simp only [sameDerivation, List.all_eq_true, hmem]

/-! ### Unfolding alike -/

theorem map_unfold_eq_iff {as bs : List Nat} {depth : Nat} :
    as.map (g.unfold depth) = bs.map (h.unfold depth) ↔
      as.length = bs.length ∧
        ∀ p ∈ as.zip bs, g.unfold depth p.1 = h.unfold depth p.2 := by
  rw [← List.forall₂_eq_eq_eq, List.forall₂_map_left_iff, List.forall₂_map_right_iff,
    List.forall₂_iff_zip]
  simp only [Prod.forall]

theorem unfold_eq_of_pairs (depth : Nat)
    (hagree : ∀ p, Reaches (pairNext g h) (i, j) p → pairAgrees g h p = true) :
    g.unfold depth i = h.unfold depth j := by
  induction depth generalizing i j with
  | zero => rfl
  | succ depth ih =>
      have hfirst := hagree _ (.refl _)
      obtain ⟨c, d, hc, hd, hcd⟩ := pairAgrees_iff.mp hfirst
      obtain ⟨hliterals, hlength⟩ := Clause.agrees_iff.mp hcd
      simp only [unfold, hc, hd, Derivation.step.injEq]
      refine ⟨hliterals, map_unfold_eq_iff.mpr ⟨hlength, fun p hp => ih fun q hq => ?_⟩⟩
      have hnext : p ∈ pairNext g h (i, j) := by
        rw [mem_pairNext_iff, antecedents_of_clause? hc, antecedents_of_clause? hd]
        exact ⟨hfirst, hp⟩
      exact hagree q ((Reaches.single hnext).trans hq)

theorem UnfoldsLike.next {p q : Nat × Nat} (hlike : UnfoldsLike g p.1 h p.2)
    (hq : q ∈ pairNext g h p) : UnfoldsLike g q.1 h q.2 := by
  intro depth
  obtain ⟨hagrees, hzip⟩ := mem_pairNext_iff.mp hq
  obtain ⟨c, d, hc, hd, -⟩ := pairAgrees_iff.mp hagrees
  have hdeeper := hlike (depth + 1)
  simp only [unfold, hc, hd, Derivation.step.injEq, map_unfold_eq_iff] at hdeeper
  rw [antecedents_of_clause? hc, antecedents_of_clause? hd] at hzip
  exact hdeeper.2.2 q hzip

/-- **The comparison decides whether two clauses unfold alike.** -/
theorem sameDerivation_iff_unfoldsLike (hg : g.Complete i) (hh : h.Complete j) :
    g.sameDerivation i h j = true ↔ UnfoldsLike g i h j := by
  rw [sameDerivation_iff_pairs hg hh]
  constructor
  · intro hagree depth
    exact unfold_eq_of_pairs depth hagree
  · intro hlike p hp
    obtain ⟨hfst, hsnd⟩ := uses_of_reaches_pairNext hp
    obtain ⟨c, hc⟩ := hg.clause_mem _ hfst
    obtain ⟨d, hd⟩ := hh.clause_mem _ hsnd
    have hlike' : UnfoldsLike g p.1 h p.2 :=
      hp.mem_of_reaches (P := fun p => UnfoldsLike g p.1 h p.2) (fun _ hx _ hy => hx.next hy) hlike
    exact pairAgrees_iff.mpr ⟨c, d, hc, hd, agrees_of_unfoldsLike hlike' hc hd⟩

/-! ### Finite unfoldings -/

theorem unfolds_step_iff {ls : List Literal} {ds : List Derivation} :
    g.Unfolds i (.step ls ds) ↔
      ∃ c, g.clause? i = some c ∧ c.literals = ls ∧ ds.length = c.antecedents.length ∧
        ∀ (n a : Nat) (d : Derivation), c.antecedents[n]? = some a → ds[n]? = some d →
          g.Unfolds a d := by
  constructor
  · intro hunfolds
    cases hunfolds with
    | step hc hlength hds => exact ⟨_, hc, rfl, hlength, hds⟩
  · rintro ⟨c, hc, rfl, hlength, hds⟩
    exact .step hc hlength hds

/-- **A clause unfolds to a finite tree** if no walk over antecedents goes on for ever. -/
theorem exists_unfolds (hends : WellFounded fun a j => a ∈ g.antecedents j) (hg : g.Complete i) :
    ∃ d, g.Unfolds i d := by
  induction i using hends.induction with
  | h i ih =>
      obtain ⟨c, hc⟩ := hg.clause_mem i (.refl i)
      rw [antecedents_of_clause? hc] at ih
      have hants : ∀ a ∈ c.antecedents, ∃ d, g.Unfolds a d := by
        intro a ha
        rw [← antecedents_of_clause? hc] at ha
        exact ih a (antecedents_of_clause? hc ▸ ha) (hg.of_uses (.single ha))
      choose! f hf using hants
      refine ⟨.step c.literals (c.antecedents.map f), .step hc (List.length_map _) ?_⟩
      intro n a d ha hd
      rw [List.getElem?_map, ha] at hd
      cases hd
      exact hf a (List.mem_of_getElem? ha)

theorem Unfolds.of_unfoldsLike (hd : g.Unfolds i d) (hlike : UnfoldsLike g i h j) :
    h.Unfolds j d := by
  induction hd generalizing j with
  | @step i c ds hc hlength hds ih =>
      obtain ⟨c', hc'⟩ : ∃ c', h.clause? j = some c' := by
        cases hc' : h.clause? j with
        | some c' => exact ⟨c', rfl⟩
        | none =>
            have hone := hlike 1
            simp [unfold, hc, hc'] at hone
      have hdeep : ∀ depth, c.literals = c'.literals ∧
          c.antecedents.map (g.unfold depth) = c'.antecedents.map (h.unfold depth) := by
        intro depth
        have hdeeper := hlike (depth + 1)
        simpa only [unfold, hc, hc', Derivation.step.injEq] using hdeeper
      have hants : c.antecedents.length = c'.antecedents.length :=
        (map_unfold_eq_iff.mp (hdeep 0).2).1
      rw [(hdeep 0).1]
      refine .step hc' (hlength.trans hants) fun n a' d ha' hd => ?_
      have hlt : n < c.antecedents.length := by
        rw [hants]
        exact (List.getElem?_eq_some_iff.mp ha').1
      refine ih n c.antecedents[n] d (List.getElem?_eq_getElem hlt) hd fun depth => ?_
      have hmap := congrArg (·[n]?) (hdeep depth).2
      simpa [ha', List.getElem?_eq_getElem hlt] using hmap

theorem Unfolds.unfoldsLike (hd : g.Unfolds i d) (he : h.Unfolds j d) : UnfoldsLike g i h j := by
  induction hd generalizing j with
  | @step i c ds hc hlength hds ih =>
      obtain ⟨c', hc', hliterals, hlength', hes⟩ := unfolds_step_iff.mp he
      intro depth
      cases depth with
      | zero => rfl
      | succ depth =>
          simp only [unfold, hc, hc', hliterals, Derivation.step.injEq, true_and]
          apply List.ext_getElem
          · simp only [List.length_map]
            omega
          · intro n hn hn'
            rw [List.length_map] at hn hn'
            have hds : ds[n]? = some ds[n] := List.getElem?_eq_getElem (by omega)
            rw [List.getElem_map, List.getElem_map]
            exact ih n _ _ (List.getElem?_eq_getElem hn) hds
              (hes n _ _ (List.getElem?_eq_getElem hn') hds) depth

theorem unfoldsLike_iff_eq (hd : g.Unfolds i d) (he : h.Unfolds j e) :
    UnfoldsLike g i h j ↔ d = e := by
  constructor
  · intro hlike
    exact (hd.of_unfoldsLike hlike).unique he
  · rintro rfl
    exact hd.unfoldsLike he

end ClauseGraph

theorem ClauseGraph.unfoldsLike_of_agree {g h : ClauseGraph} {i : Nat}
    (hagree : ∀ j, g.Uses i j → h.clause? j = g.clause? j) : UnfoldsLike g i h i := by
  intro depth
  induction depth generalizing i with
  | zero => rfl
  | succ depth ih =>
      simp only [unfold, hagree i (.refl i)]
      cases hc : g.clause? i with
      | none => rfl
      | some c =>
          simp only [Derivation.step.injEq, true_and]
          refine List.map_congr_left fun a ha => ih fun j hj => hagree j (.trans ?_ hj)
          exact .single (antecedents_of_clause? hc ▸ ha)

/-- **A copied clause unfolds like its original.** -/
theorem Copied.unfoldsLike {g h : ClauseGraph} {i j : Nat} {name : Nat → Nat}
    (hcopy : Copied g i h name) (hj : g.Uses i j) :
    ClauseGraph.UnfoldsLike g j h (name j) := by
  intro depth
  induction depth generalizing j with
  | zero => rfl
  | succ depth ih =>
      obtain ⟨c, hc, hname⟩ := hcopy.clause?_name j hj
      simp only [ClauseGraph.unfold, hc, hname, Clause.rename, Derivation.step.injEq, true_and,
        List.map_map]
      refine List.map_congr_left fun a ha => ih (.tail hj ?_)
      rwa [ClauseGraph.antecedents_of_clause? hc]

/-! ### Views -/

namespace ClauseView

variable {u v w : ClauseView} {d e : Derivation}

/-- Following antecedents from the clause to the end gives the derivation `d`. -/
def UnfoldsTo (v : ClauseView) (d : Derivation) : Prop := v.graph.Unfolds v.name d

/-- The pairs compared when two clauses are compared, of which there are at most `limit`. -/
def comparedPairs (v w : ClauseView) (limit : Nat) : List (Nat × Nat) :=
  explore (ClauseGraph.pairNext v.graph w.graph) limit [(v.name, w.name)] ∅

/-- Clauses have the same derivation if all pairs compared agree, as many as there can be. -/
theorem sameAs_eq (v w : ClauseView) :
    v.sameAs w = (v.comparedPairs w (v.graph.bound * w.graph.bound)).all
      (ClauseGraph.pairAgrees v.graph w.graph) := rfl

/-- The walk ends before the limit on the number of pairs could matter. -/
theorem comparedPairs_eq (hv : v.Obtained) (hw : w.Obtained) {limit : Nat}
    (hlimit : v.graph.bound * w.graph.bound ≤ limit) :
    v.comparedPairs w limit = v.comparedPairs w (v.graph.bound * w.graph.bound) :=
  explore_eq_of_le (Nat.le_of_eq (ClauseGraph.length_pairs v.graph w.graph))
    (ClauseGraph.covers_pairNext hv.complete hw.complete) hlimit

theorem Obtained.exists_unfoldsTo (hv : v.Obtained) : ∃ d, v.UnfoldsTo d :=
  ClauseGraph.exists_unfolds hv.wellFounded hv.complete

theorem sameAs_iff_unfoldsLike (hv : v.Obtained) (hw : w.Obtained) :
    v.sameAs w = true ↔ ClauseGraph.UnfoldsLike v.graph v.name w.graph w.name :=
  ClauseGraph.sameDerivation_iff_unfoldsLike hv.complete hw.complete

theorem sameAs_iff_eq (hv : v.Obtained) (hw : w.Obtained) (hd : v.UnfoldsTo d)
    (he : w.UnfoldsTo e) : v.sameAs w = true ↔ d = e :=
  (sameAs_iff_unfoldsLike hv hw).trans (ClauseGraph.unfoldsLike_iff_eq hd he)

theorem sameAs_refl (hv : v.Obtained) : v.sameAs v = true :=
  (sameAs_iff_unfoldsLike hv hv).mpr (.refl _ _)

theorem sameAs_comm (hv : v.Obtained) (hw : w.Obtained) : v.sameAs w = w.sameAs v := by
  rw [Bool.eq_iff_iff, sameAs_iff_unfoldsLike hv hw, sameAs_iff_unfoldsLike hw hv]
  exact ⟨fun h => h.symm, fun h => h.symm⟩

theorem sameAs_trans (hu : u.Obtained) (hv : v.Obtained) (hw : w.Obtained)
    (huv : u.sameAs v = true) (hvw : v.sameAs w = true) : u.sameAs w = true := by
  rw [sameAs_iff_unfoldsLike hu hv] at huv
  rw [sameAs_iff_unfoldsLike hv hw] at hvw
  exact (sameAs_iff_unfoldsLike hu hw).mpr (huv.trans hvw)

theorem fingerprint?_eq_of_sameAs (hv : v.Obtained) (hw : w.Obtained) (h : v.sameAs w = true) :
    ∃ numbers, v.fingerprint? = some numbers ∧ w.fingerprint? = some numbers := by
  have hfirst := (ClauseGraph.sameDerivation_iff_pairs hv.complete hw.complete).mp h _ (.refl _)
  obtain ⟨c, d, hc, hd, hagrees⟩ := ClauseGraph.pairAgrees_iff.mp hfirst
  refine ⟨c.fingerprint, ?_, ?_⟩
  · simp [fingerprint?, clause?, hc]
  · simp [fingerprint?, clause?, hd, Clause.fingerprint_eq_of_agrees hagrees]

/-- **The comparison of derivations decides whether the unfolded derivations are equal**, for
clauses of traces and nodes of proof trees in any combination.  The walk ends by itself, and both
clauses unfold to finite trees.  Hence having the same derivation is an equivalence, it depends on
nothing but the unfolded derivations, and clauses that have the same derivation have one
fingerprint. -/
theorem sameAs_iff_unfolding (hv : v.Obtained) (hw : w.Obtained) :
    (∀ limit, v.graph.bound * w.graph.bound ≤ limit →
      v.comparedPairs w limit = v.comparedPairs w (v.graph.bound * w.graph.bound)) ∧
    (∃ d e, v.UnfoldsTo d ∧ w.UnfoldsTo e) ∧
    (∀ d e, v.UnfoldsTo d → w.UnfoldsTo e → (v.sameAs w = true ↔ d = e)) ∧
    v.sameAs v = true ∧ v.sameAs w = w.sameAs v ∧
    (∀ u : ClauseView, u.Obtained → v.sameAs w = true → w.sameAs u = true →
      v.sameAs u = true) ∧
    (∀ (u : ClauseView) (d : Derivation), u.Obtained → u.UnfoldsTo d → v.UnfoldsTo d →
      u.sameAs w = v.sameAs w) ∧
    (v.sameAs w = true →
      ∃ numbers, v.fingerprint? = some numbers ∧ w.fingerprint? = some numbers) := by
  obtain ⟨d, hd⟩ := hv.exists_unfoldsTo
  obtain ⟨e, he⟩ := hw.exists_unfoldsTo
  refine ⟨fun limit hlimit => comparedPairs_eq hv hw hlimit, ⟨d, e, hd, he⟩,
    fun d e hd he => sameAs_iff_eq hv hw hd he, sameAs_refl hv, sameAs_comm hv hw,
    fun u hu hvw hwu => sameAs_trans hv hw hu hvw hwu, ?_, fingerprint?_eq_of_sameAs hv hw⟩
  intro u d hu hud hvd
  rw [Bool.eq_iff_iff, sameAs_iff_eq hu hw hud he, sameAs_iff_eq hv hw hvd he]

/-- The resolvent of the sample trace has the same derivation as the root of its detached copy, but
not as the root of a tree without antecedents. -/
theorem sameAs_iff_unfolding_sample :
    (ClauseView.clause Trace.sample 3).Obtained ∧
      (ClauseView.node (.ofClause Trace.sample.graph 3) 0).Obtained ∧
      (ClauseView.node (.leaf [1, 3]) 0).Obtained ∧
      (∃ d, (ClauseView.clause Trace.sample 3).UnfoldsTo d ∧
        (ClauseView.node (.ofClause Trace.sample.graph 3) 0).UnfoldsTo d) ∧
      ¬∃ d, (ClauseView.clause Trace.sample 3).UnfoldsTo d ∧
        (ClauseView.node (.leaf [1, 3]) 0).UnfoldsTo d := by
  have hclause : (ClauseView.clause Trace.sample 3).Obtained :=
    ⟨Trace.sample_obtained, by decide⟩
  have hcopy : (ClauseView.node (.ofClause Trace.sample.graph 3) 0).Obtained :=
    ⟨.ofTrace Trace.sample_obtained.wellFormed (by decide), by decide +kernel⟩
  have hleaf : (ClauseView.node (.leaf [1, 3]) 0).Obtained := ⟨.leaf [1, 3], rfl⟩
  refine ⟨hclause, hcopy, hleaf, ?_, ?_⟩
  · obtain ⟨-, ⟨d, e, hd, he⟩, hiff, -⟩ := sameAs_iff_unfolding hclause hcopy
    obtain rfl : d = e := (hiff d e hd he).mp (by decide +kernel)
    exact ⟨d, hd, he⟩
  · rintro ⟨d, hd, he⟩
    obtain ⟨-, -, hiff, -⟩ := sameAs_iff_unfolding hclause hleaf
    have hsame := (hiff d d hd he).mpr rfl
    revert hsame
    decide +kernel

end ClauseView
end Refutation
