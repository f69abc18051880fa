import Mathlib.Data.List.Sort
import Refutation.Proofs.ReducedForm
import Refutation.Proofs.Renaming
import Refutation.Proofs.Unassumed

/-! # Reduction of the clauses of a conflict

With only the clauses of a conflict in scope, a reduction under no assumptions extracts them from
the trace.  The extracted clauses are those in scope under other indices (`renamed_copy`), whence
their reduction is that of the trace with these clauses in scope
(`reduce_core_eq_reduce_extracted`).  The clauses that the conflict was not derived from make no
difference. -/

namespace Refutation

/-- The origin of a clause of a trace reduced twice, given its origin in the trace `m` reduced once:
the index in `m` is replaced by the index that the clause of `m` came from. -/
def ReducedTrace.originThrough? (m : ReducedTrace) : Origin → Option Origin
  | .kept index => ((m.origin? index).bind Origin.source?).map .kept
  | .simplified index => ((m.origin? index).bind Origin.source?).map .simplified
  | .contradiction => some .contradiction

theorem ReducedTrace.renameOrigins_id (r : ReducedTrace) : r.renameOrigins id = r := by
  have hid : Origin.rename id = id := by
    funext o
    cases o <;> rfl
  rw [renameOrigins, hid, Array.map_id]

namespace Reduction

/-! ### The extracted clauses -/

section extraction

variable {options : Options} {t : Trace} {i k : Nat}

/-- The index of the clause that was copied to an index.  Beyond the clauses copied the indices go
on beyond those of the trace, so that order is kept throughout. -/
def sourceIndex (options : Options) (t : Trace) : Nat → Nat
  | 0 => 0
  | n + 1 => (scope options t)[n]?.getD (t.size + 1 + n)

theorem sourceIndex_of_copiedAt? (hk : copiedAt? options t k = some i) :
    sourceIndex options t k = i := by
  cases k with
  | zero => cases hk
  | succ n =>
      rw [copiedAt?_succ] at hk
      rw [sourceIndex, hk]
      rfl

theorem strictMono_sourceIndex (ht : t.WellFormed) : StrictMono (sourceIndex options t) := by
  have hrange : ∀ (n i : Nat), (scope options t)[n]? = some i → 0 < i ∧ i ≤ t.size := by
    intro n i hi
    exact Trace.mem_indices.mp ((mem_scope_iff ht).mp (List.mem_of_getElem? hi)).1
  refine strictMono_nat_of_lt_succ fun k => ?_
  cases k with
  | zero =>
      cases hfirst : (scope options t)[0]? with
      | none => simp [sourceIndex, hfirst]
      | some i => simpa [sourceIndex, hfirst] using (hrange 0 i hfirst).1
  | succ n =>
      cases hnext : (scope options t)[n + 1]? with
      | none =>
          cases hthis : (scope options t)[n]? with
          | none => simp [sourceIndex, hthis, hnext]
          | some i =>
              have hi := (hrange n i hthis).2
              simp [sourceIndex, hthis, hnext]
              omega
      | some j =>
          obtain ⟨hlt, rfl⟩ := List.getElem?_eq_some_iff.mp hnext
          have hthis : (scope options t)[n]? = some (scope options t)[n] :=
            List.getElem?_eq_getElem (by omega)
          have hasc := List.pairwise_iff_getElem.mp (pairwise_lt_scope options t) n (n + 1)
            (by omega) hlt (Nat.lt_succ_self n)
          simpa [sourceIndex, hthis, hnext] using hasc

theorem exists_copiedAt? (ht : t.WellFormed) (hk : k ∈ (copy options t).indices) :
    ∃ i ∈ scope options t, copiedAt? options t k = some i := by
  rw [Trace.mem_indices, size_copy ht] at hk
  obtain ⟨n, rfl⟩ : ∃ n, k = n + 1 := ⟨k - 1, by omega⟩
  have hlt : n < (scope options t).length := by omega
  exact ⟨(scope options t)[n], List.getElem_mem hlt, List.getElem?_eq_getElem hlt⟩

theorem map_sourceIndex_indices (ht : t.WellFormed) :
    (copy options t).indices.map (sourceIndex options t) = scope options t := by
  have hlength : (copy options t).indices.length = (scope options t).length := by
    rw [Trace.indices, List.length_range', size_copy ht]
  apply List.ext_getElem
  · rw [List.length_map, hlength]
  · intro n hn hn'
    rw [List.getElem_map]
    apply sourceIndex_of_copiedAt?
    rw [show (copy options t).indices[n] = n + 1 by simp [Trace.indices, Nat.add_comm]]
    exact List.getElem?_eq_getElem hn'

theorem map_number?_sourceIndex (ht : t.WellFormed) (hi : i ∈ scope options t) :
    (number? [] (start t (scope options t) []) i).map (sourceIndex options t) = some i := by
  obtain ⟨n, hn, hget⟩ := List.mem_iff_getElem.mp hi
  have hcopied : copiedAt? options t (n + 1) = some i := by
    rw [← hget]
    exact List.getElem?_eq_getElem hn
  rw [(number?_start_iff ht).mpr hcopied, Option.map_some, sourceIndex_of_copiedAt? hcopied]

/-- **The extracted clauses** are the clauses in scope under other indices.  All antecedents of a
clause in scope are in scope, so that none is lost. -/
theorem renamed_copy (ht : t.WellFormed) :
    Renamed (sourceIndex options t) (copy options t).indices (copy options t).toTrace t := by
  refine ⟨strictMono_sourceIndex ht, fun k hk => ?_⟩
  obtain ⟨i, hi, hk⟩ := exists_copiedAt? ht hk
  obtain ⟨c, hc⟩ := exists_clause_of_mem_scope ht hi
  have hants : (c.antecedents.filterMap (number? [] (start t (scope options t) []))).map
      (sourceIndex options t) = c.antecedents := by
    rw [List.map_filterMap]
    calc c.antecedents.filterMap (fun a =>
            (number? [] (start t (scope options t) []) a).map (sourceIndex options t))
        = c.antecedents.filterMap some := List.filterMap_congr fun a ha =>
            map_number?_sourceIndex ht
              (mem_scope_of_mem_antecedents ht hi (Trace.antecedents_eq hc ▸ ha))
      _ = c.antecedents := List.filterMap_some
  refine ⟨_, c.antecedents.filterMap (number? [] (start t (scope options t) [])),
    (clause?_copy ht hk hc).1, ?_, (eraseDups_eq_self_iff.mpr (nodup_eraseDups _)).symm⟩
  rw [sourceIndex_of_copiedAt? hk, hc, hants]

theorem origin?_copy (ht : t.WellFormed) (hk : k ∈ (copy options t).indices) :
    (copy options t).origin? k = some (.kept (sourceIndex options t k)) := by
  obtain ⟨i, hi, hcopied⟩ := exists_copiedAt? ht hk
  obtain ⟨c, hc⟩ := exists_clause_of_mem_scope ht hi
  rw [(clause?_copy ht hcopied hc).2, sourceIndex_of_copiedAt? hcopied]

theorem origins_copy (ht : t.WellFormed) :
    (copy options t).origins.toList = (scope options t).map .kept := by
  show (wholeClauses options t).map Residual.origin = _
  rw [wholeClauses_eq_map ht, List.map_map]
  exact List.map_congr_left fun i _ => rfl

theorem originThrough?_copy (ht : t.WellFormed) {o : Origin}
    (ho : ∀ k, o.source? = some k → k ∈ (copy options t).indices) :
    (copy options t).originThrough? o = some (o.rename (sourceIndex options t)) := by
  cases o with
  | kept k =>
      rw [ReducedTrace.originThrough?, origin?_copy ht (ho k rfl)]
      rfl
  | simplified k =>
      rw [ReducedTrace.originThrough?, origin?_copy ht (ho k rfl)]
      rfl
  | contradiction => rfl

end extraction
/-! ### Clauses out of scope -/

section outside

variable {options : Options} {t t' : Trace} {conflict : Nat}

/-- Traces that agree on what their conflict was derived from have the same scope. -/
theorem scope_eq_of_agree (ht : t.WellFormed) (ht' : t'.WellFormed)
    (hcore : options.coreOnly.value = true) (hconflict : t.conflict? = some conflict)
    (hconflict' : t'.conflict? = some conflict)
    (hagree : ∀ i, Reaches t.antecedents conflict i → t'.clause? i = t.clause? i) :
    scope options t' = scope options t := by
  apply (pairwise_lt_scope options t').eq_of_mem_iff (pairwise_lt_scope options t)
  intro i
  rw [mem_scope_of_core_iff ht hcore hconflict, mem_scope_of_core_iff ht' hcore hconflict']
  refine Reaches.congr fun j hj => ?_
  rw [Trace.antecedents, hagree j hj, Trace.antecedents]

/-- **Clauses that the conflict was not derived from make no difference.** -/
theorem reduce_eq_of_agree (ht : t.WellFormed) (ht' : t'.WellFormed)
    (hcore : options.coreOnly.value = true) (hconflict : t.conflict? = some conflict)
    (hconflict' : t'.conflict? = some conflict)
    (hagree : ∀ i, Reaches t.antecedents conflict i → t'.clause? i = t.clause? i)
    {assumptions : List Literal} (hproper : ∀ l ∈ assumptions, l.Proper) :
    t'.reduce options assumptions = t.reduce options assumptions := by
  have hsame : Renamed id (scope options t) t t' := by
    refine ⟨strictMono_id, fun i hi => ?_⟩
    obtain ⟨c, hc⟩ := exists_clause_of_mem_scope ht hi
    rw [mem_scope_of_core_iff ht hcore hconflict] at hi
    refine ⟨c, c.antecedents, hc, ?_, rfl⟩
    rw [id, hagree i hi, hc, List.map_id]
  have hscope : scope options t' = (scope options t).map id := by
    rw [scope_eq_of_agree ht ht' hcore hconflict hconflict' hagree, List.map_id]
  obtain ⟨r, hr, hr'⟩ := reduce_renamed ht hsame hscope rfl rfl hproper
  rw [hr, hr', ReducedTrace.renameOrigins_id]

end outside

/-! ### The reduction of a conflict -/

/-- **To reduce the clauses of a conflict is to extract them and reduce the whole trace extracted.**
The reduced clauses, with their antecedents, the assumptions and the derived literals are the same,
index by index; the origins are the same once the indices of the trace extracted are replaced by
those they came from.  What is extracted are the clauses that the conflict was derived from, all of
them kept, and from another trace that has the same conflict and agrees on these clauses the result
is the same. -/
theorem reduce_core_eq_reduce_extracted {t : Trace} (ht : t.Obtained)
    (options first second : Options) (hcore : options.coreOnly.value = true)
    (hfirst : first.coreOnly.value = true) (hsecond : second.coreOnly.value = false)
    (hstop : second.stopOnConflict.value = options.stopOnConflict.value)
    (hlink : second.linkUnitReasons.value = options.linkUnitReasons.value)
    {assumptions : List Literal} (hproper : ∀ l ∈ assumptions, l.Proper) :
    ∃ m r₁ r₂, t.reduce first [] = .ok m ∧ m.toTrace.reduce second assumptions = .ok r₂ ∧
      t.reduce options assumptions = .ok r₁ ∧
      r₁.clauses = r₂.clauses ∧ r₁.assumptions = r₂.assumptions ∧ r₁.derived = r₂.derived ∧
      r₁.origins.map some = r₂.origins.map m.originThrough? ∧
      ∀ conflict, t.conflict? = some conflict →
        m.origins.toList = (t.ancestors {conflict}).toList.map .kept ∧
        ∀ t' : Trace, t'.Obtained → t'.conflict? = some conflict →
          (∀ i ∈ t.ancestors {conflict}, t'.clause? i = t.clause? i) →
            t'.reduce options assumptions = .ok r₁ := by
  have hform := ht.wellFormed
  have hextract := reduce_nil first t
  have hcopy := (Trace.Obtained.reduce ht hextract).wellFormed
  have hwhole : scope second (copy first t).toTrace = (copy first t).indices :=
    scope_of_whole hsecond
  have hscope : scope options t =
      (scope second (copy first t).toTrace).map (sourceIndex first t) := by
    rw [hwhole, map_sourceIndex_indices hform]
    exact scope_congr (hcore.trans hfirst.symm)
  have hrenamed : Renamed (sourceIndex first t) (scope second (copy first t).toTrace)
      (copy first t).toTrace t := hwhole ▸ renamed_copy hform
  obtain ⟨r, hr, hr'⟩ := reduce_renamed hcopy hrenamed hscope hstop.symm hlink.symm hproper
  have hfollows : r.Follows (copy first t).toTrace := by
    obtain ⟨-, rfl⟩ := reduce_eq_ok_iff.mp hr
    exact follows_rebuild hcopy (sound_cascade_eraseDups hcopy second hproper)
  refine ⟨_, _, r, hextract, hr, hr', rfl, rfl, rfl, ?_, fun conflict hconflict => ⟨?_, ?_⟩⟩
  · rw [ReducedTrace.renameOrigins, Array.map_map]
    refine Array.map_congr_left fun o ho => (originThrough?_copy hform fun k hk => ?_).symm
    exact hfollows.mem_indices k (List.mem_filterMap.mpr ⟨o, Array.mem_toList_iff.mpr ho, hk⟩)
  · rw [origins_copy hform, scope_of_core hfirst hconflict]
  · intro t' ht' hconflict' hagree
    rw [← hr']
    apply reduce_eq_of_agree hform ht'.wellFormed hcore hconflict hconflict' _ hproper
    intro i hi
    rw [← mem_scope_of_core_iff hform hcore hconflict, scope_of_core hcore hconflict] at hi
    exact hagree i (Std.TreeSet.mem_toList.mp hi)

/-- The default settings, except that only the clauses of a conflict are reduced. -/
def conflictOnly : Options := { coreOnly := ⟨"core_only", false, true, true⟩ }

/-- The axioms `1 ∨ 2`, `¬2` and `¬1` with the resolvents to the empty clause, and an axiom that is
not used. -/
def conflictSample (unused : List Literal) : Trace :=
  ⟨#[⟨[1, 2], []⟩, ⟨unused, []⟩, ⟨[-2], []⟩, ⟨[1], [1, 3]⟩, ⟨[-1], []⟩, ⟨[], [4, 5]⟩]⟩

/-- Five clauses of the sample are extracted.  Given that 1 is false, four of them are left, and
none of these depends on the axiom that is not used. -/
theorem reduce_core_eq_reduce_extracted_sample :
    (conflictSample [3]).Obtained ∧ conflictOnly.coreOnly.value = true ∧
      Options.standard.coreOnly.value = false ∧ (∀ l ∈ ([-1] : List Literal), l.Proper) ∧
      ∃ m r₁ r₂, (conflictSample [3]).reduce conflictOnly [] = .ok m ∧
        m.toTrace.reduce .standard [-1] = .ok r₂ ∧
        (conflictSample [3]).reduce conflictOnly [-1] = .ok r₁ ∧
        (conflictSample [-2, 5]).reduce conflictOnly [-1] = .ok r₁ ∧
        r₁.clauses = r₂.clauses ∧ r₁.derived = r₂.derived ∧
        r₁.origins = #[.simplified 1, .kept 3, .simplified 4, .kept 6] ∧
        r₁.origins.map some = r₂.origins.map m.originThrough? := by
  have hobtained : (conflictSample [3]).Obtained := Trace.obtained_iff_wellFormed.mpr (by decide)
  have hother : (conflictSample [-2, 5]).Obtained := Trace.obtained_iff_wellFormed.mpr (by decide)
  have hproper : ∀ l ∈ ([-1] : List Literal), l.Proper := assumptionFault?_eq_none_iff.mp rfl
  obtain ⟨m, r₁, r₂, hm, hr₂, hr₁, hclauses, -, hderived, horigins, hconflict⟩ :=
    reduce_core_eq_reduce_extracted hobtained conflictOnly conflictOnly .standard rfl rfl rfl rfl
      rfl hproper
  obtain ⟨-, hsame⟩ := hconflict 6 (by decide)
  have hagree : ∀ i ∈ (conflictSample [3]).ancestors {6},
      (conflictSample [-2, 5]).clause? i = (conflictSample [3]).clause? i := by
    intro i hi
    have hancestors : ((conflictSample [3]).ancestors {6}).toList = [1, 3, 4, 5, 6] := by
      decide +kernel
    rw [← Std.TreeSet.mem_toList, hancestors] at hi
    simp only [List.mem_cons, List.not_mem_nil, or_false] at hi
    rcases hi with rfl | rfl | rfl | rfl | rfl <;> rfl
  have hrun : ((conflictSample [3]).reduce conflictOnly [-1]).map (·.origins) =
      .ok #[.simplified 1, .kept 3, .simplified 4, .kept 6] := by
    decide +kernel
  rw [hr₁] at hrun
  exact ⟨hobtained, rfl, rfl, hproper, m, r₁, r₂, hm, hr₂, hr₁,
    hsame _ hother (by decide) hagree, hclauses, hderived, Except.ok.inj hrun, horigins⟩

end Reduction
end Refutation
