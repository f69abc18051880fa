import Refutation.Proofs.MachineRun

/-! # A machine reduces a trace

The machine takes up the clauses in scope and the assumptions, and then stands where the cascade
starts (`Machine.exists_assumed`).  Where the cascade has ended it rebuilds the same trace
(`Machine.rebuild_eq`): clauses are rebuilt in order, so that the new index of an antecedent, or of
an earlier reason, has been stored when it is looked up, while that of a later reason has not.

So a reduction on stores ends without a fault, and with the same result as the reduction of the
trace (`Trace.reduceOnStores_eq`). -/

namespace Refutation.Reduction

namespace Machine

/-! ### Taking up the clauses -/

/-- The clauses at some indices have been taken up whole, and nothing is known. -/
structure Entered (t : Trace) (done : List Nat) (m : Machine) : Prop where
  size_working : m.working.size = t.size
  working : ∀ i ∈ done, ∃ d, t.clause? i = some d ∧
    m.working[i - 1]? = some (some ⟨d.literals, .kept, []⟩)
  occurrences_iff : ∀ l i, i ∈ m.occurrences.getD l [] ↔
    i ∈ done ∧ ∃ d, t.clause? i = some d ∧ l ∈ d.literals
  known_eq : m.known = ∅
  derived_eq : m.derived = []
  queue_eq : m.queue = []
  conflict_eq : m.conflict = none
  contradiction_eq : m.contradiction = false

section enter

variable {t : Trace} {done js : List Nat} {m : Machine} {i k : Nat} {l : Literal}

theorem mem_addOccurrences_iff {table : Std.TreeMap Literal (List Nat)} {ls : List Literal} :
    k ∈ (addOccurrences table i ls).getD l [] ↔ k ∈ table.getD l [] ∨ k = i ∧ l ∈ ls := by
  unfold addOccurrences
  induction ls generalizing table with
  | nil => simp
  | cons l' ls ih =>
      rw [List.foldl_cons, ih, Std.TreeMap.getD_insert]
      split
      · next heq =>
        obtain rfl : l' = l := Std.LawfulEqOrd.eq_of_compare heq
        simp only [List.mem_append, List.mem_cons, true_or, and_true]
        tauto
      · next hne =>
        have hll : l ≠ l' := fun heq => hne (heq ▸ Std.ReflOrd.compare_self)
        simp [hll]

theorem entered_empty (t : Trace) : Entered t [] (empty t.size) := by
  refine ⟨Array.size_replicate, by simp, ?_, rfl, rfl, rfl, rfl, rfl⟩
  intro l i
  simp [empty]

theorem getElem?_clauses {d : Clause} (h : t.clause? i = some d) :
    t.clauses[i - 1]? = some d := by
  cases i with
  | zero => cases h
  | succ i => exact h

theorem Entered.enter (h : Entered t done m) (hi : i ∈ t.indices) :
    ∃ m', Machine.enter t m i = .ok m' ∧ Entered t (done ++ [i]) m' := by
  obtain ⟨hpos, hle⟩ := Trace.mem_indices.mp hi
  obtain ⟨d, hd⟩ := Option.isSome_iff_exists.mp (Trace.mem_indices_iff_isSome.mp hi)
  have hlt : i - 1 < m.working.size := by
    rw [h.size_working]
    omega
  refine ⟨{ m with
      working := m.working.setIfInBounds (i - 1) (some ⟨d.literals, .kept, []⟩)
      occurrences := addOccurrences m.occurrences i d.literals }, ?_, ?_⟩
  · simp only [Machine.enter, position_of_pos hpos, ok_bind,
      entry_of_getElem? (getElem?_clauses hd), withEntry_of_lt hlt]
    rfl
  · refine ⟨?_, ?_, ?_, h.known_eq, h.derived_eq, h.queue_eq, h.conflict_eq, h.contradiction_eq⟩
    · rw [Array.size_setIfInBounds, h.size_working]
    · intro k hk
      rw [Array.getElem?_setIfInBounds]
      by_cases hki : k = i
      · subst hki
        exact ⟨d, hd, by rw [if_pos rfl, if_pos hlt]⟩
      · have hk : k ∈ done := by simpa [hki] using hk
        obtain ⟨e, he, hentry⟩ := h.working k hk
        have hkpos : 0 < k := (Trace.mem_indices.mp (Trace.mem_indices_of_clause? he)).1
        exact ⟨e, he, by rw [if_neg (by omega), hentry]⟩
    · intro l k
      rw [mem_addOccurrences_iff, h.occurrences_iff, List.mem_append, List.mem_singleton,
        or_and_right]
      apply or_congr_right
      constructor
      · rintro ⟨rfl, hl⟩
        exact ⟨rfl, d, hd, hl⟩
      · rintro ⟨rfl, e, he, hl⟩
        rw [hd] at he
        cases he
        exact ⟨rfl, hl⟩

theorem filter_contains (hscope : ∀ i ∈ js, i ∈ t.indices) : js.filter t.contains = js :=
  List.filter_eq_self.mpr fun i hi => Trace.contains_iff.mpr (Trace.mem_indices.mp (hscope i hi))

theorem exists_load (hscope : ∀ i ∈ js, i ∈ t.indices) :
    ∃ m, load t js = .ok m ∧ Entered t js m := by
  rw [load, filter_contains hscope]
  refine exists_foldlM_eq_ok (Entered t) (entered_empty t) fun done i rest m hsplit h => ?_
  exact h.enter (hscope i (hsplit ▸ List.mem_append_right _ List.mem_cons_self))

end enter

/-! ### Taking note of the assumptions -/

section assume

variable {t : Trace} {scope : List Nat} {ls assumed : List Literal} {m : Machine} {l : Literal}

theorem contradictory_concat (hl : l.Proper) :
    contradictory (ls ++ [l]) = true ↔ contradictory ls = true ∨ -l ∈ accepted ls := by
  constructor
  · intro h
    by_cases hls : contradictory ls = true
    · exact .inl hls
    · rw [accepted_eq_self (Bool.not_eq_true _ ▸ hls)]
      obtain ⟨x, hx, hneg⟩ := contradictory_iff.mp h
      rw [List.mem_append, List.mem_singleton] at hx hneg
      rcases hx with hx | rfl
      · rcases hneg with hneg | hneg
        · exact (hls (contradictory_iff.mpr ⟨x, hx, hneg⟩)).elim
        · rw [← hneg, Int32.neg_neg]
          exact .inr hx
      · exact .inr (hneg.resolve_right (neg_ne_self hl))
  · rintro (h | h)
    · obtain ⟨x, hx, hneg⟩ := contradictory_iff.mp h
      exact contradictory_iff.mpr ⟨x, List.mem_append_left _ hx, List.mem_append_left _ hneg⟩
    · exact contradictory_iff.mpr ⟨l, List.mem_append_right _ List.mem_cons_self,
        List.mem_append_left _ (mem_of_mem_accepted h)⟩

/-- What is left of the clauses at the start. -/
def whole (t : Trace) (i : Nat) : Option Residual := (t.clause? i).map (Residual.ofClause i)

theorem Entered.mirrors (h : Entered t scope m) :
    Mirrors t scope [] (whole t) m (start t scope []) := by
  refine ⟨?_, h.derived_eq, h.queue_eq, h.size_working, ?_, ?_, h.occurrences_iff,
    h.contradiction_eq⟩
  · intro l reason
    rw [h.known_eq]
    simp [start, accepted, Cascade.known]
  · intro i hi
    obtain ⟨d, hd, hentry⟩ := h.working i hi
    refine ⟨_, hentry, .inr ⟨Residual.ofClause i d, by rw [whole, hd]; rfl, rfl, rfl, rfl, ?_⟩⟩
    simp [Residual.isShortened, Residual.ofClause]
  · rw [h.conflict_eq]
    constructor
    · intro hsome
      cases hsome
    · rintro ⟨i, -, r, hr, hshort, -⟩
      obtain ⟨d, -, rfl⟩ := Option.map_eq_some_iff.mp hr
      cases hshort

theorem literalsOf_known_start (t : Trace) (scope : List Nat) (ls : List Literal) :
    literalsOf (start t scope ls).known = accepted ls := by
  simp [start, Cascade.known, literalsOf, Function.comp_def]

/-- **The machine accepts what the cascade accepts.** -/
theorem Mirrors.assume (h : Mirrors t scope ls (whole t) m (start t scope ls)) (hl : l.Proper)
    (hnew : l ∉ ls) :
    ∃ m', m.assume l = .ok m' ∧
      Mirrors t scope (ls ++ [l]) (whole t) m' (start t scope (ls ++ [l])) := by
  have hmem : ∀ l, l ∈ m.known ↔ l ∈ accepted ls := fun l => by
    rw [h.mem_known_iff, literalsOf_known_start]
  have hfree : l ∉ m.known := fun hknown => hnew (mem_of_mem_accepted ((hmem l).mp hknown))
  unfold Machine.assume
  rw [complement_of_proper hl, ok_bind]
  by_cases hneg : -l ∈ m.known
  · have hstart : start t scope (ls ++ [l]) = start t scope ls := by
      rw [start, accepted_concat, if_pos ((hmem _).mp hneg), start]
    rw [if_pos hneg, hstart]
    refine ⟨_, rfl, h.known_iff, h.derived_eq, h.queue_eq, h.size_working, h.working,
      h.conflict_iff, h.occurrences_iff, ?_⟩
    exact ((contradictory_concat hl).mpr (.inr ((hmem _).mp hneg))).symm
  · have haccepted : accepted (ls ++ [l]) = accepted ls ++ [l] := by
      rw [accepted_concat, if_neg (mt (hmem _).mpr hneg)]
    have hknown : (start t scope (ls ++ [l])).known =
        (start t scope ls).known ++ [⟨l, none⟩] := by
      simp [start, Cascade.known, haccepted]
    rw [if_neg hneg, if_neg hfree]
    refine ⟨_, rfl, ?_, ?_, ?_, h.size_working, h.working, h.conflict_iff, h.occurrences_iff, ?_⟩
    · rw [hknown]
      exact h.known_iff_insert hfree none
    · simp [hknown, h.derived_eq]
    · simp [h.queue_eq, start, haccepted]
    · rw [h.contradiction_eq, Bool.eq_iff_iff, contradictory_concat hl,
        or_iff_left (mt (hmem _).mpr hneg)]

/-- **The machine starts where the cascade starts.** -/
theorem exists_assumed (hscope : ∀ i ∈ scope, i ∈ t.indices) (hproper : ∀ l ∈ assumed, l.Proper)
    (hnodup : assumed.Nodup) :
    ∃ entered m, load t scope = .ok entered ∧ Entered t scope entered ∧
      assumed.foldlM Machine.assume entered = .ok m ∧
        Represents t scope assumed m (start t scope assumed) := by
  obtain ⟨entered, hload, hentered⟩ := exists_load hscope
  obtain ⟨m, hassume, hm⟩ : ∃ m, assumed.foldlM Machine.assume entered = .ok m ∧
      Mirrors t scope assumed (whole t) m (start t scope assumed) := by
    refine exists_foldlM_eq_ok
      (fun done m => Mirrors t scope done (whole t) m (start t scope done)) hentered.mirrors ?_
    intro done l rest m hsplit h
    have hl : l ∈ assumed := hsplit ▸ List.mem_append_right _ List.mem_cons_self
    have hnew : l ∉ done := fun hmem =>
      List.disjoint_of_nodup_append (hsplit ▸ hnodup) hmem List.mem_cons_self
    exact h.assume (hproper l hl) hnew
  exact ⟨entered, m, hload, hentered, hassume, whole t, rfl, hm⟩

end assume

/-! ### Rebuilding the trace -/

theorem mapM_of_forall_ok {α β : Type} {f : α → Except Fault β} {g : α → β} {xs : List α}
    (h : ∀ x ∈ xs, f x = .ok (g x)) : xs.mapM f = .ok (xs.map g) := by
  induction xs with
  | nil => rfl
  | cons x xs ih =>
      rw [List.mapM_cons, h x List.mem_cons_self, ok_bind,
        ih fun y hy => h y (List.mem_cons_of_mem x hy), ok_bind]
      rfl

/-- What is left of the clauses at some indices has been rebuilt. -/
structure Drafted (link : Bool) (t : Trace) (assumed : List Literal) (c : Cascade)
    (left : Nat → Option Residual) (done : List Nat) (d : Draft) : Prop where
  clauses_eq : d.clauses.toList = leading assumed ++ (done.filterMap left).map fun r =>
    Clause.mk r.literals (r.antecedents link t (number? assumed c))
  origins_eq : d.origins.toList = (leading assumed).map (fun _ => Origin.contradiction) ++
    (done.filterMap left).map Residual.origin
  renumbered : ∀ j ≤ t.size, d.renumbered[j]? =
    some (if j ∈ done then number? assumed c j else none)

theorem Drafted.size_clauses {link : Bool} {t : Trace} {assumed : List Literal} {c : Cascade}
    {left : Nat → Option Residual} {done : List Nat} {d : Draft}
    (hd : Drafted link t assumed c left done d) :
    d.clauses.size + 1 = firstNumber assumed + (done.filterMap left).length := by
  rw [← Array.length_toList, hd.clauses_eq, List.length_append, List.length_map, firstNumber]
  omega

section rebuild

variable {link : Bool} {options : Options} {t : Trace} {assumed known : List Literal}
  {left : Nat → Option Residual} {m : Machine} {c : Cascade} {d : Draft} {done rest : List Nat}
  {i j : Nat} {r : Residual} {w : WorkingClause}

theorem Mirrors.drafted (link : Bool) (h : Mirrors t (scope options t) assumed left m c) :
    Drafted link t assumed c left [] (m.draft t.size) := by
  have hnone : ∀ j ≤ t.size, (Array.replicate (t.size + 1) (none : Option Nat))[j]? =
      some (if j ∈ [] then number? assumed c j else none) := fun j hj => by
    simp [Nat.lt_succ_of_le hj]
  unfold draft
  rw [h.contradiction_eq]
  cases hcontra : contradictory assumed with
  | true => exact ⟨by simp [leading, hcontra], by simp [leading, hcontra], hnone⟩
  | false => exact ⟨by simp [leading, hcontra], by simp [leading, hcontra], hnone⟩

variable (ht : t.WellFormed) (hsound : c.Sound (wholeClauses options t) known)
  (hresiduals : c.residuals = (scope options t).filterMap left)
  (h : Mirrors t (scope options t) assumed left m c)
include ht hsound hresiduals h

omit hresiduals h in
theorem reason_le {fact : Fact} (hfact : fact ∈ c.known) (hreason : fact.reason = some j) :
    j ≤ t.size := by
  obtain ⟨r, hr, rfl, -⟩ := hsound.grounded.forced hfact hreason
  obtain ⟨i, hi, e, -, rfl⟩ := mem_wholeClauses.mp hr
  exact (Trace.mem_indices.mp ((mem_scope_iff ht).mp hi).1).2

theorem number?_eq_none (hnone : i ∈ scope options t → left i = none) :
    number? assumed c i = none := by
  rw [Option.eq_none_iff_forall_ne_some]
  intro k hk
  obtain ⟨r, hstands, rfl⟩ := (number?_eq_some_iff ht hsound).mp hk
  have hmem := hstands.mem
  rw [hresiduals, List.mem_filterMap] at hmem
  obtain ⟨j, hj, hr⟩ := hmem
  rw [h.index_eq hj hr] at hnone
  rw [hnone hj] at hr
  cases hr

section split

variable (hsplit : scope options t = done ++ i :: rest)
include hsplit

omit ht hsound h in
theorem stands_of_split (hr : left i = some r) :
    Stands c.residuals (firstNumber assumed) (firstNumber assumed + (done.filterMap left).length)
      r := by
  refine ⟨(done.filterMap left).length, ?_, rfl⟩
  rw [hresiduals, hsplit, List.filterMap_append, List.filterMap_cons, hr,
    List.getElem?_append_right (Nat.le_refl _), Nat.sub_self]
  rfl

/-- **The new indices that have been stored** are those of what is left of earlier clauses. -/
theorem entry_renumbered (hd : Drafted link t assumed c left done d) (hj : j ≤ t.size) :
    entry d.renumbered j = .ok (if j < i then number? assumed c j else none) := by
  have hordered := pairwise_lt_scope options t
  rw [hsplit, List.pairwise_append, List.pairwise_cons] at hordered
  obtain ⟨-, ⟨hrest, -⟩, hdone⟩ := hordered
  rw [entry_of_getElem? (hd.renumbered j hj)]
  congr 1
  by_cases hmem : j ∈ done
  · rw [if_pos hmem, if_pos (hdone j hmem i List.mem_cons_self)]
  · rw [if_neg hmem]
    split
    · next hlt =>
      refine (number?_eq_none ht hsound hresiduals h fun hscope => ?_).symm
      rw [hsplit, List.mem_append, List.mem_cons] at hscope
      rcases hscope with hscope | rfl | hscope
      · exact (hmem hscope).elim
      · exact (Nat.lt_irrefl j hlt).elim
      · exact (Nat.lt_asymm hlt (hrest j hscope)).elim
    · rfl

/-- **The antecedents of a rebuilt clause.**  Those recorded are earlier clauses, and so all their
new indices have been stored; of the reasons, those that come later have none yet. -/
theorem antecedents_eq (hd : Drafted link t assumed c left done d) {e : Clause}
    (he : t.clause? i = some e) (hr : left i = some r)
    (hremoved : literalsOf r.removedBy = w.removedBy) :
    m.antecedents link d e.antecedents w =
      .ok (r.antecedents link t (number? assumed c)) := by
  have hi : i ∈ scope options t := hsplit ▸ List.mem_append_right _ List.mem_cons_self
  have hle : i ≤ t.size := (Trace.mem_indices.mp (Trace.mem_indices_of_clause? he)).2
  have hindex := h.index_eq hi hr
  have hentry : ∀ j ≤ t.size, entry d.renumbered j =
      .ok (if j < i then number? assumed c j else none) := fun j hj =>
    entry_renumbered ht hsound hresiduals h hsplit hd hj
  -- the facts that shortened the clause are known, with reasons that are clauses
  have hfacts : ∀ fact ∈ r.removedBy, fact ∈ c.known := by
    intro fact hfact
    have hmem : r ∈ c.residuals := hresiduals ▸ List.mem_filterMap.mpr ⟨i, hi, hr⟩
    obtain ⟨e, -, -, hremnant⟩ := exists_clause_of_mem_residuals hsound hmem
    rw [Residual.remnant?_eq_some_iff] at hremnant
    rw [← hremnant.2] at hfact
    exact List.mem_append_left _ (List.mem_filter.mp hfact).1
  have hreasons : w.removedBy.filterMap m.reason? = r.removedBy.filterMap (·.reason) := by
    rw [← hremoved, literalsOf, List.filterMap_map]
    exact List.filterMap_congr fun fact hfact => h.reason?_eq (hfacts fact hfact)
  have hbound : ∀ j ∈ r.removedBy.filterMap (·.reason), j ≤ t.size := by
    intro j hj
    obtain ⟨fact, hfact, hreason⟩ := List.mem_filterMap.mp hj
    exact reason_le ht hsound (hfacts fact hfact) hreason
  have hrecorded : e.antecedents.mapM (entry d.renumbered) =
      .ok (e.antecedents.map (number? assumed c)) := by
    refine mapM_of_forall_ok fun a ha => ?_
    have hlt := (ht i e he).antecedent_lt a ha
    rw [hentry a (by omega), if_pos hlt]
  have hlinked : (if link then r.removedBy.filterMap (·.reason) else []).mapM
      (entry d.renumbered) = .ok ((if link then r.removedBy.filterMap (·.reason) else []).map
        fun j => if j < i then number? assumed c j else none) := by
    refine mapM_of_forall_ok fun j hj => hentry j ?_
    cases link with
    | true => exact hbound j hj
    | false => cases hj
  unfold Machine.antecedents Residual.antecedents
  rw [hreasons, hrecorded, ok_bind, hlinked, ok_bind, hindex, Trace.antecedents_eq he]
  refine congrArg (fun numbers => Except.ok (List.eraseDups numbers)) ?_
  rw [List.filterMap_append, List.filterMap_append, List.filterMap_map, List.filterMap_map]
  refine congrArg₂ (· ++ ·) rfl ?_
  cases link with
  | true =>
      rw [if_pos rfl, if_pos rfl, List.filterMap_filter]
      simp only [decide_eq_true_eq]
      rfl
  | false => rfl

theorem number?_of_split (hr : left i = some r) :
    number? assumed c i = some (firstNumber assumed + (done.filterMap left).length) := by
  have hi : i ∈ scope options t := hsplit ▸ List.mem_append_right _ List.mem_cons_self
  exact (number?_eq_some_iff ht hsound).mpr
    ⟨r, stands_of_split hresiduals hsplit hr, h.index_eq hi hr⟩

omit hsplit in
theorem Drafted.pass (hd : Drafted link t assumed c left done d) (hnone : left i = none) :
    Drafted link t assumed c left (done ++ [i]) d := by
  have hfilter : (done ++ [i]).filterMap left = done.filterMap left := by simp [hnone]
  refine ⟨hfilter ▸ hd.clauses_eq, hfilter ▸ hd.origins_eq, fun j hj => ?_⟩
  rw [hd.renumbered j hj]
  by_cases hji : j = i
  · rw [hji, number?_eq_none ht hsound hresiduals h fun _ => hnone, ite_self, ite_self]
  · simp [hji]

theorem Drafted.add (hd : Drafted link t assumed c left done d) (hr : left i = some r)
    (hlt : i < d.renumbered.size) :
    Drafted link t assumed c left (done ++ [i])
      ⟨d.clauses.push ⟨r.literals, r.antecedents link t (number? assumed c)⟩,
        d.origins.push r.origin, d.renumbered.setIfInBounds i (some (d.clauses.size + 1))⟩ := by
  have hfilter : (done ++ [i]).filterMap left = done.filterMap left ++ [r] := by simp [hr]
  refine ⟨?_, ?_, fun j hj => ?_⟩
  · simp [hfilter, hd.clauses_eq]
  · simp [hfilter, hd.origins_eq]
  · rw [Array.getElem?_setIfInBounds]
    by_cases hij : i = j
    · subst hij
      rw [if_pos rfl, if_pos hlt, if_pos (List.mem_append_right _ List.mem_cons_self),
        number?_of_split ht hsound hresiduals h hsplit hr, hd.size_clauses]
    · rw [if_neg hij, hd.renumbered j hj]
      simp [Ne.symm hij]

/-- **The next clause is rebuilt**, and the checks made on the rebuilt clause hold. -/
theorem Drafted.place (hd : Drafted link t assumed c left done d) :
    ∃ d', m.place link t d i = .ok d' ∧ Drafted link t assumed c left (done ++ [i]) d' := by
  have hi : i ∈ scope options t := hsplit ▸ List.mem_append_right _ List.mem_cons_self
  obtain ⟨hpos, hle⟩ := Trace.mem_indices.mp ((mem_scope_iff ht).mp hi).1
  obtain ⟨w, hentry, ⟨hstatus, hnone⟩ | ⟨r, hr, hindex, hliterals, hremoved, hstatus⟩⟩ :=
    h.working i hi
  · refine ⟨d, ?_, hd.pass ht hsound hresiduals h hnone⟩
    simp only [Machine.place, position_of_pos hpos, ok_bind, hentry, hstatus, if_true]
    rfl
  · obtain ⟨e, he, -⟩ := h.exists_clause hsound hresiduals hi hr
    have hworked : w.status ≠ .satisfied := by
      rw [hstatus]
      split <;> decide
    have hok : Trace.ClauseOk (d.clauses.size + 1)
        ⟨r.literals, r.antecedents link t (number? assumed c)⟩ := by
      rw [hd.size_clauses]
      exact wellFormed_rebuild ht hsound _ _
        (clause?_of_stands (stands_of_split hresiduals hsplit hr))
    have hfault : Trace.fault? (d.clauses.size + 1) w.literals
        (r.antecedents link t (number? assumed c)) = none := by
      rw [← hliterals, Trace.fault?_eq_none_iff]
      exact ⟨⟨hok.proper, hok.nodup⟩,
        fun a ha => ⟨hok.antecedent_pos a ha, hok.antecedent_lt a ha⟩⟩
    have hlt : i < d.renumbered.size := (Array.getElem?_eq_some_iff.mp (hd.renumbered i hle)).1
    have horigin : (if w.status = .simplified then Origin.simplified i else .kept i) =
        r.origin := by
      rw [hstatus, Residual.origin, hindex]
      cases r.isShortened <;> rfl
    refine ⟨_, ?_, hd.add ht hsound hresiduals h hsplit hr hlt⟩
    simp only [Machine.place, position_of_pos hpos, ok_bind, hentry, if_neg hworked,
      entry_of_getElem? (getElem?_clauses he),
      antecedents_eq ht hsound hresiduals h hsplit hd he hr hremoved, hfault,
      withEntry_of_lt hlt, horigin, hliterals]
    rfl

end split

theorem entry_of_drafted (hd : Drafted link t assumed c left (scope options t) d)
    (hj : j ≤ t.size) : entry d.renumbered j = .ok (number? assumed c j) := by
  rw [entry_of_getElem? (hd.renumbered j hj)]
  by_cases hmem : j ∈ scope options t
  · rw [if_pos hmem]
  · rw [if_neg hmem, number?_eq_none ht hsound hresiduals h fun hscope => (hmem hscope).elim]

theorem mapM_derivedEntry (hd : Drafted link t assumed c left (scope options t) d)
    {facts : List Fact} (hfacts : ∀ fact ∈ facts, fact ∈ c.known) :
    (literalsOf (facts.filter (·.reason.isSome))).mapM (m.derivedEntry d) =
      .ok (facts.filterMap fun fact =>
        fact.reason.map fun reason => (fact.literal, number? assumed c reason)) := by
  induction facts with
  | nil => rfl
  | cons fact facts ih =>
      have hfact := hfacts fact List.mem_cons_self
      have hrest := ih fun other hother => hfacts other (List.mem_cons_of_mem fact hother)
      cases hreason : fact.reason with
      | none => simpa [hreason] using hrest
      | some reason =>
          have hentry := entry_of_drafted ht hsound hresiduals h hd
            (reason_le ht hsound hfact hreason)
          have hfirst : m.derivedEntry d fact.literal =
              .ok (fact.literal, number? assumed c reason) := by
            simp only [derivedEntry, h.reason?_eq hfact, hreason, hentry, ok_bind]
            rfl
          rw [List.filter_cons_of_pos (by simp [hreason]), literalsOf, List.map_cons,
            List.mapM_cons, hfirst, ok_bind, ← literalsOf, hrest, ok_bind,
            List.filterMap_cons_some (by rw [hreason]; rfl)]
          rfl

omit hresiduals h in
/-- **The machine rebuilds the same trace.** -/
theorem rebuild_eq (link : Bool) (h : Represents t (scope options t) assumed m c) :
    m.rebuild link t (scope options t) assumed = .ok (Reduction.rebuild link t assumed c) := by
  obtain ⟨left, hresiduals, hmirrors⟩ := h
  obtain ⟨d, hplace, hd⟩ := exists_foldlM_eq_ok (Drafted link t assumed c left)
    (hmirrors.drafted link) fun done i rest d hsplit hd =>
      hd.place ht hsound hresiduals hmirrors hsplit
  have hderived := mapM_derivedEntry ht hsound hresiduals hmirrors hd fun fact hfact => hfact
  rw [← hmirrors.derived_eq] at hderived
  have hscope : ∀ i ∈ scope options t, i ∈ t.indices := fun i hi => ((mem_scope_iff ht).mp hi).1
  have hclauses : d.clauses = (leading assumed ++ c.residuals.map fun r =>
      Clause.mk r.literals (r.antecedents link t (number? assumed c))).toArray := by
    rw [hresiduals, ← hd.clauses_eq]
  have horigins : d.origins = ((leading assumed).map (fun _ => Origin.contradiction) ++
      c.residuals.map Residual.origin).toArray := by
    rw [hresiduals, ← hd.origins_eq]
  rw [Machine.rebuild, filter_contains hscope, hplace, ok_bind, hderived, ok_bind, hclauses,
    horigins]
  rfl

end rebuild

end Machine

/-! ### The whole reduction -/

theorem forM_of_forall_ok {α : Type} {f : α → Except Fault Unit} {xs : List α}
    (h : ∀ x ∈ xs, f x = .ok ()) : xs.forM f = .ok () := by
  induction xs with
  | nil => rfl
  | cons x xs ih =>
      show (f x >>= fun _ => xs.forM f) = .ok ()
      rw [h x List.mem_cons_self, ok_bind, ih fun y hy => h y (List.mem_cons_of_mem x hy)]

theorem checkedScope_eq {t : Trace} (ht : t.WellFormed) (options : Options) :
    checkedScope options t = .ok (scope options t) := by
  have hedges : (t.edges.forM fun edge => do
      let place ← position edge.1
      let _ ← entry t.clauses place) = .ok () := by
    refine forM_of_forall_ok fun edge hedge => ?_
    obtain ⟨i, hi, hmem⟩ := List.mem_flatMap.mp hedge
    obtain ⟨a, ha, rfl⟩ := List.mem_map.mp hmem
    have hidx := ht.mem_indices_of_mem_antecedents ha
    obtain ⟨d, hd⟩ := Option.isSome_iff_exists.mp (Trace.mem_indices_iff_isSome.mp hidx)
    simp only [position_of_pos (Trace.mem_indices.mp hidx).1, ok_bind,
      entry_of_getElem? (Machine.getElem?_clauses hd)]
    rfl
  unfold checkedScope scope
  cases options.coreOnly.value with
  | false => rfl
  | true =>
      cases t.conflict? with
      | none => rfl
      | some conflict =>
          simp only [hedges, ok_bind]
          rfl

/-- **The machine ends where the cascade ends**, if as many steps are allowed as the cascade settles
facts. -/
theorem Machine.Represents.propagate {options : Options} {t : Trace} {assumed : List Literal}
    {m : Machine} (ht : t.WellFormed) (hproper : ∀ l ∈ assumed, l.Proper)
    (hnodup : assumed.Nodup)
    (h : Represents t (scope options t) assumed m (start t (scope options t) assumed)) :
    ∃ m', Represents t (scope options t) assumed m' (cascade options t assumed) ∧
      ∀ limit, (cascade options t assumed).settled.length < limit →
        m.propagate options.stopOnConflict.value limit = .ok (some m') := by
  have hiff : (m.contradiction && options.stopOnConflict.value) = true ↔
      contradictory assumed = true ∧ options.stopOnConflict.value = true := by
    obtain ⟨left, -, hmirrors⟩ := h
    rw [hmirrors.contradiction_eq, Bool.and_eq_true]
  by_cases hstop : contradictory assumed = true ∧ options.stopOnConflict.value = true
  · rw [cascade_eq_start hstop.2 hstop.1]
    exact ⟨m, h, fun limit _ => if_pos (hiff.mpr hstop)⟩
  · rw [cascade_eq_run hstop]
    obtain ⟨m', h', hrun⟩ := h.run ht (sound_start ht options hproper hnodup)
    refine ⟨m', h', fun limit hlimit => (if_neg (mt hiff.mp hstop)).trans (hrun limit ?_)⟩
    rwa [show (start t (scope options t) assumed).settled = [] from rfl, List.length_nil,
      Nat.zero_add]

end Reduction

open Reduction in
/-- **A reduction on stores ends, without a fault, with what the reduction answers**, if more steps
are allowed than the cascade settles facts. -/
theorem Trace.reduceOnStores_eq_of_lt {t : Trace} (ht : t.WellFormed) (options : Options)
    (assumptions : List Literal) {limit : Nat}
    (hlimit : (cascade options t assumptions.eraseDups).settled.length < limit) :
    t.reduceOnStores limit options assumptions = .ok (some (t.reduce options assumptions)) := by
  unfold Trace.reduceOnStores Trace.reduce
  rw [disorder?_eq_none ht]
  cases hfault : assumptionFault? assumptions with
  | some cause => rfl
  | none =>
      have hproper : ∀ l ∈ assumptions.eraseDups, l.Proper := fun l hl =>
        assumptionFault?_eq_none_iff.mp hfault l (List.mem_eraseDups.mp hl)
      have hscope : ∀ i ∈ scope options t, i ∈ t.indices := fun i hi =>
        ((mem_scope_iff ht).mp hi).1
      obtain ⟨entered, m, hload, -, hassume, hm⟩ :=
        Machine.exists_assumed hscope hproper (nodup_eraseDups assumptions)
      obtain ⟨m', hm', hended⟩ := hm.propagate ht hproper (nodup_eraseDups assumptions)
      have hrebuild := Machine.rebuild_eq ht (sound_cascade_eraseDups ht options
        (assumptionFault?_eq_none_iff.mp hfault)) options.linkUnitReasons.value hm'
      simp only [checkedScope_eq ht, ok_bind, hload, hassume, hended limit hlimit, hrebuild]
      rfl

open Reduction in
theorem Trace.reduceOnStores_eq {t : Trace} (ht : t.WellFormed) (options : Options)
    (assumptions : List Literal) :
    ∃ steps, ∀ limit, steps ≤ limit →
      t.reduceOnStores limit options assumptions = .ok (some (t.reduce options assumptions)) :=
  ⟨_, fun _ hlimit => Trace.reduceOnStores_eq_of_lt ht options assumptions hlimit⟩

end Refutation
