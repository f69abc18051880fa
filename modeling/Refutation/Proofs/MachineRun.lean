import Mathlib.Data.List.Sort
import Mathlib.Logic.Function.Basic
import Refutation.Proofs.Rebuild
import Refutation.Reduction.Machine

/-! # A machine runs a cascade

The state of a machine mirrors that of a cascade (`Machine.Mirrors`): its table holds the known
facts, its queue the facts that are pending, and its store shows what is left of each clause in
scope.  The machine visits one clause after the other and takes note of a unit at once, while a
step of the cascade simplifies all clauses before it derives anything; since what a literal makes
of a clause does not depend on what is known meanwhile, both come to the same
(`Visits.finish`).  Clauses that are not visited have neither the literal nor its complement.

So each step of the cascade is one of the machine, without a fault (`Represents.step`), and the
machine halts where the cascade does (`Represents.run`). -/

namespace Refutation.Reduction

open Cascade

/-! ### Checked operations -/

section checked

variable {α β : Type} {store : Array α} {i : Nat} {x : α} {l : Literal}

theorem ok_bind (x : α) (f : α → Except Fault β) : (Except.ok x >>= f) = f x := rfl

theorem exists_of_bind_eq_ok {x : Except Fault α} {f : α → Except Fault β} {b : β}
    (h : (x >>= f) = .ok b) : ∃ a, x = .ok a ∧ f a = .ok b := by
  cases x with
  | error fault => cases h
  | ok a => exact ⟨a, rfl, h⟩

theorem position_of_pos (h : 0 < i) : position i = .ok (i - 1) := by
  cases i with
  | zero => cases h
  | succ i => rfl

theorem entry_of_getElem? (h : store[i]? = some x) : entry store i = .ok x := by
  rw [entry, h]

theorem withEntry_of_lt (h : i < store.size) :
    withEntry store i x = .ok (store.setIfInBounds i x) := if_pos h

theorem complement_of_proper (h : l.Proper) : complement l = .ok (-l) := if_neg h.2

end checked

/-- **A list is gone through without a fault** if each member can be dealt with when those before it
have been; `P` says how far one has got. -/
theorem exists_foldlM_eq_ok {α σ : Type} {f : σ → α → Except Fault σ} (P : List α → σ → Prop)
    {xs : List α} {s : σ} (hstart : P [] s)
    (hstep : ∀ done x rest s, xs = done ++ x :: rest → P done s →
      ∃ s', f s x = .ok s' ∧ P (done ++ [x]) s') :
    ∃ s', xs.foldlM f s = .ok s' ∧ P xs s' := by
  suffices hrest : ∀ rest done s, xs = done ++ rest → P done s →
      ∃ s', rest.foldlM f s = .ok s' ∧ P xs s' from hrest xs [] s rfl hstart
  intro rest
  induction rest with
  | nil =>
      intro done s hsplit hs
      rw [List.append_nil] at hsplit
      exact ⟨s, rfl, hsplit ▸ hs⟩
  | cons x rest ih =>
      intro done s hsplit hs
      obtain ⟨s₁, hx, hs₁⟩ := hstep done x rest s hsplit hs
      obtain ⟨s₂, hrest, hs₂⟩ := ih (done ++ [x]) s₁ (by rw [hsplit, List.append_cons]) hs₁
      exact ⟨s₂, by rw [List.foldlM_cons, hx, ok_bind, hrest], hs₂⟩

theorem unitAfter?_eq_none {r : Residual} {fact : Fact}
    (h : fact.reason ≠ some r.index → -fact.literal ∈ r.literals → fact.literal ∈ r.literals) :
    r.unitAfter? fact = none := by
  rw [Option.eq_none_iff_forall_ne_some]
  intro given hgiven
  obtain ⟨hreason, hmem, hneg, -⟩ := unitAfter?_eq_some_iff.mp hgiven
  exact hmem (h hreason hneg)

/-! ### What a machine shows -/

/-- The working clause shows what is left of the clause at an index. -/
def WorkingClause.Shows (w : WorkingClause) (index : Nat) (left : Option Residual) : Prop :=
  w.status = .satisfied ∧ left = none ∨
    ∃ r, left = some r ∧ r.index = index ∧ r.literals = w.literals ∧
      literalsOf r.removedBy = w.removedBy ∧
      w.status = if r.isShortened then .simplified else .kept

/-- The clause has lost its last literal. -/
def Emptied (left : Option Residual) : Prop :=
  ∃ r, left = some r ∧ r.isShortened = true ∧ r.literals = []

namespace Machine

/-- The state of the machine mirrors the known and pending facts of the cascade `c`, and `left`,
what is left of each clause in scope. -/
structure Mirrors (t : Trace) (scope : List Nat) (assumed : List Literal)
    (left : Nat → Option Residual) (m : Machine) (c : Cascade) : Prop where
  known_iff : ∀ l reason, m.known[l]? = some reason ↔ ⟨l, reason⟩ ∈ c.known
  derived_eq : m.derived = literalsOf (c.known.filter (·.reason.isSome))
  queue_eq : m.queue = literalsOf c.pending
  size_working : m.working.size = t.size
  working : ∀ i ∈ scope, ∃ w, m.working[i - 1]? = some (some w) ∧ w.Shows i (left i)
  conflict_iff : m.conflict.isSome = true ↔ ∃ i ∈ scope, Emptied (left i)
  occurrences_iff : ∀ l i, i ∈ m.occurrences.getD l [] ↔
    i ∈ scope ∧ ∃ d, t.clause? i = some d ∧ l ∈ d.literals
  contradiction_eq : m.contradiction = contradictory assumed

namespace Mirrors

variable {t : Trace} {scope js : List Nat} {assumed : List Literal}
  {left : Nat → Option Residual} {m : Machine} {c c' : Cascade} {fact : Fact} {i : Nat}
  {l : Literal} {w : WorkingClause} {x : Option Residual} {conflict : Option Nat}

theorem mem_known_iff (h : Mirrors t scope assumed left m c) :
    l ∈ m.known ↔ l ∈ literalsOf c.known := by
  rw [← Std.TreeMap.isSome_getElem?_iff_mem, Option.isSome_iff_exists, mem_literalsOf]
  simp only [h.known_iff]
  constructor
  · rintro ⟨reason, hmem⟩
    exact ⟨_, hmem, rfl⟩
  · rintro ⟨fact, hfact, rfl⟩
    exact ⟨fact.reason, hfact⟩

theorem reason?_eq (h : Mirrors t scope assumed left m c) (hfact : fact ∈ c.known) :
    m.reason? fact.literal = fact.reason := by
  rw [reason?, Std.TreeMap.getD_eq_getD_getElem?, (h.known_iff fact.literal fact.reason).mpr hfact]
  rfl

theorem known_iff_insert (h : Mirrors t scope assumed left m c) (hnew : l ∉ m.known)
    (reason : Option Nat) (k : Literal) (reason' : Option Nat) :
    (m.known.insert l reason)[k]? = some reason' ↔ ⟨k, reason'⟩ ∈ c.known ++ [⟨l, reason⟩] := by
  rw [Std.TreeMap.getElem?_insert, List.mem_append, List.mem_singleton, Fact.mk.injEq,
    ← h.known_iff]
  split
  · next heq =>
    obtain rfl : l = k := Std.LawfulEqOrd.eq_of_compare heq
    simp [Std.TreeMap.getElem?_eq_none hnew, eq_comm]
  · next hne =>
    have hlk : k ≠ l := fun heq => hne (heq ▸ Std.ReflOrd.compare_self)
    simp [hlk]

/-! ### Taking note of a unit -/

/-- **The machine derives what the cascade derives.** -/
theorem derive (h : Mirrors t scope assumed left m c) (hproper : l.Proper) (i : Nat) :
    ∃ m', m.derive l i = .ok m' ∧ Mirrors t scope assumed left m' (c.derive ⟨l, some i⟩) := by
  unfold Machine.derive
  split
  · next hknown =>
    rw [derive_of_mem (.inl (h.mem_known_iff.mp hknown))]
    exact ⟨m, rfl, h⟩
  · next hnew =>
    rw [complement_of_proper hproper, ok_bind]
    split
    · next hneg =>
      rw [derive_of_mem (.inr (h.mem_known_iff.mp hneg))]
      exact ⟨m, rfl, h⟩
    · next hfree =>
      rw [h.mem_known_iff] at hnew hfree
      have hknown : (c.derive ⟨l, some i⟩).known = c.known ++ [⟨l, some i⟩] :=
        known_derive hnew hfree
      have hpending : (c.derive ⟨l, some i⟩).pending = c.pending ++ [⟨l, some i⟩] := by
        simpa [Cascade.known, settled_derive] using hknown
      refine ⟨_, rfl, ?_, ?_, ?_, h.size_working, h.working, h.conflict_iff, h.occurrences_iff,
        h.contradiction_eq⟩
      · rw [hknown]
        exact h.known_iff_insert (mt h.mem_known_iff.mp hnew) (some i)
      · simp [hknown, h.derived_eq]
      · simp [hpending, h.queue_eq]

/-! ### Visiting a clause -/

theorem exists_emptied_update (hi : i ∈ scope) (h : ¬Emptied (left i)) :
    (∃ k ∈ scope, Emptied (Function.update left i x k)) ↔
      Emptied x ∨ ∃ k ∈ scope, Emptied (left k) := by
  constructor
  · rintro ⟨k, hk, hemptied⟩
    by_cases hne : k = i
    · rw [hne, Function.update_self] at hemptied
      exact .inl hemptied
    · rw [Function.update_of_ne hne] at hemptied
      exact .inr ⟨k, hk, hemptied⟩
  · rintro (hemptied | ⟨k, hk, hemptied⟩)
    · exact ⟨i, hi, by rwa [Function.update_self]⟩
    · have hne : k ≠ i := fun heq => h (heq ▸ hemptied)
      exact ⟨k, hk, by rwa [Function.update_of_ne hne]⟩

theorem not_emptied {r : Residual} (hl : l ∈ r.literals) : ¬Emptied (some r) := by
  rintro ⟨r', hr', -, hempty⟩
  cases hr'
  rw [hempty] at hl
  cases hl

section visit

variable (h : Mirrors t scope assumed left m c) (hscope : ∀ k ∈ scope, k ∈ t.indices)
include h hscope

theorem replace (hi : i ∈ scope) (hshows : w.Shows i x)
    (hconflict : conflict.isSome = true ↔ ∃ k ∈ scope, Emptied (Function.update left i x k)) :
    Mirrors t scope assumed (Function.update left i x)
      { m with working := m.working.setIfInBounds (i - 1) (some w), conflict := conflict } c := by
  have hbound : ∀ k ∈ scope, 0 < k ∧ k ≤ m.working.size := fun k hk => by
    rw [h.size_working]
    exact Trace.mem_indices.mp (hscope k hk)
  refine ⟨h.known_iff, h.derived_eq, h.queue_eq, ?_, ?_, hconflict, h.occurrences_iff,
    h.contradiction_eq⟩
  · rw [Array.size_setIfInBounds, h.size_working]
  · intro k hk
    rw [Array.getElem?_setIfInBounds]
    have hik := hbound i hi
    have hkk := hbound k hk
    by_cases hne : k = i
    · subst hne
      rw [if_pos rfl, if_pos (by omega), Function.update_self]
      exact ⟨w, rfl, hshows⟩
    · rw [if_neg (by omega), Function.update_of_ne hne]
      exact h.working k hk

theorem shorten {r : Residual} (hi : r.index ∈ scope) (hr : left r.index = some r)
    (hproper : ∀ l ∈ r.literals, l.Proper) (hreason : fact.reason ≠ some r.index)
    (hmem : fact.literal ∉ r.literals) (hneg : -fact.literal ∈ r.literals)
    (hremoved : literalsOf r.removedBy = w.removedBy) :
    ∃ m', heed
        { m with
          working := m.working.setIfInBounds (r.index - 1)
            (some ⟨r.literals.filter (· ≠ -fact.literal), .simplified,
              w.removedBy ++ [fact.literal]⟩) }
        r.index (r.literals.filter (· ≠ -fact.literal)) = .ok m' ∧
      Mirrors t scope assumed (Function.update left r.index (r.after? fact)) m'
        ((r.unitAfter? fact).toList.foldl Cascade.derive c) := by
  have hunit : r.unitAfter? fact = Residual.unit?
      ⟨r.index, r.literals.filter (· ≠ -fact.literal), r.removedBy ++ [fact]⟩ := by
    rw [Residual.unitAfter?, Residual.simplifyBy_of_neg_mem hreason hmem hneg]
  have hsub : ∀ l ∈ r.literals.filter (· ≠ -fact.literal), l ∈ r.literals := fun l hl =>
    (List.mem_filter.mp hl).1
  have hfull := not_emptied hneg
  rw [Residual.after?_of_neg_mem hreason hmem hneg, hunit]
  generalize r.literals.filter (· ≠ -fact.literal) = rest at hsub ⊢
  have hshows : WorkingClause.Shows ⟨rest, .simplified, w.removedBy ++ [fact.literal]⟩ r.index
      (some ⟨r.index, rest, r.removedBy ++ [fact]⟩) :=
    .inr ⟨_, rfl, rfl, rfl, by simp [hremoved], by simp [Residual.isShortened]⟩
  have hreplace : ∀ conflict : Option Nat, (conflict.isSome = true ↔
      Emptied (some ⟨r.index, rest, r.removedBy ++ [fact]⟩) ∨ m.conflict.isSome = true) →
      Mirrors t scope assumed
        (Function.update left r.index (some ⟨r.index, rest, r.removedBy ++ [fact]⟩))
        { m with
          working := m.working.setIfInBounds (r.index - 1)
            (some ⟨rest, .simplified, w.removedBy ++ [fact.literal]⟩)
          conflict := conflict } c := by
    intro conflict hconflict
    refine h.replace hscope hi hshows ?_
    rw [exists_emptied_update hi (hr ▸ hfull), ← h.conflict_iff]
    exact hconflict
  have hkept : ∀ u ∈ rest, (m.conflict.isSome = true ↔
      Emptied (some ⟨r.index, rest, r.removedBy ++ [fact]⟩) ∨ m.conflict.isSome = true) :=
    fun u hu => (or_iff_right (not_emptied hu)).symm
  rcases rest with _ | ⟨u, _ | ⟨v, rest⟩⟩
  · refine ⟨_, rfl, hreplace _ ?_⟩
    simp [Emptied, Residual.isShortened]
  · have hu : u ∈ [u] := List.mem_singleton_self u
    exact (hreplace m.conflict (hkept u hu)).derive (hproper u (hsub u hu)) r.index
  · exact ⟨_, rfl, hreplace m.conflict (hkept u List.mem_cons_self)⟩

/-- **The machine makes of a clause what the cascade makes of it**, and derives the literal that the
clause then gives. -/
theorem visit (hi : i ∈ scope) (hproper : ∀ r, left i = some r → ∀ l ∈ r.literals, l.Proper)
    (fact : Fact) :
    ∃ m', Machine.visit fact.literal (-fact.literal) fact.reason m i = .ok m' ∧
      Mirrors t scope assumed (Function.update left i ((left i).bind (·.after? fact))) m'
        (((left i).bind (·.unitAfter? fact)).toList.foldl Cascade.derive c) := by
  have hpos : 0 < i := (Trace.mem_indices.mp (hscope i hi)).1
  obtain ⟨w, hentry, hshows⟩ := h.working i hi
  have hsame : ∀ x, left i = x → Function.update left i x = left := by
    rintro x rfl
    exact Function.update_eq_self i left
  unfold Machine.visit
  rcases hshows with ⟨hstatus, hnone⟩ | ⟨r, hr, rfl, hliterals, hremoved, hstatus⟩
  · simp only [position_of_pos hpos, ok_bind, hentry, hstatus, if_true, hnone, Option.bind_none,
      hsame none hnone, Option.toList_none, List.foldl_nil]
    exact ⟨m, ite_self _, h⟩
  · simp only [hr, Option.bind_some]
    by_cases hreason : fact.reason = some r.index
    · rw [if_pos hreason, Residual.after?_of_reason hreason, hsame _ hr,
        unitAfter?_eq_none fun hne => (hne hreason).elim]
      exact ⟨m, rfl, h⟩
    have hworked : w.status ≠ .satisfied := by
      rw [hstatus]
      split <;> decide
    simp only [if_neg hreason, position_of_pos hpos, ok_bind, hentry, if_neg hworked,
      simplify_literals, ← hliterals]
    by_cases hmem : fact.literal ∈ r.literals
    · have hunit : r.unitAfter? fact = none := unitAfter?_eq_none fun _ _ => hmem
      simp only [if_pos hmem, Residual.after?_of_mem hreason hmem, hunit]
      refine ⟨_, rfl, h.replace hscope hi (.inl ⟨rfl, rfl⟩) ?_⟩
      rw [exists_emptied_update hi (hr ▸ not_emptied hmem), h.conflict_iff]
      simp [Emptied]
    by_cases hneg : -fact.literal ∈ r.literals
    · simp only [if_neg hmem, if_pos hneg]
      exact h.shorten hscope hi hr (hproper r hr) hreason hmem hneg hremoved
    · have hunit : r.unitAfter? fact = none := unitAfter?_eq_none fun _ hin => (hneg hin).elim
      simp only [if_neg hmem, if_neg hneg, Residual.after?_of_not_mem hmem hneg, hunit, hsame _ hr]
      exact ⟨m, rfl, h⟩

end visit

/-! ### One step -/

theorem mem_touched_iff (h : Mirrors t scope assumed left m c) {l' : Literal} :
    i ∈ m.touched l l' ↔
      i ∈ scope ∧ ∃ d, t.clause? i = some d ∧ (l ∈ d.literals ∨ l' ∈ d.literals) := by
  rw [touched, Std.TreeSet.mem_toList, Std.TreeSet.mem_ofList, List.contains_iff_mem,
    List.mem_append, h.occurrences_iff, h.occurrences_iff]
  constructor
  · rintro (⟨hi, d, hd, hl⟩ | ⟨hi, d, hd, hl⟩)
    · exact ⟨hi, d, hd, .inl hl⟩
    · exact ⟨hi, d, hd, .inr hl⟩
  · rintro ⟨hi, d, hd, hl | hl⟩
    · exact .inl ⟨hi, d, hd, hl⟩
    · exact .inr ⟨hi, d, hd, hl⟩

theorem untouched (h : Mirrors t scope assumed left m c) (hi : i ∈ scope)
    (hleft : ∀ r, left i = some r → ∃ d, t.clause? i = some d ∧ ∀ l ∈ r.literals, l ∈ d.literals)
    (hnot : i ∉ m.touched fact.literal (-fact.literal)) :
    (left i).bind (·.after? fact) = left i ∧ (left i).bind (·.unitAfter? fact) = none := by
  cases hr : left i with
  | none => exact ⟨rfl, rfl⟩
  | some r =>
      obtain ⟨d, hd, hsub⟩ := hleft r hr
      rw [h.mem_touched_iff] at hnot
      have hmem : fact.literal ∉ r.literals := fun hl =>
        hnot ⟨hi, d, hd, .inl (hsub _ hl)⟩
      have hneg : -fact.literal ∉ r.literals := fun hl =>
        hnot ⟨hi, d, hd, .inr (hsub _ hl)⟩
      exact ⟨Residual.after?_of_not_mem hmem hneg, unitAfter?_eq_none fun _ hin => (hneg hin).elim⟩

theorem index_eq (h : Mirrors t scope assumed left m c) (hi : i ∈ scope) {r : Residual}
    (hr : left i = some r) : r.index = i := by
  obtain ⟨w, -, ⟨-, hnone⟩ | ⟨r', hr', hindex, -⟩⟩ := h.working i hi
  · rw [hr] at hnone
    cases hnone
  · rw [hr] at hr'
    cases hr'
    exact hindex

theorem exists_clause {options : Options} {accepted : List Literal}
    (hsound : c.Sound (wholeClauses options t) accepted)
    (hresiduals : c.residuals = scope.filterMap left) (h : Mirrors t scope assumed left m c)
    (hi : i ∈ scope) {r : Residual} (hr : left i = some r) :
    ∃ d, t.clause? i = some d ∧ ∀ l ∈ r.literals, l ∈ d.literals := by
  have hmem : r ∈ c.residuals := hresiduals ▸ List.mem_filterMap.mpr ⟨i, hi, hr⟩
  obtain ⟨d, -, hd, hremnant⟩ := exists_clause_of_mem_residuals hsound hmem
  rw [h.index_eq hi hr] at hd
  exact ⟨d, hd, fun l hl => ((Residual.mem_literals_of_remnant? hremnant).mp hl).1⟩

theorem settle (h : Mirrors t scope assumed left m c) {rest : List Fact}
    (hpending : c.pending = fact :: rest) :
    Mirrors t scope assumed left { m with queue := literalsOf rest } (c.settle fact rest) where
  known_iff l reason := by
    rw [known_settle hpending]
    exact h.known_iff l reason
  derived_eq := by
    rw [known_settle hpending]
    exact h.derived_eq
  queue_eq := rfl
  size_working := h.size_working
  working := h.working
  conflict_iff := h.conflict_iff
  occurrences_iff := h.occurrences_iff
  contradiction_eq := h.contradiction_eq

theorem pairwise_touched (m : Machine) (l l' : Literal) : (m.touched l l').Pairwise (· < ·) :=
  Std.TreeSet.ordered_toList.imp fun hlt => Nat.compare_eq_lt.mp hlt

end Mirrors

theorem filterMap_eq_of_subset {β : Type} {xs ys : List Nat} {f : Nat → Option β}
    (hxs : xs.Pairwise (· < ·)) (hys : ys.Pairwise (· < ·)) (hsub : ∀ x ∈ xs, x ∈ ys)
    (hnone : ∀ y ∈ ys, y ∉ xs → f y = none) : xs.filterMap f = ys.filterMap f := by
  have hfilter : xs = ys.filter (· ∈ xs) := by
    refine hxs.eq_of_mem_iff (hys.filter _) fun x => ?_
    rw [List.mem_filter, decide_eq_true_iff]
    exact ⟨fun hx => ⟨hsub x hx, hx⟩, fun hx => hx.2⟩
  calc xs.filterMap f = (ys.filter (· ∈ xs)).filterMap f := by rw [← hfilter]
    _ = ys.filterMap f := by
      rw [List.filterMap_filter]
      refine List.filterMap_congr fun y hy => ?_
      split
      · rfl
      · next hnot => exact (hnone y hy (by simpa using hnot)).symm

/-- The machine stands where the cascade stands. -/
def Represents (t : Trace) (scope : List Nat) (assumed : List Literal) (m : Machine) (c : Cascade) :
    Prop :=
  ∃ left, c.residuals = scope.filterMap left ∧ Mirrors t scope assumed left m c

namespace Represents

variable {options : Options} {t : Trace} {assumed accepted : List Literal} {m : Machine}
  {c c' : Cascade} {stop : Bool} {scope : List Nat}

theorem isSome_conflict (h : Represents t scope assumed m c) :
    m.conflict.isSome = c.inConflict := by
  obtain ⟨left, hresiduals, hmirrors⟩ := h
  rw [Bool.eq_iff_iff, hmirrors.conflict_iff, inConflict, hresiduals, List.any_eq_true]
  simp only [Emptied, List.mem_filterMap, Bool.and_eq_true, List.isEmpty_iff]
  constructor
  · rintro ⟨i, hi, r, hr, hemptied⟩
    exact ⟨r, ⟨i, hi, hr⟩, hemptied⟩
  · rintro ⟨r, ⟨i, hi, hr⟩, hemptied⟩
    exact ⟨i, hi, r, hr, hemptied⟩

theorem halt (h : Represents t scope assumed m c)
    (hhalt : c.step? = none ∨ stop = true ∧ c.inConflict = true) :
    m.step? stop = .ok none := by
  have hconflict := h.isSome_conflict
  obtain ⟨left, -, hmirrors⟩ := h
  unfold Machine.step?
  rcases hhalt with hhalt | ⟨rfl, hhalt⟩
  · rw [hmirrors.queue_eq, step?_eq_none_iff.mp hhalt]
    rfl
  · rw [hconflict, hhalt]
    cases m.queue <;> rfl

end Represents

/-! ### A step in progress -/

/-- What is left of the clauses when a fact has gone through those at some indices. -/
def leftAfter (left : Nat → Option Residual) (fact : Fact) (done : List Nat) (k : Nat) :
    Option Residual := if k ∈ done then (left k).bind (·.after? fact) else left k

/-- The facts given by the clauses at some indices when a fact goes through them. -/
def unitsAfter (left : Nat → Option Residual) (fact : Fact) (done : List Nat) : List Fact :=
  done.filterMap fun k => (left k).bind (·.unitAfter? fact)

theorem leftAfter_concat (left : Nat → Option Residual) (fact : Fact) (done : List Nat) (j : Nat) :
    leftAfter left fact (done ++ [j]) =
      Function.update (leftAfter left fact done) j ((left j).bind (·.after? fact)) := by
  funext k
  by_cases hk : k = j
  · rw [hk, Function.update_self, leftAfter, if_pos (List.mem_append_right _ List.mem_cons_self)]
  · simp [leftAfter, hk]

theorem unitsAfter_concat (left : Nat → Option Residual) (fact : Fact) (done : List Nat)
    (j : Nat) : unitsAfter left fact (done ++ [j]) =
      unitsAfter left fact done ++ ((left j).bind (·.unitAfter? fact)).toList := by
  rw [unitsAfter, List.filterMap_append, List.filterMap_cons, unitsAfter]
  cases (left j).bind (·.unitAfter? fact) <;> rfl

/-- The machine is about to propagate the first pending fact of the cascade `c` through the clauses
at the indices `todo`, and has propagated it through those at the indices `done`. -/
structure Visits (options : Options) (t : Trace) (assumed accepted : List Literal) (c : Cascade)
    (fact : Fact) (pending : List Fact) (left : Nat → Option Residual) (done todo : List Nat)
    (m : Machine) : Prop where
  sound : c.Sound (wholeClauses options t) accepted
  pending_eq : c.pending = fact :: pending
  residuals_eq : c.residuals = (Reduction.scope options t).filterMap left
  ascending : (done ++ todo).Pairwise (· < ·)
  mem_scope : ∀ k ∈ done ++ todo, k ∈ Reduction.scope options t
  proper : ∀ k ∈ Reduction.scope options t, ∀ r, left k = some r → ∀ l ∈ r.literals, l.Proper
  /-- The clauses that are not visited stay as they are. -/
  untouched : ∀ k ∈ Reduction.scope options t, k ∉ done ++ todo →
    (left k).bind (·.after? fact) = left k ∧ (left k).bind (·.unitAfter? fact) = none
  mirrors : Mirrors t (Reduction.scope options t) assumed (leftAfter left fact done) m
    ((unitsAfter left fact done).foldl Cascade.derive (c.settle fact pending))

section visits

variable {options : Options} {t : Trace} {assumed accepted : List Literal} {m : Machine}
  {c : Cascade} {fact : Fact} {pending : List Fact} {left : Nat → Option Residual}
  {done todo : List Nat} {j : Nat}

theorem Represents.visits (ht : t.WellFormed)
    (hsound : c.Sound (wholeClauses options t) accepted)
    (h : Represents t (Reduction.scope options t) assumed m c)
    (hpending : c.pending = fact :: pending) :
    fact.literal.Proper ∧ m.queue = fact.literal :: literalsOf pending ∧
      m.reason? fact.literal = fact.reason ∧
      ∃ left, Visits options t assumed accepted c fact pending left []
        (m.touched fact.literal (-fact.literal)) { m with queue := literalsOf pending } := by
  obtain ⟨left, hresiduals, hmirrors⟩ := h
  have hfact : fact ∈ c.known := List.mem_append_right _ (hpending ▸ List.mem_cons_self)
  have hclause : ∀ k ∈ Reduction.scope options t, ∀ r, left k = some r →
      ∃ d, t.clause? k = some d ∧ ∀ l ∈ r.literals, l ∈ d.literals := fun k hk r hr =>
    hmirrors.exists_clause hsound hresiduals hk hr
  refine ⟨hsound.grounded.proper _ (literal_mem_literalsOf hfact), ?_, hmirrors.reason?_eq hfact,
    left, hsound, hpending, hresiduals, Mirrors.pairwise_touched m _ _,
    fun k hk => (hmirrors.mem_touched_iff.mp hk).1, fun k hk r hr l hl => ?_,
    fun k hk hnot => hmirrors.untouched hk (hclause k hk) hnot, hmirrors.settle hpending⟩
  · rw [hmirrors.queue_eq, hpending]
    rfl
  · obtain ⟨d, hd, hsub⟩ := hclause k hk r hr
    exact (ht k d hd).proper l (hsub l hl)

/-- **The next clause is visited**, and the machine finds all that it relies on. -/
theorem Visits.next (ht : t.WellFormed)
    (h : Visits options t assumed accepted c fact pending left done (j :: todo) m) :
    ∃ m', m.visit fact.literal (-fact.literal) fact.reason j = .ok m' ∧
      Visits options t assumed accepted c fact pending left (done ++ [j]) todo m' := by
  have hj : j ∈ Reduction.scope options t :=
    h.mem_scope j (List.mem_append_right _ List.mem_cons_self)
  have hnew : j ∉ done := fun hdone =>
    Nat.lt_irrefl j ((List.pairwise_append.mp h.ascending).2.2 j hdone j List.mem_cons_self)
  have hleft : leftAfter left fact done j = left j := if_neg hnew
  obtain ⟨m', hvisit, hmirrors⟩ := h.mirrors.visit (fun k hk => ((mem_scope_iff ht).mp hk).1) hj
    (by rw [hleft]; exact h.proper j hj) fact
  rw [hleft, ← leftAfter_concat, ← List.foldl_append, ← unitsAfter_concat] at hmirrors
  have hsplit : done ++ [j] ++ todo = done ++ j :: todo := by simp
  exact ⟨m', hvisit, h.sound, h.pending_eq, h.residuals_eq, hsplit ▸ h.ascending,
    hsplit ▸ h.mem_scope, h.proper, hsplit ▸ h.untouched, hmirrors⟩

/-- Between two visits the known facts are grounded, and what they leave of the clauses is what the
cascade has left. -/
theorem Visits.sound_derived (ht : t.WellFormed)
    (h : Visits options t assumed accepted c fact pending left done todo m) :
    ((unitsAfter left fact done).foldl Cascade.derive (c.settle fact pending)).Sound
      (wholeClauses options t) accepted := by
  have hwhole := intact_wholeClauses ht options
  refine (h.sound.settle hwhole h.pending_eq).foldl_derive hwhole fun given hgiven => ?_
  obtain ⟨k, hk, hunit⟩ := List.mem_filterMap.mp hgiven
  obtain ⟨r, hr, hunit⟩ := Option.bind_eq_some_iff.mp hunit
  refine h.sound.derivable pending ?_ hunit
  rw [h.residuals_eq]
  exact List.mem_filterMap.mpr ⟨k, h.mem_scope k (List.mem_append_left _ hk), hr⟩

theorem Visits.units_eq (h : Visits options t assumed accepted c fact pending left done [] m) :
    c.residuals.filterMap (·.unitAfter? fact) = unitsAfter left fact done := by
  have hall : done ++ [] = done := List.append_nil done
  rw [h.residuals_eq, List.filterMap_filterMap]
  exact (filterMap_eq_of_subset (hall ▸ h.ascending) (pairwise_lt_scope options t)
    (hall ▸ h.mem_scope) fun k hk hnot => ((hall ▸ h.untouched) k hk hnot).2).symm

theorem Visits.finish (h : Visits options t assumed accepted c fact pending left done [] m) :
    Represents t (Reduction.scope options t) assumed m
      ((unitsAfter left fact done).foldl Cascade.derive (c.settle fact pending)) := by
  refine ⟨leftAfter left fact done, ?_, h.mirrors⟩
  rw [residuals_foldl_derive]
  show c.residuals.filterMap (·.after? fact) = _
  rw [h.residuals_eq, List.filterMap_filterMap]
  refine List.filterMap_congr fun k hk => ?_
  unfold leftAfter
  split
  · rfl
  · next hnot => exact (h.untouched k hk (by rwa [List.append_nil])).1

end visits

/-! ### Steps and runs -/

namespace Represents

variable {options : Options} {t : Trace} {assumed accepted : List Literal} {m : Machine}
  {c c' : Cascade} {stop : Bool}

/-- **A step of the cascade is one of the machine**, and the machine finds all that it relies
on. -/
theorem step (ht : t.WellFormed) (hsound : c.Sound (wholeClauses options t) accepted)
    (h : Represents t (Reduction.scope options t) assumed m c)
    (hgo : stop = true → c.inConflict = false) (hstep : c.step? = some c') :
    ∃ m', m.step? stop = .ok (some m') ∧
      Represents t (Reduction.scope options t) assumed m' c' := by
  have hstop : (stop && m.conflict.isSome) = false := by
    rw [h.isSome_conflict]
    cases stop with
    | false => rfl
    | true => exact hgo rfl
  obtain ⟨fact, pending, hpending, rfl⟩ := exists_of_step hstep
  obtain ⟨hproper, hqueue, hreason, left, hvisits⟩ := h.visits ht hsound hpending
  obtain ⟨m', hvisited, hall⟩ := exists_foldlM_eq_ok
    (f := Machine.visit fact.literal (-fact.literal) fact.reason)
    (fun done m' => ∃ todo, m.touched fact.literal (-fact.literal) = done ++ todo ∧
      Visits options t assumed accepted c fact pending left done todo m')
    ⟨_, rfl, hvisits⟩ fun done j rest m' hsplit ⟨todo, hdone, hm'⟩ => by
      obtain rfl := List.append_cancel_left (hdone.symm.trans hsplit)
      obtain ⟨m'', hvisit, hnext⟩ := hm'.next ht
      exact ⟨m'', hvisit, rest, by simp [hsplit], hnext⟩
  obtain ⟨todo, hdone, hfinished⟩ := hall
  obtain rfl : todo = [] := by simpa using hdone
  refine ⟨m', ?_, hfinished.units_eq ▸ hfinished.finish⟩
  simp only [Machine.step?, hqueue, hstop, Bool.false_eq_true, if_false,
    complement_of_proper hproper, ok_bind, hreason, hvisited]
  rfl

/-- **The machine runs as long as the cascade**, and stands where the cascade stands at the end.  It
takes a step for each fact that the cascade settles. -/
theorem run (ht : t.WellFormed) (hsound : c.Sound (wholeClauses options t) accepted)
    (h : Represents t (Reduction.scope options t) assumed m c) :
    ∃ m', Represents t (Reduction.scope options t) assumed m' (c.run stop) ∧
      ∀ limit, (c.run stop).settled.length < c.settled.length + limit →
        m.run stop limit = .ok (some m') := by
  fun_induction Cascade.run stop c generalizing m with
  | case1 c hstop =>
      rw [Bool.and_eq_true] at hstop
      refine ⟨m, h, fun limit hlimit => ?_⟩
      obtain ⟨limit, rfl⟩ : ∃ n, limit = n + 1 := ⟨limit - 1, by omega⟩
      rw [Machine.run, h.halt (.inr hstop), ok_bind]
      rfl
  | case2 c hstop hnone =>
      refine ⟨m, h, fun limit hlimit => ?_⟩
      obtain ⟨limit, rfl⟩ : ∃ n, limit = n + 1 := ⟨limit - 1, by omega⟩
      rw [Machine.run, h.halt (.inl hnone), ok_bind]
      rfl
  | case3 c hstop c' hstep ih =>
      have hgo : stop = true → c.inConflict = false := by
        rintro rfl
        simpa using hstop
      obtain ⟨m₁, hstep₁, h₁⟩ := h.step ht hsound hgo hstep
      obtain ⟨m', h', hrun⟩ := ih (hsound.step (intact_wholeClauses ht options) hstep) h₁
      refine ⟨m', h', fun limit hlimit => ?_⟩
      obtain ⟨fact, hsettled⟩ := settled_of_step hstep
      have hlength : c'.settled.length = c.settled.length + 1 := by simp [hsettled]
      have hle := (settled_prefix_run stop c').length_le
      obtain ⟨limit, rfl⟩ : ∃ n, limit = n + 1 := ⟨limit - 1, by omega⟩
      rw [Machine.run, hstep₁, ok_bind]
      exact hrun limit (by omega)

end Represents
end Machine
end Refutation.Reduction
