import Mathlib.Data.List.Induction
import Mathlib.Data.List.Nodup
import Refutation.Valuation
import Refutation.Reduction.Cascade

/-! # What facts leave of whole clauses

A cascade simplifies every clause by one fact after the other.  This module gives the outcome of
all the simplifications at once: `Residual.remnant?` is what a list of facts leaves of a whole
clause, and simplifying a remnant by the next fact gives the remnant of the longer list
(`remnant?_concat`).

The closed form holds for lists of facts that are *grounded* (`Grounded`): no literal comes twice
or together with its complement, and a fact that was not assumed is forced by a clause of its own,
the other literals of which are denied by earlier facts.  This is what keeps the unit clause of a
fact as it is while later facts are propagated. -/

namespace Refutation.Reduction

/-! ### Literals and reasons of facts -/

/-- The literals of some facts. -/
def literalsOf (facts : List Fact) : List Literal := facts.map (·.literal)

/-- The indices of the clauses that gave some facts. -/
def reasonsOf (facts : List Fact) : List Nat := facts.filterMap (·.reason)

@[simp]
theorem literalsOf_nil : literalsOf [] = [] := rfl

@[simp]
theorem literalsOf_append (facts more : List Fact) :
    literalsOf (facts ++ more) = literalsOf facts ++ literalsOf more := List.map_append

@[simp]
theorem literalsOf_singleton (fact : Fact) : literalsOf [fact] = [fact.literal] := rfl

theorem literal_mem_literalsOf {facts : List Fact} {fact : Fact} (h : fact ∈ facts) :
    fact.literal ∈ literalsOf facts := List.mem_map_of_mem h

theorem mem_literalsOf {facts : List Fact} {l : Literal} :
    l ∈ literalsOf facts ↔ ∃ fact ∈ facts, fact.literal = l := List.mem_map

@[simp]
theorem reasonsOf_nil : reasonsOf [] = [] := rfl

@[simp]
theorem reasonsOf_append (facts more : List Fact) :
    reasonsOf (facts ++ more) = reasonsOf facts ++ reasonsOf more := List.filterMap_append

theorem mem_reasonsOf {facts : List Fact} {i : Nat} :
    i ∈ reasonsOf facts ↔ ∃ fact ∈ facts, fact.reason = some i := List.mem_filterMap

theorem literalsOf_mono {facts more : List Fact} (h : facts <+: more) {l : Literal}
    (hl : l ∈ literalsOf facts) : l ∈ literalsOf more := by
  obtain ⟨rest, rfl⟩ := h
  rw [literalsOf_append]
  exact List.mem_append_left _ hl

theorem mem_literalsOf_concat {facts : List Fact} {fact : Fact} {l : Literal} :
    l ∈ literalsOf (facts ++ [fact]) ↔ l ∈ literalsOf facts ∨ l = fact.literal := by
  rw [literalsOf_append, literalsOf_singleton, List.mem_append, List.mem_singleton]

theorem forall_literalsOf_concat {facts : List Fact} {fact : Fact} {P : Literal → Prop} :
    (∀ l ∈ literalsOf (facts ++ [fact]), P l) ↔ (∀ l ∈ literalsOf facts, P l) ∧ P fact.literal := by
  simp only [mem_literalsOf_concat, or_imp, forall_and, forall_eq]

theorem neg_ne_self {l : Literal} (h : l.Proper) : -l ≠ l := by
  intro heq
  have hint := congrArg Int32.toInt heq
  rw [Literal.toInt_neg h] at hint
  have hzero : l.toInt = 0 := by omega
  exact h.1 (Int32.toInt_inj.mp hzero)

theorem neg_proper {l : Literal} (h : l.Proper) : (-l).Proper := by
  have hneg := Literal.toInt_neg h
  have hlow := Int32.le_toInt l
  have hhigh := Int32.toInt_lt l
  have hzero : l.toInt ≠ 0 := fun h0 => h.1 (Int32.toInt_inj.mp h0)
  constructor
  · intro h0
    rw [h0, Int32.toInt_zero] at hneg
    omega
  · intro hmin
    have hval : Int32.minValue.toInt = -2147483648 := by decide
    rw [hmin, hval] at hneg
    omega

/-! ### Whole clauses -/

/-- Whole clauses, as a cascade starts with: listed by ascending index, with nothing removed, and
with literals that are proper and distinct. -/
structure Intact (whole : List Residual) : Prop where
  ascending : (whole.map (·.index)).Pairwise (· < ·)
  proper : ∀ r ∈ whole, ∀ l ∈ r.literals, l.Proper
  nodup : ∀ r ∈ whole, r.literals.Nodup
  untouched : ∀ r ∈ whole, r.removedBy = []

theorem eq_of_index_eq {rs : List Residual} (h : (rs.map (·.index)).Pairwise (· < ·))
    {r r' : Residual} (hr : r ∈ rs) (hr' : r' ∈ rs) (heq : r.index = r'.index) : r = r' := by
  have hnodup : (rs.map (·.index)).Nodup := h.imp fun hlt => Nat.ne_of_lt hlt
  exact List.inj_on_of_nodup_map hnodup hr hr' heq

/-- Some facts force a literal of a clause if they deny every other literal of the clause. -/
structure Forces (facts : List Fact) (r : Residual) (u : Literal) : Prop where
  mem : u ∈ r.literals
  size : 2 ≤ r.literals.length
  others : ∀ l ∈ r.literals, l ≠ u → -l ∈ literalsOf facts

section forces

variable {facts more : List Fact} {r : Residual} {u : Literal}

theorem Forces.mono (h : Forces facts r u)
    (hsub : ∀ l ∈ literalsOf facts, l ∈ literalsOf more) : Forces more r u :=
  ⟨h.mem, h.size, fun l hl hne => hsub _ (h.others l hl hne)⟩

theorem Forces.filter_eq (h : Forces facts r u) (hnodup : r.literals.Nodup)
    (hu : -u ∉ literalsOf facts) : r.literals.filter (fun l => -l ∉ literalsOf facts) = [u] := by
  rw [← List.perm_singleton, List.perm_ext_iff_of_nodup (hnodup.filter _) (List.nodup_singleton u)]
  intro l
  rw [List.mem_filter, decide_eq_true_iff, List.mem_singleton]
  constructor
  · rintro ⟨hl, hleft⟩
    by_contra hne
    exact hleft (h.others l hl hne)
  · rintro rfl
    exact ⟨h.mem, hu⟩

theorem Forces.exists_denied (h : Forces facts r u) (hnodup : r.literals.Nodup) :
    ∃ l ∈ r.literals, -l ∈ literalsOf facts := by
  have hone : ¬r.literals ⊆ [u] := by
    intro hsub
    have hlength := hnodup.length_le_of_subset hsub
    have hsize := h.size
    rw [List.length_singleton] at hlength
    omega
  rw [List.subset_def] at hone
  push Not at hone
  obtain ⟨l, hl, hne⟩ := hone
  rw [List.mem_singleton] at hne
  exact ⟨l, hl, h.others l hl hne⟩

end forces

/-! ### Grounded facts -/

/-- Facts that can come about one after the other: each is about a literal of which nothing was
known, and is assumed, or forced by the earlier facts through a clause. -/
inductive Grounded (whole : List Residual) : List Fact → Prop where
  | nil : Grounded whole []
  | snoc {facts : List Fact} {fact : Fact} (h : Grounded whole facts)
      (hproper : fact.literal.Proper) (hnew : fact.literal ∉ literalsOf facts)
      (hfree : -fact.literal ∉ literalsOf facts)
      (hreason : ∀ i, fact.reason = some i →
        ∃ r ∈ whole, r.index = i ∧ Forces facts r fact.literal) :
      Grounded whole (facts ++ [fact])

namespace Grounded

variable {whole : List Residual} {facts more : List Fact} {fact : Fact} {l : Literal}

theorem of_concat (h : Grounded whole (facts ++ [fact])) :
    Grounded whole facts ∧ fact.literal.Proper ∧ fact.literal ∉ literalsOf facts ∧
      -fact.literal ∉ literalsOf facts ∧
      ∀ i, fact.reason = some i → ∃ r ∈ whole, r.index = i ∧ Forces facts r fact.literal := by
  generalize hall : facts ++ [fact] = all at h
  cases h with
  | nil => simp at hall
  | snoc h hproper hnew hfree hreason =>
      obtain ⟨rfl, hfact⟩ := List.append_inj' hall rfl
      cases hfact
      exact ⟨h, hproper, hnew, hfree, hreason⟩

theorem of_append (h : Grounded whole (facts ++ more)) : Grounded whole facts := by
  induction more using List.reverseRecOn with
  | nil => simpa using h
  | append_singleton more fact ih =>
      rw [← List.append_assoc] at h
      exact ih h.of_concat.1

theorem of_isPrefix (h : Grounded whole more) (hpre : facts <+: more) : Grounded whole facts := by
  obtain ⟨rest, rfl⟩ := hpre
  exact h.of_append

theorem proper (h : Grounded whole facts) : ∀ l ∈ literalsOf facts, l.Proper := by
  induction h with
  | nil => simp
  | snoc _ hproper _ _ _ ih => exact forall_literalsOf_concat.mpr ⟨ih, hproper⟩

theorem nodup (h : Grounded whole facts) : (literalsOf facts).Nodup := by
  induction h with
  | nil => exact List.nodup_nil
  | snoc _ _ hnew _ _ ih =>
      rw [literalsOf_append, literalsOf_singleton]
      exact List.nodup_append_comm.mp (List.nodup_cons.mpr ⟨hnew, ih⟩)

theorem eq_of_literal_eq (h : Grounded whole facts) {other : Fact} (hfact : fact ∈ facts)
    (hother : other ∈ facts) (heq : fact.literal = other.literal) : fact = other :=
  List.inj_on_of_nodup_map h.nodup hfact hother heq

theorem consistent (h : Grounded whole facts) (hl : l ∈ literalsOf facts) :
    -l ∉ literalsOf facts := by
  induction h with
  | nil => simp at hl
  | @snoc facts fact h hproper _ hfree _ ih =>
      rw [mem_literalsOf_concat] at hl ⊢
      rintro (hneg | hneg)
      · rcases hl with hl | rfl
        · exact ih hl hneg
        · exact hfree hneg
      · rcases hl with hl | rfl
        · rw [← hneg, Int32.neg_neg] at hfree
          exact hfree hl
        · exact neg_ne_self hproper hneg

theorem forced (h : Grounded whole facts) (hfact : fact ∈ facts) {i : Nat}
    (hi : fact.reason = some i) :
    ∃ r ∈ whole, r.index = i ∧ Forces facts r fact.literal := by
  induction h with
  | nil => simp at hfact
  | @snoc facts last _ _ _ _ hreason ih =>
      have hsub : ∀ l ∈ literalsOf facts, l ∈ literalsOf (facts ++ [last]) :=
        fun l hl => literalsOf_mono (List.prefix_append _ _) hl
      rcases List.mem_append.mp hfact with hfact | hfact
      · obtain ⟨r, hr, hindex, hforces⟩ := ih hfact
        exact ⟨r, hr, hindex, hforces.mono hsub⟩
      · rw [List.mem_singleton] at hfact
        subst hfact
        obtain ⟨r, hr, hindex, hforces⟩ := hreason i hi
        exact ⟨r, hr, hindex, hforces.mono hsub⟩

end Grounded

theorem Forces.mem_of_denied {whole : List Residual} {facts known : List Fact} {fact : Fact}
    {r : Residual} {u : Literal} (h : Forces facts r u) (hknown : Grounded whole known)
    (hfacts : facts <+: known) (hfact : fact ∈ known) (hlost : -fact.literal ∈ r.literals)
    (hne : -fact.literal ≠ u) : fact ∈ facts := by
  have hdenied := h.others _ hlost hne
  rw [Int32.neg_neg] at hdenied
  obtain ⟨fact', hfact', heq⟩ := mem_literalsOf.mp hdenied
  obtain rfl : fact' = fact := hknown.eq_of_literal_eq (hfacts.subset hfact') hfact heq
  exact hfact'

/-! ### Remnants -/

namespace Residual

/-- Whether no literal of a clause is known. -/
def isOpen (facts : List Fact) (r : Residual) : Bool :=
  r.literals.all fun l => decide (l ∉ literalsOf facts)

/-- What some facts leave of a whole clause.  The clause that gave one of the facts stays;
any other clause that contains a known literal is gone.  What stays loses the literals of which the
complement is known. -/
def remnant? (facts : List Fact) (r : Residual) : Option Residual :=
  if r.index ∈ reasonsOf facts ∨ r.isOpen facts = true then
    some ⟨r.index, r.literals.filter (fun l => -l ∉ literalsOf facts),
      facts.filter (fun fact => -fact.literal ∈ r.literals)⟩
  else none

variable {facts : List Fact} {fact : Fact} {r r' : Residual} {l : Literal}

theorem isOpen_iff : r.isOpen facts = true ↔ ∀ l ∈ r.literals, l ∉ literalsOf facts := by
  simp [isOpen]

theorem remnant?_eq_some_iff :
    r.remnant? facts = some r' ↔
      (r.index ∈ reasonsOf facts ∨ ∀ l ∈ r.literals, l ∉ literalsOf facts) ∧
        ⟨r.index, r.literals.filter (fun l => -l ∉ literalsOf facts),
          facts.filter (fun fact => -fact.literal ∈ r.literals)⟩ = r' := by
  rw [← isOpen_iff]
  unfold remnant?
  split
  · next h => simp [h]
  · next h => simp [h]

theorem index_of_remnant? (h : r.remnant? facts = some r') : r'.index = r.index := by
  rw [remnant?_eq_some_iff] at h
  rw [← h.2]

theorem literals_of_remnant? (h : r.remnant? facts = some r') :
    r'.literals = r.literals.filter (fun l => -l ∉ literalsOf facts) := by
  rw [remnant?_eq_some_iff] at h
  rw [← h.2]

theorem mem_literals_of_remnant? (h : r.remnant? facts = some r') :
    l ∈ r'.literals ↔ l ∈ r.literals ∧ -l ∉ literalsOf facts := by
  rw [literals_of_remnant? h, List.mem_filter, decide_eq_true_iff]

theorem remnant?_eq_none_iff :
    r.remnant? facts = none ↔
      r.index ∉ reasonsOf facts ∧ ∃ l ∈ r.literals, l ∈ literalsOf facts := by
  unfold remnant?
  split
  · next h =>
    rw [isOpen_iff] at h
    constructor
    · intro hnone
      cases hnone
    · rintro ⟨hreason, l, hl, hknown⟩
      rcases h with h | h
      · exact (hreason h).elim
      · exact (h l hl hknown).elim
  · next h =>
    rw [isOpen_iff, not_or] at h
    exact ⟨fun _ => ⟨h.1, by simpa using h.2⟩, fun _ => rfl⟩

theorem remnant?_nil (h : r.removedBy = []) : r.remnant? [] = some r := by
  rw [remnant?_eq_some_iff]
  refine ⟨.inr fun l _ => by simp, ?_⟩
  cases r
  cases h
  simp

theorem isShortened_of_remnant? (h : r.remnant? facts = some r') :
    r'.isShortened = true ↔ ∃ l ∈ r.literals, -l ∈ literalsOf facts := by
  rw [remnant?_eq_some_iff] at h
  rw [← h.2]
  simp only [isShortened, Bool.not_eq_true', List.isEmpty_eq_false_iff_exists_mem,
    List.mem_filter, decide_eq_true_iff, mem_literalsOf]
  constructor
  · rintro ⟨fact, hfact, hneg⟩
    exact ⟨-fact.literal, hneg, fact, hfact, Int32.neg_neg.symm⟩
  · rintro ⟨l, hl, fact, hfact, heq⟩
    refine ⟨fact, hfact, ?_⟩
    rw [heq, Int32.neg_neg]
    exact hl

theorem exists_remnant_of_forces {u : Literal} (h : Forces facts r u) (hnodup : r.literals.Nodup)
    (hu : -u ∉ literalsOf facts)
    (hstay : r.index ∈ reasonsOf facts ∨ ∀ l ∈ r.literals, l ∉ literalsOf facts) :
    ∃ r', r.remnant? facts = some r' ∧ r'.literals = [u] ∧ r'.isShortened = true := by
  obtain ⟨r', hr'⟩ : ∃ r', r.remnant? facts = some r' :=
    ⟨_, remnant?_eq_some_iff.mpr ⟨hstay, rfl⟩⟩
  refine ⟨r', hr', ?_, ?_⟩
  · rw [literals_of_remnant? hr']
    exact h.filter_eq hnodup hu
  · rw [isShortened_of_remnant? hr']
    exact h.exists_denied hnodup

/-! ### One fact more -/

theorem after?_of_reason (h : fact.reason = some r.index) : r.after? fact = some r := by
  unfold after? simplifyBy
  rw [if_pos h]
  rfl

theorem after?_of_not_mem (h : fact.literal ∉ r.literals) (hneg : -fact.literal ∉ r.literals) :
    r.after? fact = some r := by
  unfold after? simplifyBy
  by_cases hreason : fact.reason = some r.index
  · rw [if_pos hreason]
    rfl
  · rw [if_neg hreason, simplify_literals, if_neg h, if_neg hneg]
    rfl

theorem after?_of_mem (hreason : fact.reason ≠ some r.index) (h : fact.literal ∈ r.literals) :
    r.after? fact = none := by
  unfold after? simplifyBy
  rw [if_neg hreason, simplify_literals, if_pos h]
  rfl

theorem simplifyBy_of_neg_mem (hreason : fact.reason ≠ some r.index)
    (h : fact.literal ∉ r.literals) (hneg : -fact.literal ∈ r.literals) :
    r.simplifyBy fact = .shortened
      ⟨r.index, r.literals.filter (· ≠ -fact.literal), r.removedBy ++ [fact]⟩ := by
  unfold simplifyBy
  rw [if_neg hreason, simplify_literals, if_neg h, if_pos hneg]

theorem after?_of_neg_mem (hreason : fact.reason ≠ some r.index)
    (h : fact.literal ∉ r.literals) (hneg : -fact.literal ∈ r.literals) :
    r.after? fact =
      some ⟨r.index, r.literals.filter (· ≠ -fact.literal), r.removedBy ++ [fact]⟩ := by
  unfold after?
  rw [simplifyBy_of_neg_mem hreason h hneg]
  rfl

theorem eq_or_shortened_of_after? (h : r.after? fact = some r') :
    r' = r ∨ fact.reason ≠ some r.index ∧ fact.literal ∉ r.literals ∧ -fact.literal ∈ r.literals ∧
      r' = ⟨r.index, r.literals.filter (· ≠ -fact.literal), r.removedBy ++ [fact]⟩ := by
  by_cases hreason : fact.reason = some r.index
  · rw [after?_of_reason hreason] at h
    exact .inl (Option.some.inj h).symm
  by_cases hmem : fact.literal ∈ r.literals
  · rw [after?_of_mem hreason hmem] at h
    cases h
  by_cases hneg : -fact.literal ∈ r.literals
  · rw [after?_of_neg_mem hreason hmem hneg] at h
    exact .inr ⟨hreason, hmem, hneg, (Option.some.inj h).symm⟩
  · rw [after?_of_not_mem hmem hneg] at h
    exact .inl (Option.some.inj h).symm

theorem filter_concat (ls : List Literal) (facts : List Fact) (fact : Fact) :
    ls.filter (fun l => -l ∉ literalsOf (facts ++ [fact])) =
      (ls.filter (fun l => -l ∉ literalsOf facts)).filter (· ≠ -fact.literal) := by
  rw [List.filter_filter]
  apply List.filter_congr
  intro l _
  have hflip : -l = fact.literal ↔ l = -fact.literal := by
    constructor
    · intro h
      rw [← h, Int32.neg_neg]
    · intro h
      rw [h, Int32.neg_neg]
  rw [Bool.eq_iff_iff, Bool.and_eq_true]
  simp only [decide_eq_true_iff, literalsOf_append, literalsOf_singleton, List.mem_append,
    List.mem_singleton, hflip, not_or, ne_eq]
  exact and_comm

theorem filter_concat_of_not_mem {ls : List Literal} (h : -fact.literal ∉ ls) :
    ls.filter (fun l => -l ∉ literalsOf (facts ++ [fact])) =
      ls.filter (fun l => -l ∉ literalsOf facts) := by
  rw [filter_concat, List.filter_eq_self]
  intro l hl
  rw [decide_eq_true_iff]
  rintro rfl
  exact h (List.mem_of_mem_filter hl)

theorem remnant?_concat_of_not_mem (hneg : -fact.literal ∉ r.literals)
    (h : r.remnant? facts = some r')
    (hstay : r.index ∈ reasonsOf (facts ++ [fact]) ∨
      ∀ l ∈ r.literals, l ∉ literalsOf (facts ++ [fact])) :
    r.remnant? (facts ++ [fact]) = some r' := by
  rw [remnant?_eq_some_iff] at h ⊢
  refine ⟨hstay, ?_⟩
  rw [← h.2, filter_concat_of_not_mem hneg, List.filter_append]
  simp [hneg]

end Residual

/-! ### Simplifying a remnant -/

section intact

variable {whole : List Residual} (hwhole : Intact whole) {facts : List Fact} {fact : Fact}
  {r r' : Residual} {l : Literal}
include hwhole

theorem Grounded.forces_of_reason (h : Grounded whole facts) (hfact : fact ∈ facts) (hr : r ∈ whole)
    (hreason : fact.reason = some r.index) : Forces facts r fact.literal := by
  obtain ⟨r₀, hr₀, hindex, hforces⟩ := h.forced hfact hreason
  rwa [eq_of_index_eq hwhole.ascending hr₀ hr hindex] at hforces

/-- The next fact meets neither its literal nor the complement in a clause that gave a fact. -/
theorem Grounded.not_mem_of_reason (h : Grounded whole (facts ++ [fact])) (hr : r ∈ whole)
    (hreason : r.index ∈ reasonsOf facts) :
    -fact.literal ∉ r.literals ∧
      ∀ l ∈ r.literals, -l ∉ literalsOf facts → l ≠ fact.literal := by
  obtain ⟨hfacts, -, hnew, hfree, -⟩ := h.of_concat
  obtain ⟨given, hgiven, heq⟩ := mem_reasonsOf.mp hreason
  have hforces := hfacts.forces_of_reason hwhole hgiven hr heq
  constructor
  · intro hneg
    by_cases hg : -fact.literal = given.literal
    · rw [hg] at hfree
      exact hfree (literal_mem_literalsOf hgiven)
    · have hdenied := hforces.others _ hneg hg
      rw [Int32.neg_neg] at hdenied
      exact hnew hdenied
  · rintro l hl hleft rfl
    by_cases hg : fact.literal = given.literal
    · rw [hg] at hnew
      exact hnew (literal_mem_literalsOf hgiven)
    · exact hleft (hforces.others _ hl hg)

theorem Grounded.forces_of_gives (h : Grounded whole (facts ++ [fact])) (hr : r ∈ whole)
    (hreason : fact.reason = some r.index) : Forces facts r fact.literal := by
  obtain ⟨-, -, -, -, hgives⟩ := h.of_concat
  obtain ⟨r₀, hr₀, hindex, hforces⟩ := hgives _ hreason
  rwa [eq_of_index_eq hwhole.ascending hr₀ hr hindex] at hforces

theorem Grounded.not_mem_of_gives (h : Grounded whole (facts ++ [fact])) (hr : r ∈ whole)
    (hreason : fact.reason = some r.index) :
    -fact.literal ∉ r.literals ∧ ∀ l ∈ r.literals, l ∉ literalsOf facts := by
  obtain ⟨hfacts, hproper, hnew, -, -⟩ := h.of_concat
  have hforces := h.forces_of_gives hwhole hr hreason
  constructor
  · intro hneg
    have hdenied := hforces.others _ hneg (neg_ne_self hproper)
    rw [Int32.neg_neg] at hdenied
    exact hnew hdenied
  · intro l hl hknown
    by_cases hlu : l = fact.literal
    · exact hnew (hlu ▸ hknown)
    · exact hfacts.consistent hknown (hforces.others l hl hlu)

theorem Grounded.neg_not_mem_of_reason (h : Grounded whole facts) (hfact : fact ∈ facts)
    (hr : r ∈ whole) (hreason : fact.reason = some r.index) : -fact.literal ∉ r.literals := by
  obtain ⟨before, after, rfl⟩ := List.append_of_mem hfact
  have hlast : Grounded whole (before ++ [fact]) := by
    apply h.of_isPrefix
    exact ⟨after, by rw [List.append_assoc, List.singleton_append]⟩
  exact (hlast.not_mem_of_gives hwhole hr hreason).1

namespace Residual

/-- The clause gave an earlier fact, and is the unit clause of that fact. -/
theorem remnant?_concat_of_mem_reasonsOf (h : Grounded whole (facts ++ [fact])) (hr : r ∈ whole)
    (hreason : r.index ∈ reasonsOf facts) :
    (r.remnant? facts).bind (·.after? fact) = r.remnant? (facts ++ [fact]) := by
  obtain ⟨hneg, hleft⟩ := h.not_mem_of_reason hwhole hr hreason
  obtain ⟨r', hr'⟩ : ∃ r', r.remnant? facts = some r' :=
    ⟨_, remnant?_eq_some_iff.mpr ⟨.inl hreason, rfl⟩⟩
  have hstay : r.index ∈ reasonsOf (facts ++ [fact]) := by
    rw [reasonsOf_append]
    exact List.mem_append_left _ hreason
  rw [hr', remnant?_concat_of_not_mem hneg hr' (.inl hstay), Option.bind_some]
  apply after?_of_not_mem
  · intro hmem
    rw [mem_literals_of_remnant? hr'] at hmem
    exact hleft _ hmem.1 hmem.2 rfl
  · intro hmem
    exact hneg ((mem_literals_of_remnant? hr').mp hmem).1

/-- The clause gives the next fact. -/
theorem remnant?_concat_of_gives (h : Grounded whole (facts ++ [fact])) (hr : r ∈ whole)
    (hgives : fact.reason = some r.index) :
    (r.remnant? facts).bind (·.after? fact) = r.remnant? (facts ++ [fact]) := by
  obtain ⟨hneg, hnone⟩ := h.not_mem_of_gives hwhole hr hgives
  obtain ⟨r', hr'⟩ : ∃ r', r.remnant? facts = some r' :=
    ⟨_, remnant?_eq_some_iff.mpr ⟨.inr hnone, rfl⟩⟩
  have hstay : r.index ∈ reasonsOf (facts ++ [fact]) :=
    mem_reasonsOf.mpr ⟨fact, by simp, hgives⟩
  rw [hr', remnant?_concat_of_not_mem hneg hr' (.inl hstay), Option.bind_some]
  rw [← index_of_remnant? hr'] at hgives
  exact after?_of_reason hgives

omit hwhole in
/-- The clause gives none of the facts: satisfied clauses go, others lose what is denied. -/
theorem remnant?_concat_of_not_mem_reasonsOf (h : Grounded whole (facts ++ [fact]))
    (hreason : r.index ∉ reasonsOf (facts ++ [fact])) :
    (r.remnant? facts).bind (·.after? fact) = r.remnant? (facts ++ [fact]) := by
  obtain ⟨-, -, hnew, hfree, -⟩ := h.of_concat
  have hbefore : r.index ∉ reasonsOf facts := fun hmem =>
    hreason (reasonsOf_append _ _ ▸ List.mem_append_left _ hmem)
  have hgives : fact.reason ≠ some r.index := fun heq =>
    hreason (mem_reasonsOf.mpr ⟨fact, by simp, heq⟩)
  cases hr' : r.remnant? facts with
  | none =>
      obtain ⟨-, l, hl, hknown⟩ := remnant?_eq_none_iff.mp hr'
      symm
      rw [Option.bind_none, remnant?_eq_none_iff]
      refine ⟨hreason, l, hl, ?_⟩
      rw [literalsOf_append]
      exact List.mem_append_left _ hknown
  | some r' =>
      have hopen := (remnant?_eq_some_iff.mp hr').1.resolve_left hbefore
      rw [← index_of_remnant? hr'] at hgives
      rw [Option.bind_some]
      by_cases hsat : fact.literal ∈ r.literals
      · have hsat' : fact.literal ∈ r'.literals :=
          (mem_literals_of_remnant? hr').mpr ⟨hsat, hfree⟩
        rw [after?_of_mem hgives hsat']
        symm
        rw [remnant?_eq_none_iff]
        exact ⟨hreason, fact.literal, hsat, by simp⟩
      · have hsat' : fact.literal ∉ r'.literals := fun hmem =>
          hsat ((mem_literals_of_remnant? hr').mp hmem).1
        have hopen' : ∀ l ∈ r.literals, l ∉ literalsOf (facts ++ [fact]) := by
          intro l hl
          rw [mem_literalsOf_concat, not_or]
          exact ⟨hopen l hl, fun hmem => hsat (hmem ▸ hl)⟩
        by_cases hneg : -fact.literal ∈ r.literals
        · have hneg' : -fact.literal ∈ r'.literals := by
            rw [mem_literals_of_remnant? hr', Int32.neg_neg]
            exact ⟨hneg, hnew⟩
          rw [after?_of_neg_mem hgives hsat' hneg']
          symm
          rw [remnant?_eq_some_iff] at hr' ⊢
          refine ⟨.inr hopen', ?_⟩
          rw [← hr'.2, filter_concat, List.filter_append]
          simp [hneg]
        · rw [remnant?_concat_of_not_mem hneg hr' (.inr hopen')]
          apply after?_of_not_mem hsat'
          intro hmem
          exact hneg ((mem_literals_of_remnant? hr').mp hmem).1

/-- **Simplifying a remnant by the next fact gives the next remnant.** -/
theorem remnant?_concat (h : Grounded whole (facts ++ [fact])) (hr : r ∈ whole) :
    (r.remnant? facts).bind (·.after? fact) = r.remnant? (facts ++ [fact]) := by
  by_cases hreason : r.index ∈ reasonsOf (facts ++ [fact])
  · rw [reasonsOf_append, List.mem_append] at hreason
    rcases hreason with hreason | hreason
    · exact remnant?_concat_of_mem_reasonsOf hwhole h hr hreason
    · obtain ⟨last, hlast, hgives⟩ := mem_reasonsOf.mp hreason
      rw [List.mem_singleton] at hlast
      exact remnant?_concat_of_gives hwhole h hr (hlast ▸ hgives)
  · exact remnant?_concat_of_not_mem_reasonsOf h hreason

end Residual

theorem filterMap_remnant?_concat (h : Grounded whole (facts ++ [fact])) :
    (whole.filterMap (·.remnant? facts)).filterMap (·.after? fact) =
      whole.filterMap (·.remnant? (facts ++ [fact])) := by
  rw [List.filterMap_filterMap]
  exact List.filterMap_congr fun r hr => Residual.remnant?_concat hwhole h hr

end intact

end Refutation.Reduction
