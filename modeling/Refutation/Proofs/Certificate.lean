import Refutation.Proofs.ClosedForm

/-! # The derived literals as a certificate

A reduced trace lists the literals that were derived, each with the unit clause that gave it.  The
list can be checked against the trace reduced and the assumptions, without going through the cascade
again (`ReducedTrace.Certified`): every unit clause is what is left of a clause all of whose other
literals are denied, by assumptions or by literals earlier in the list.  Whatever satisfies the
trace and makes the assumptions true then makes the literals true (`ReducedTrace.Certified.holds`).

That every reduction leaves such a list (`reduce_certified`) rests on the known facts being grounded
and on the clause that gave a literal staying as it is, whatever is propagated afterwards. -/

namespace Refutation

/-! ### Certificates -/

/-- The unit clause recorded for a derived literal is what is left of a clause of `t` that contains
the literal and otherwise only complements of known literals. -/
def ReducedTrace.GivenBy (r : ReducedTrace) (t : Trace) (known : List Literal) (u : Literal)
    (unit? : Option Nat) : Prop :=
  ∃ k i c d, unit? = some k ∧ r.clause? k = some c ∧ c.literals = [u] ∧
    r.origin? k = some (.simplified i) ∧ t.clause? i = some d ∧ u ∈ d.literals ∧
    ∀ l ∈ d.literals, l ≠ u → -l ∈ known

namespace ReducedTrace.GivenBy

variable {r : ReducedTrace} {t : Trace} {known more : List Literal} {u w : Literal}
  {unit? : Option Nat}

theorem mono (h : r.GivenBy t known u unit?) (hsub : ∀ l ∈ known, l ∈ more) :
    r.GivenBy t more u unit? := by
  obtain ⟨k, i, c, d, hk, hc, hunit, horigin, hd, hu, hothers⟩ := h
  exact ⟨k, i, c, d, hk, hc, hunit, horigin, hd, hu, fun l hl hne => hsub _ (hothers l hl hne)⟩

theorem literal_eq (h : r.GivenBy t known u unit?) (h' : r.GivenBy t more w unit?) : u = w := by
  obtain ⟨k, -, c, -, hk, hc, hunit, -⟩ := h
  obtain ⟨k', -, c', -, hk', hc', hunit', -⟩ := h'
  obtain rfl : k = k' := Option.some.inj (hk.symm.trans hk')
  obtain rfl : c = c' := Option.some.inj (hc.symm.trans hc')
  exact (List.cons.inj (hunit.symm.trans hunit')).1

end ReducedTrace.GivenBy

/-- The derived literals of a reduced trace are a certificate of unit propagation in `t` from some
assumptions: none comes twice, or with its complement, or with an assumption about the same atom, no
unit clause is recorded twice, and each is given by its unit clause once those before it are
known. -/
structure ReducedTrace.Certified (r : ReducedTrace) (t : Trace) (assumptions : List Literal) :
    Prop where
  nodup_literals : (r.derived.map Prod.fst).Nodup
  fresh : ∀ u ∈ r.derived.map Prod.fst,
    u ∉ assumptions ∧ -u ∉ assumptions ∧ -u ∉ r.derived.map Prod.fst
  nodup_units : (r.derived.map Prod.snd).Nodup
  given : ∀ (n : Nat) (u : Literal) (unit? : Option Nat), r.derived[n]? = some (u, unit?) →
    r.GivenBy t (assumptions ++ (r.derived.take n).map Prod.fst) u unit?

/-- **A certificate can be relied on**: its literals hold wherever the trace reduced is satisfied
and the assumptions hold. -/
theorem ReducedTrace.Certified.holds {r : ReducedTrace} {t : Trace} {assumptions : List Literal}
    (h : r.Certified t assumptions) (ht : t.WellFormed) {v : Valuation}
    (hassumed : ∀ l ∈ assumptions, Literal.Holds v l) (hsat : ∀ i, t.SatisfiedAt v i) :
    ∀ u ∈ r.derived.map Prod.fst, Literal.Holds v u := by
  have hentry : ∀ (n : Nat) (u : Literal) (unit? : Option Nat),
      r.derived[n]? = some (u, unit?) → Literal.Holds v u := by
    intro n
    induction n using Nat.strongRecOn with
    | ind n ih =>
        intro u unit? hn
        obtain ⟨k, i, c, d, -, -, -, -, hd, -, hothers⟩ := h.given n u unit? hn
        have hknown : ∀ l ∈ assumptions ++ (r.derived.take n).map Prod.fst,
            Literal.Holds v l := by
          intro l hl
          rw [List.mem_append, List.mem_map] at hl
          rcases hl with hl | ⟨entry, hentry, rfl⟩
          · exact hassumed l hl
          · obtain ⟨m, hm⟩ := List.mem_iff_getElem?.mp hentry
            rw [List.getElem?_take] at hm
            split at hm
            · next hlt => exact ih m hlt entry.1 entry.2 hm
            · cases hm
        obtain ⟨l, hl, hholds⟩ := hsat i d hd
        by_cases heq : l = u
        · exact heq ▸ hholds
        · have hdenied := hknown _ (hothers l hl heq)
          rw [Literal.holds_neg ((ht i d hd).proper l hl)] at hdenied
          exact (hdenied hholds).elim
  intro u hu
  obtain ⟨⟨w, unit?⟩, hmem, rfl⟩ := List.mem_map.mp hu
  obtain ⟨n, hn⟩ := List.mem_iff_getElem?.mp hmem
  exact hentry n w unit? hn

namespace Reduction

/-! ### The literals a cascade derived -/

section cascade

variable {link : Bool} {options : Options} {t : Trace} {assumptions assumed : List Literal}
  {c : Cascade} {fact : Fact} {u : Literal} {n : Nat}

theorem accepted_or_neg_accepted (hl : u ∈ assumptions) :
    u ∈ accepted assumptions ∨ -u ∈ accepted assumptions := by
  induction assumptions using List.reverseRecOn with
  | nil => simp at hl
  | append_singleton ls last ih =>
      rw [accepted_concat]
      rw [List.mem_append, List.mem_singleton] at hl
      split
      · next hrefused =>
        cases hl with
        | inl hl => exact ih hl
        | inr hl => exact .inr (hl ▸ hrefused)
      · cases hl with
        | inl hl => exact (ih hl).imp (List.mem_append_left _) (List.mem_append_left _)
        | inr hl => exact .inl (hl ▸ List.mem_append_right _ List.mem_cons_self)

variable (ht : t.WellFormed) (hsound : c.Sound (wholeClauses options t) assumed)
include ht hsound

variable (link assumptions) in
/-- **The clause that gave a literal, before and after**: the unit clause is recorded, and all other
literals of the clause it was left of are denied by what was known before. -/
theorem givenBy_of_known {before after : List Fact} (hknown : c.known = before ++ fact :: after)
    (hreason : fact.reason.isSome) :
    (rebuild link t assumptions c).GivenBy t (literalsOf before) fact.literal
      (fact.reason.bind (number? assumptions c)) := by
  have hfact : fact ∈ c.known := by
    rw [hknown]
    exact List.mem_append_right _ List.mem_cons_self
  obtain ⟨i, hi⟩ := Option.isSome_iff_exists.mp hreason
  obtain ⟨k, r, hstands, rfl, hliterals, hshort⟩ :=
    exists_stands_of_reason assumptions ht hsound hfact hi
  obtain ⟨d, -, hd, -⟩ := exists_clause_of_mem_residuals hsound hstands.mem
  obtain ⟨hwhole, -⟩ := whole_of_mem_residuals hsound hstands.mem hd
  have hgrounded : Grounded (wholeClauses options t) (before ++ [fact]) := by
    apply hsound.grounded.of_isPrefix
    exact ⟨after, by rw [hknown, List.append_assoc, List.singleton_append]⟩
  have hforces := hgrounded.forces_of_gives (intact_wholeClauses ht options) hwhole hi
  have hnumber : number? assumptions c r.index = some k :=
    (number?_eq_some_iff ht hsound).mpr ⟨r, hstands, rfl⟩
  refine ⟨k, r.index, _, d, ?_, clause?_of_stands hstands, hliterals,
    origin?_of_shortened hstands hshort, hd, hforces.mem, hforces.others⟩
  rw [hi, Option.bind_some, hnumber]

variable (link assumptions) in
/-- Each derived literal is given by its unit clause, once the assumptions accepted and the literals
before it are known. -/
theorem givenBy_derived {unit? : Option Nat}
    (hn : (rebuild link t assumptions c).derived[n]? = some (u, unit?)) :
    (rebuild link t assumptions c).GivenBy t
      (assumed ++ ((rebuild link t assumptions c).derived.take n).map Prod.fst) u unit? := by
  obtain ⟨facts, hknown, hsome, hderived⟩ := exists_derived_facts link t assumptions hsound
  rw [hderived, List.getElem?_map, Option.map_eq_some_iff] at hn
  obtain ⟨fact, hfact, heq⟩ := hn
  obtain ⟨rfl, rfl⟩ := Prod.mk.inj heq
  have hsplit : c.known = (assumed.map (⟨·, none⟩) ++ facts.take n) ++
      fact :: facts.drop (n + 1) := by
    obtain ⟨hlt, rfl⟩ := List.getElem?_eq_some_iff.mp hfact
    rw [hknown, List.append_assoc, List.getElem_cons_drop, List.take_append_drop]
  have hearlier : ((rebuild link t assumptions c).derived.take n).map Prod.fst =
      literalsOf (facts.take n) := by
    rw [hderived, ← List.map_take, List.map_map]
    rfl
  have hgave := givenBy_of_known link assumptions ht hsound hsplit
    (hsome fact (List.mem_of_getElem? hfact))
  rwa [literalsOf_append, literalsOf_map_assumed, ← hearlier] at hgave

omit ht in
variable (link assumptions) in
theorem fresh_derived :
    ((rebuild link t assumptions c).derived.map Prod.fst).Nodup ∧
      ∀ u ∈ (rebuild link t assumptions c).derived.map Prod.fst,
        u ∉ assumed ∧ -u ∉ assumed ∧ -u ∉ (rebuild link t assumptions c).derived.map Prod.fst := by
  have hknown := literalsOf_known link t assumptions hsound
  have hnodup := hsound.grounded.nodup
  rw [hknown, List.nodup_append] at hnodup
  refine ⟨hnodup.2.1, fun u hu => ⟨fun hassumed => hnodup.2.2 u hassumed u hu rfl, ?_⟩⟩
  have hneg := hsound.grounded.consistent (hknown ▸ List.mem_append_right assumed hu)
  rwa [hknown, List.mem_append, not_or] at hneg

variable (link assumptions) in
/-- **The derived literals of a rebuilt trace are a certificate** for assumptions of which those
accepted are a part, and of which each was accepted or is the complement of one that was. -/
theorem certified_rebuild {given : List Literal} (hsub : ∀ l ∈ assumed, l ∈ given)
    (hdecided : ∀ l ∈ given, l ∈ assumed ∨ -l ∈ assumed) :
    (rebuild link t assumptions c).Certified t given := by
  obtain ⟨hnodup, hfresh⟩ := fresh_derived link assumptions hsound
  constructor
  case nodup_literals => exact hnodup
  case fresh =>
    intro u hu
    obtain ⟨hmem, hneg, hapart⟩ := hfresh u hu
    refine ⟨fun hgiven => (hdecided u hgiven).elim hmem hneg, fun hgiven => ?_, hapart⟩
    have h := hdecided _ hgiven
    rw [Int32.neg_neg] at h
    exact h.elim hneg hmem
  case nodup_units =>
    refine (List.Nodup.of_map Prod.fst hnodup).map_on fun entry hentry other hother hsame => ?_
    obtain ⟨n, hn⟩ := List.mem_iff_getElem?.mp hentry
    obtain ⟨m, hm⟩ := List.mem_iff_getElem?.mp hother
    have hgave := givenBy_derived link assumptions ht hsound hn
    rw [hsame] at hgave
    exact Prod.ext (hgave.literal_eq (givenBy_derived link assumptions ht hsound hm)) hsame
  case given =>
    intro n u unit? hn
    refine (givenBy_derived link assumptions ht hsound hn).mono fun l hl => ?_
    rw [List.mem_append] at hl ⊢
    exact hl.imp_left (hsub l)

end cascade

/-! ### The certificate of a reduction -/

variable {t : Trace} {assumptions : List Literal}

/-- **The derived literals of a reduction are a certificate of unit propagation**, whatever the
options, also if the assumptions contradict one another or the reduction stops at a conflict. -/
theorem reduce_certified (options : Options) (ht : t.Obtained)
    (hproper : ∀ l ∈ assumptions, l.Proper) :
    ∃ r, t.reduce options assumptions = .ok r ∧ r.Certified t assumptions := by
  have hwf := ht.wellFormed
  refine ⟨_, reduce_eq_ok options t hproper,
    certified_rebuild _ _ hwf (sound_cascade_eraseDups hwf options hproper) ?_ ?_⟩
  · exact fun l hl => List.mem_eraseDups.mp (mem_of_mem_accepted hl)
  · exact fun l hl => accepted_or_neg_accepted (List.mem_eraseDups.mpr hl)

/-- The clauses `1 ∨ 2` and `¬2 ∨ 3`. -/
def chainSample : Trace := ⟨#[⟨[1, 2], []⟩, ⟨[-2, 3], []⟩]⟩

theorem chainSample_obtained : chainSample.Obtained :=
  Trace.obtained_iff_wellFormed.mpr (by decide)

/-- A case of `reduce_certified` with contradictory assumptions, of which `¬1` is accepted: it gives
`2` by the first clause, and `2` gives `3` by the second. -/
theorem reduce_certified_chainSample :
    chainSample.Obtained ∧ (∀ l ∈ ([-1, 1] : List Literal), l.Proper) ∧
      ∃ r, chainSample.reduce .exhaustive [-1, 1] = .ok r ∧
        r.derived = [(2, some 2), (3, some 3)] ∧ r.GivenBy chainSample [-1, 1] 2 (some 2) ∧
        r.GivenBy chainSample [-1, 1, 2] 3 (some 3) := by
  have hproper : ∀ l ∈ ([-1, 1] : List Literal), l.Proper := assumptionFault?_eq_none_iff.mp rfl
  obtain ⟨r, hr, hcertified⟩ := reduce_certified .exhaustive chainSample_obtained hproper
  have hrun : (chainSample.reduce .exhaustive [-1, 1]).map (·.derived) =
      .ok [(2, some 2), (3, some 3)] := by
    decide +kernel
  rw [hr] at hrun
  have hderived : r.derived = [(2, some 2), (3, some 3)] := Except.ok.inj hrun
  have hfirst := hcertified.given 0 2 (some 2) (by rw [hderived]; rfl)
  have hsecond := hcertified.given 1 3 (some 3) (by rw [hderived]; rfl)
  rw [hderived] at hfirst hsecond
  exact ⟨chainSample_obtained, hproper, r, hr, hderived, hfirst, hsecond⟩

end Reduction
end Refutation
