import Refutation.Proofs.ClosedForm
import Refutation.Proofs.MachineReduce
import Refutation.Reduction.Execution

/-! # The loop of propagation

An execution goes through the states of a machine one operation at a time, and where it halts, the
machine is as `Machine.propagate` leaves it (`Execution.exists_halted_of_propagate`).

In every state between, the machine mirrors a cascade whose facts are grounded, and the record of
the queue lists the known facts and the settled ones (`Execution.Sound`).  One lemma says that each
operation can be done and keeps this (`Sound.step`), and so it holds of all states that are reached
(`Sound.of_reaches`).  The rest is read off the cascade (`Mirroring.inOrder`): its facts have
different literals, no two of which are complements, and different reasons.  As there are no more
reasons than clauses in scope, no more literals are propagated than there are assumptions and
clauses (`Cascade.Sound.length_known_le`). -/

namespace Refutation

namespace Reduction

/-- **There are no more known facts than assumptions and clauses**, as no clause is the reason of
two. -/
theorem Cascade.Sound.length_known_le {whole : List Residual} {assumed : List Literal} {c : Cascade}
    (hwhole : Intact whole) (h : c.Sound whole assumed) :
    c.known.length ≤ assumed.length + whole.length := by
  obtain ⟨derived, heq, hsome⟩ := h.known_eq
  have hsub : derived.Sublist c.known := heq ▸ List.sublist_append_right _ _
  have hnodup : derived.Nodup := .of_map _ (h.grounded.nodup.sublist (hsub.map _))
  have hreasons : (derived.map (·.reason)).Nodup := by
    refine hnodup.map_on fun fact hfact other hother hsame => ?_
    obtain ⟨i, hi⟩ := Option.isSome_iff_exists.mp (hsome fact hfact)
    have hliteral := h.grounded.literal_eq_of_reason hwhole (hsub.subset hother)
      (hsub.subset hfact) (hsame ▸ hi) hi
    cases fact
    cases other
    exact Fact.mk.injEq .. ▸ ⟨hliteral, hsame⟩
  have hclauses : derived.map (·.reason) ⊆ whole.map fun r => some r.index := by
    intro reason hreason
    obtain ⟨fact, hfact, rfl⟩ := List.mem_map.mp hreason
    obtain ⟨i, hi⟩ := Option.isSome_iff_exists.mp (hsome fact hfact)
    obtain ⟨r, hr, rfl, -⟩ := h.grounded.forced (hsub.subset hfact) hi
    exact List.mem_map.mpr ⟨r, hr, hi.symm⟩
  have hle := hreasons.length_le_of_subset hclauses
  rw [List.length_map, List.length_map] at hle
  rw [heq, List.length_append, List.length_map]
  exact Nat.add_le_add_left hle _

theorem Cascade.Sound.length_settled_le {options : Options} {t : Trace} {ls : List Literal}
    {c : Cascade} (ht : t.WellFormed) (h : c.Sound (wholeClauses options t) (accepted ls)) :
    c.settled.length ≤ ls.length + (scope options t).length := by
  calc c.settled.length ≤ c.known.length := by
        rw [Cascade.known, List.length_append]
        exact Nat.le_add_right _ _
    _ ≤ (accepted ls).length + (wholeClauses options t).length :=
        h.length_known_le (intact_wholeClauses ht options)
    _ ≤ ls.length + (scope options t).length :=
        Nat.add_le_add (accepted_sublist ls).length_le (List.length_filterMap_le _ _)

namespace Execution

variable {stop : Bool} {e e' e'' : Execution} {m m' : Machine}

/-! ### From operation to operation -/

theorem Reaches.trans (h : Reaches stop e e') (h' : Reaches stop e' e'') : Reaches stop e e'' := by
  induction h' with
  | refl => exact h
  | tail _ hstep ih => exact .tail ih hstep

/-! One lemma for each kind of operation. -/

section operations

variable {l l' : Literal} {rest : List Literal} {reason : Option Nat} {j : Nat} {js : List Nat}

theorem step?_assuming (hstage : e.stage = .assuming (l :: rest))
    (h : e.machine.assume l = .ok m) :
    e.step? stop = .ok (some (e.proceed m (.assuming rest))) := by
  simp only [step?, hstage, h, ok_bind]
  rfl

theorem step?_visiting (hstage : e.stage = .visiting l l' reason (j :: js))
    (h : e.machine.visit l l' reason j = .ok m) :
    e.step? stop = .ok (some (e.proceed m (.visiting l l' reason js))) := by
  simp only [step?, hstage, h, ok_bind]
  rfl

theorem step?_popping (hstage : e.stage = .popping) (hqueue : e.machine.queue = l :: rest)
    (hgo : ¬(stop && e.machine.conflict.isSome) = true) (hl' : complement l = .ok l') :
    e.step? stop = .ok (some ⟨{ e.machine with queue := rest },
      .visiting l l' (e.machine.reason? l) (e.machine.touched l l'), e.entered,
      e.popped ++ [l]⟩) := by
  simp only [step?, hstage, hqueue, hgo, hl', ok_bind]
  rfl

theorem step?_stopping (hstage : e.stage = .popping) (hqueue : e.machine.queue = l :: rest)
    (hstop : (stop && e.machine.conflict.isSome) = true) :
    e.step? stop = .ok (some ⟨{ e.machine with queue := rest }, .halted, e.entered,
      e.popped ++ [l]⟩) := by
  simp only [step?, hstage, hqueue, hstop, if_true]

end operations

variable (stop) in
theorem exists_reaches_of_foldlM {α : Type} {f : Machine → α → Except Fault Machine}
    {stage : List α → Stage}
    (hstep : ∀ (e : Execution) x rest m, e.stage = stage (x :: rest) → f e.machine x = .ok m →
      e.step? stop = .ok (some (e.proceed m (stage rest))))
    {xs : List α} (hstage : e.stage = stage xs) (h : xs.foldlM f e.machine = .ok m) :
    ∃ e', Reaches stop e e' ∧ e'.machine = m ∧ e'.stage = stage [] := by
  induction xs generalizing e with
  | nil => exact ⟨e, .refl, Except.ok.inj h, hstage⟩
  | cons x xs ih =>
      rw [List.foldlM_cons] at h
      obtain ⟨m₁, hx, hrest⟩ := exists_of_bind_eq_ok h
      obtain ⟨e', hreach, hend⟩ := ih (e := e.proceed m₁ (stage xs)) rfl hrest
      exact ⟨e', (Reaches.tail .refl (hstep e x xs m₁ hstage hx)).trans hreach, hend⟩

/-- **A step of the machine is some operations of an execution**, that take a literal from the queue
and visit the clauses it occurs in. -/
theorem exists_reaches_of_step (hstage : e.stage = .popping)
    (h : e.machine.step? stop = .ok (some m)) :
    ∃ e', Reaches stop e e' ∧ e'.machine = m ∧ e'.stage = .popping := by
  unfold Machine.step? at h
  split at h
  · cases h
  · next l rest hqueue =>
    split at h
    · cases h
    · next hgo =>
      obtain ⟨l', hl', h⟩ := exists_of_bind_eq_ok h
      obtain ⟨m₁, hvisited, h⟩ := exists_of_bind_eq_ok h
      obtain rfl : m₁ = m := Option.some.inj (Except.ok.inj h)
      have hpop := step?_popping hstage hqueue hgo hl'
      obtain ⟨e', hreach, hmachine, hstage'⟩ := exists_reaches_of_foldlM stop
        (e := ⟨_, .visiting l l' _ _, e.entered, e.popped ++ [l]⟩)
        (fun _ _ _ _ => step?_visiting) rfl hvisited
      refine ⟨{ e' with stage := .popping }, .tail ((Reaches.tail .refl hpop).trans hreach) ?_,
        hmachine, rfl⟩
      simp only [step?, hstage']

/-- An execution halts where the machine does, and may take one literal more from the queue. -/
theorem exists_halted_of_step (hstage : e.stage = .popping)
    (h : e.machine.step? stop = .ok none) :
    ∃ e', Reaches stop e e' ∧ e'.stage = .halted ∧
      { e'.machine with queue := e.machine.queue } = e.machine := by
  unfold Machine.step? at h
  split at h
  · next hqueue =>
    refine ⟨{ e with stage := .halted }, .tail .refl ?_, rfl, rfl⟩
    simp only [step?, hstage, hqueue]
  · next l rest hqueue =>
    split at h
    · next hstop => exact ⟨_, .tail .refl (step?_stopping hstage hqueue hstop), rfl, rfl⟩
    · obtain ⟨l', -, h⟩ := exists_of_bind_eq_ok h
      obtain ⟨m₁, -, h⟩ := exists_of_bind_eq_ok h
      cases h

theorem exists_halted_of_run {limit : Nat} (hstage : e.stage = .popping)
    (h : e.machine.run stop limit = .ok (some m)) :
    ∃ e', Reaches stop e e' ∧ e'.stage = .halted ∧ { e'.machine with queue := m.queue } = m := by
  induction limit generalizing e with
  | zero => cases h
  | succ limit ih =>
      rw [Machine.run] at h
      obtain ⟨next?, hstep, h⟩ := exists_of_bind_eq_ok h
      cases next? with
      | none =>
          obtain rfl : e.machine = m := Option.some.inj (Except.ok.inj h)
          exact exists_halted_of_step hstage hstep
      | some m₁ =>
          obtain ⟨e₁, hreach, rfl, hstage₁⟩ := exists_reaches_of_step hstage hstep
          obtain ⟨e', hreach', hend⟩ := ih hstage₁ h
          exact ⟨e', hreach.trans hreach', hend⟩

/-- **Where an execution halts, the machine is as it is after its propagation**, but for the queue:
at a conflict, the execution has taken one literal more from it. -/
theorem exists_halted_of_propagate {limit : Nat} (hstage : e.stage = .assuming [])
    (h : e.machine.propagate stop limit = .ok (some m)) :
    ∃ e', Reaches stop e e' ∧ e'.stage = .halted ∧ { e'.machine with queue := m.queue } = m := by
  unfold Machine.propagate at h
  split at h
  · next hstop =>
    obtain rfl : e.machine = m := Option.some.inj (Except.ok.inj h)
    refine ⟨{ e with stage := .halted }, .tail .refl ?_, rfl, rfl⟩
    simp only [step?, hstage, hstop, if_true]
  · next hgo =>
    have hstep : e.step? stop = .ok (some { e with stage := .popping }) := by
      simp only [step?, hstage, hgo]
      rfl
    obtain ⟨e', hreach, hend⟩ := exists_halted_of_run (e := { e with stage := .popping }) rfl h
    exact ⟨e', (Reaches.tail .refl hstep).trans hreach, hend⟩

/-! ### What every operation keeps -/

open Machine (Mirrors Represents Visits unitsAfter)

/-- The machine of an execution mirrors a cascade, and the record of the queue lists the facts that
are known and those that are settled. -/
inductive Sound (options : Options) (t : Trace) (assumed : List Literal) : Execution → Prop where
  | assuming {done rest : List Literal} {m : Machine} (hsplit : assumed = done ++ rest)
      (h : Mirrors t (scope options t) done (Machine.whole t) m
        (Reduction.start t (scope options t) done)) :
      Sound options t assumed ⟨m, .assuming rest, accepted done, []⟩
  | popping {m : Machine} {c : Cascade}
      (hsound : c.Sound (wholeClauses options t) (accepted assumed))
      (h : Represents t (scope options t) assumed m c) :
      Sound options t assumed ⟨m, .popping, literalsOf c.known, literalsOf c.settled⟩
  | visiting {m : Machine} {c : Cascade} {fact : Fact} {pending : List Fact}
      {left : Nat → Option Residual} {done todo : List Nat}
      (h : Visits options t assumed (accepted assumed) c fact pending left done todo m) :
      Sound options t assumed
        ⟨m, .visiting fact.literal (-fact.literal) fact.reason todo,
          literalsOf
            ((unitsAfter left fact done).foldl Cascade.derive (c.settle fact pending)).known,
          literalsOf (c.settled ++ [fact])⟩
  | halted {m : Machine} {c : Cascade} {left : Nat → Option Residual}
      (hsound : c.Sound (wholeClauses options t) (accepted assumed))
      (h : Mirrors t (scope options t) assumed left m c) :
      Sound options t assumed ⟨m, .halted, literalsOf c.known, literalsOf c.settled⟩

section sound

variable {options : Options} {t : Trace} {assumed : List Literal}

/-- **What an operation puts in the queue is what it makes known.** -/
theorem proceed_eq {js : List Nat} {ls ls' popped : List Literal} {stage stage' : Stage}
    {left left' : Nat → Option Residual} {c c' : Cascade} (h : Mirrors t js ls left m c)
    (h' : Mirrors t js ls' left' m' c') (hsettled : c'.settled = c.settled)
    (hknown : c.known <+: c'.known) :
    proceed ⟨m, stage, literalsOf c.known, popped⟩ m' stage' =
      ⟨m', stage', literalsOf c'.known, popped⟩ := by
  have hpending : c.pending <+: c'.pending := by
    rwa [Cascade.known, Cascade.known, hsettled, List.prefix_append_right_inj] at hknown
  obtain ⟨new, hnew⟩ := hpending
  have hentered : literalsOf c.known ++ m'.queue.drop m.queue.length = literalsOf c'.known := by
    rw [h.queue_eq, h'.queue_eq, ← hnew, literalsOf_append, List.drop_left, ← literalsOf_append,
      Cascade.known, Cascade.known, hsettled, ← hnew, List.append_assoc]
  rw [proceed, hentered]

/-- The assumptions that have been noted, and what the machine mirrors. -/
structure Mirroring (options : Options) (t : Trace) (assumed : List Literal) (e : Execution)
    (done : List Literal) (c : Cascade) : Prop where
  split : assumed = done ++ e.stage.unassumed
  sound : c.Sound (wholeClauses options t) (accepted done)
  mirrors : ∃ left, Mirrors t (scope options t) done left e.machine c
  entered_eq : e.entered = literalsOf c.known
  popped_eq : e.popped = literalsOf c.settled

variable (ht : t.WellFormed)
include ht

theorem Sound.exists_mirroring (hproper : ∀ l ∈ assumed, l.Proper) (hnodup : assumed.Nodup)
    (h : Sound options t assumed e) : ∃ done c, Mirroring options t assumed e done c := by
  cases h with
  | @assuming done rest m hsplit h =>
      have hdone : done.Sublist assumed := hsplit ▸ List.sublist_append_left _ _
      exact ⟨done, _, hsplit,
        sound_start ht options (fun l hl => hproper l (hdone.subset hl)) (hnodup.sublist hdone),
        ⟨_, h⟩, (Machine.literalsOf_known_start t _ done).symm, rfl⟩
  | popping hsound h =>
      obtain ⟨left, -, hmirrors⟩ := h
      exact ⟨assumed, _, (List.append_nil _).symm, hsound, ⟨left, hmirrors⟩, rfl, rfl⟩
  | visiting h =>
      refine ⟨assumed, _, (List.append_nil _).symm, h.sound_derived ht, ⟨_, h.mirrors⟩, rfl, ?_⟩
      rw [Cascade.settled_foldl_derive]
      rfl
  | halted hsound h =>
      exact ⟨assumed, _, (List.append_nil _).symm, hsound, ⟨_, h⟩, rfl, rfl⟩

/-! ### One operation -/

theorem Sound.step_assuming {done rest : List Literal} (hproper : ∀ l ∈ assumed, l.Proper)
    (hnodup : assumed.Nodup) (hsplit : assumed = done ++ rest)
    (h : Mirrors t (scope options t) done (Machine.whole t) m
      (Reduction.start t (scope options t) done)) :
    ∃ e', step? stop ⟨m, .assuming rest, accepted done, []⟩ = .ok (some e') ∧
      Sound options t assumed e' := by
  have hknown : ∀ ls, accepted ls = literalsOf (Reduction.start t (scope options t) ls).known :=
    fun ls => (Machine.literalsOf_known_start t _ ls).symm
  cases rest with
  | nil =>
      obtain rfl : assumed = done := hsplit.trans (List.append_nil done)
      have hsound := sound_start ht options hproper hnodup
      refine ⟨_, rfl, ?_⟩
      rw [hknown]
      split
      · exact .halted hsound h
      · exact .popping hsound ⟨_, rfl, h⟩
  | cons l rest =>
      have hl : l ∈ assumed := hsplit ▸ List.mem_append_right _ List.mem_cons_self
      have hnew : l ∉ done := fun hmem =>
        List.disjoint_of_nodup_append (hsplit ▸ hnodup) hmem List.mem_cons_self
      obtain ⟨m', hassume, h'⟩ := h.assume (hproper l hl) hnew
      have hprefix : (Reduction.start t (scope options t) done).known <+:
          (Reduction.start t (scope options t) (done ++ [l])).known := by
        show (accepted done).map _ <+: (accepted (done ++ [l])).map _
        rw [accepted_concat]
        split
        · exact List.prefix_refl _
        · exact (List.prefix_append _ _).map _
      refine ⟨_, step?_assuming rfl hassume, ?_⟩
      rw [hknown, proceed_eq h h' rfl hprefix, ← hknown]
      exact .assuming (by rw [hsplit, List.append_cons]) h'

theorem Sound.step_popping {c : Cascade}
    (hsound : c.Sound (wholeClauses options t) (accepted assumed))
    (h : Represents t (scope options t) assumed m c) :
    ∃ e', step? stop ⟨m, .popping, literalsOf c.known, literalsOf c.settled⟩ = .ok (some e') ∧
      Sound options t assumed e' := by
  cases hpending : c.pending with
  | nil =>
      obtain ⟨left, -, hmirrors⟩ := h
      have hqueue : m.queue = [] := by rw [hmirrors.queue_eq, hpending]; rfl
      exact ⟨_, by simp only [step?, hqueue], .halted hsound hmirrors⟩
  | cons fact pending =>
      obtain ⟨hproper, hqueue, hreason, left, hvisits⟩ := h.visits ht hsound hpending
      have hknown := Cascade.known_settle hpending
      have hpopped : literalsOf c.settled ++ [fact.literal] = literalsOf (c.settled ++ [fact]) :=
        (literalsOf_append c.settled [fact]).symm
      by_cases hstop : (stop && m.conflict.isSome) = true
      · refine ⟨_, step?_stopping rfl hqueue hstop, ?_⟩
        rw [hpopped, ← hknown]
        exact .halted (hsound.settle (intact_wholeClauses ht options) hpending) hvisits.mirrors
      · refine ⟨_, step?_popping rfl hqueue hstop (complement_of_proper hproper), ?_⟩
        rw [hpopped, ← hknown, hreason]
        exact .visiting hvisits

theorem Sound.step_visiting {c : Cascade} {fact : Fact} {pending : List Fact}
    {left : Nat → Option Residual} {done todo : List Nat}
    (h : Visits options t assumed (accepted assumed) c fact pending left done todo m) :
    ∃ e', step? stop ⟨m, .visiting fact.literal (-fact.literal) fact.reason todo,
        literalsOf ((unitsAfter left fact done).foldl Cascade.derive (c.settle fact pending)).known,
        literalsOf (c.settled ++ [fact])⟩ = .ok (some e') ∧ Sound options t assumed e' := by
  cases todo with
  | nil =>
      have hpopping : Sound options t assumed ⟨m, .popping, _, _⟩ :=
        .popping (h.sound_derived ht) h.finish
      rw [Cascade.settled_foldl_derive] at hpopping
      exact ⟨_, rfl, hpopping⟩
  | cons j todo =>
      obtain ⟨m', hvisit, hnext⟩ := h.next ht
      refine ⟨_, step?_visiting rfl hvisit, ?_⟩
      rw [proceed_eq h.mirrors hnext.mirrors]
      · exact .visiting hnext
      · rw [Cascade.settled_foldl_derive, Cascade.settled_foldl_derive]
      · rw [Machine.unitsAfter_concat, List.foldl_append]
        exact Cascade.known_prefix_foldl_derive _ _

variable (stop) in
/-- **Each operation can be done**, and leads from a sound state to a sound one. -/
theorem Sound.step (hproper : ∀ l ∈ assumed, l.Proper) (hnodup : assumed.Nodup)
    (h : Sound options t assumed e) :
    e.stage = .halted ∨ ∃ e', e.step? stop = .ok (some e') ∧ Sound options t assumed e' := by
  cases h with
  | assuming hsplit h => exact .inr (Sound.step_assuming ht hproper hnodup hsplit h)
  | popping hsound h => exact .inr (Sound.step_popping ht hsound h)
  | visiting h => exact .inr (Sound.step_visiting ht h)
  | halted => exact .inl rfl

/-- **All states that are reached are sound.** -/
theorem Sound.of_reaches (hproper : ∀ l ∈ assumed, l.Proper) (hnodup : assumed.Nodup)
    (h : Sound options t assumed e) (hreach : Reaches stop e e') :
    Sound options t assumed e' := by
  induction hreach with
  | refl => exact h
  | tail _ hstep ih =>
      rcases ih.step stop ht hproper hnodup with hhalted | ⟨e₂, hstep₂, h₂⟩
      · simp only [step?, hhalted] at hstep
        cases hstep
      · rw [hstep] at hstep₂
        cases hstep₂
        exact h₂

end sound

/-! ### What holds between any two operations -/

/-- The loop of propagation is in order. -/
structure InOrder (options : Options) (t : Trace) (assumed : List Literal) (e : Execution) :
    Prop where
  /-- No two known literals are complements. -/
  consistent : ∀ l ∈ e.machine.known, -l ∉ e.machine.known
  /-- Each known literal has entered the queue once, and no other literal has. -/
  entered_once : ∀ l, e.entered.count l = if l ∈ e.machine.known then 1 else 0
  /-- The queue holds what has entered it and has not been taken from it. -/
  entered_eq_popped : e.entered = e.popped ++ e.machine.queue
  /-- The literals have entered the queue as they were accepted and then as they were derived. -/
  entered_eq_accepted : ∃ noted, assumed = noted ++ e.stage.unassumed ∧
    e.entered = accepted noted ++ e.machine.derived
  /-- Reasons are clauses in scope. -/
  mem_scope_of_reason : ∀ l i, e.machine.reason? l = some i → i ∈ scope options t
  /-- A clause is the reason of one literal at most. -/
  eq_of_reason : ∀ l l' i, e.machine.reason? l = some i → e.machine.reason? l' = some i → l = l'
  popped_length_le : e.popped.length ≤ assumed.length + (scope options t).length

section mirroring

variable {options : Options} {t : Trace} {assumed noted : List Literal} {c : Cascade} {l : Literal}
  {i : Nat} (h : Mirroring options t assumed e noted c)
include h

theorem Mirroring.mem_known_iff : l ∈ e.machine.known ↔ l ∈ e.entered := by
  obtain ⟨left, hmirrors⟩ := h.mirrors
  rw [hmirrors.mem_known_iff, h.entered_eq]

theorem Mirroring.mem_of_reason (hreason : e.machine.reason? l = some i) :
    ⟨l, some i⟩ ∈ c.known := by
  obtain ⟨left, hmirrors⟩ := h.mirrors
  rw [← hmirrors.known_iff]
  rw [Machine.reason?, Std.TreeMap.getD_eq_getD_getElem?, Option.getD_eq_iff] at hreason
  exact hreason.resolve_right fun hnone => by cases hnone.2

theorem Mirroring.entered_eq_append : e.entered = accepted noted ++ e.machine.derived := by
  obtain ⟨left, hmirrors⟩ := h.mirrors
  obtain ⟨derived, heq, hsome⟩ := h.sound.known_eq
  have haccepted : ((accepted noted).map fun l => Fact.mk l none).filter (·.reason.isSome) = [] :=
    List.filter_eq_nil_iff.mpr fun fact hfact => by
      obtain ⟨l, -, rfl⟩ := List.mem_map.mp hfact
      simp
  rw [h.entered_eq, hmirrors.derived_eq, heq, List.filter_append, haccepted, List.nil_append,
    List.filter_eq_self.mpr hsome, literalsOf_append, literalsOf_map_assumed]

theorem Mirroring.inOrder (ht : t.WellFormed) : InOrder options t assumed e := by
  have hwhole := intact_wholeClauses ht options
  have hgrounded := h.sound.grounded
  refine ⟨fun l hl hneg => ?_, fun l => ?_, ?_, ⟨noted, h.split, h.entered_eq_append⟩,
    fun l i hreason => ?_, fun l l' i hreason hreason' => ?_, ?_⟩
  · rw [h.mem_known_iff, h.entered_eq] at hl hneg
    exact hgrounded.consistent hl hneg
  · have hmem := h.mem_known_iff (l := l)
    rw [h.entered_eq] at hmem ⊢
    simp only [hgrounded.nodup.count, hmem]
  · obtain ⟨left, hmirrors⟩ := h.mirrors
    rw [h.entered_eq, h.popped_eq, hmirrors.queue_eq, ← literalsOf_append, Cascade.known]
  · obtain ⟨r, hr, rfl, -⟩ := hgrounded.forced (h.mem_of_reason hreason) rfl
    obtain ⟨i, hi, d, -, rfl⟩ := mem_wholeClauses.mp hr
    exact hi
  · exact hgrounded.literal_eq_of_reason hwhole (h.mem_of_reason hreason')
      (h.mem_of_reason hreason) rfl rfl
  · rw [h.popped_eq, literalsOf, List.length_map]
    have hnoted : noted.length ≤ assumed.length := by
      rw [h.split, List.length_append]
      exact Nat.le_add_right _ _
    exact (h.sound.length_settled_le ht).trans (Nat.add_le_add_right hnoted _)

end mirroring

end Execution

end Reduction

/-! ### The whole loop -/

open Reduction in
/-- **Propagation ends, and propagates no literal twice.**  In all states of the machine, from the
first assumption on, the loop is in order, and unless the machine has halted there is an operation
that it can do.  It halts, where `Machine.propagate` does, before it has taken more steps than there
are different assumptions and clauses in scope, and a reduction on stores needs no more. -/
theorem Trace.Obtained.propagation_inOrder {t : Trace} (ht : t.Obtained) (options : Options)
    {assumptions : List Literal} (haccepted : assumptionFault? assumptions = none) :
    ∃ m, Machine.load t (scope options t) = .ok m ∧
      (∀ e, Execution.Reaches options.stopOnConflict.value (.start m assumptions.eraseDups) e →
        e.InOrder options t assumptions.eraseDups ∧
          (e.stage = .halted ∨ ∃ e', e.step? options.stopOnConflict.value = .ok (some e'))) ∧
      ∃ noted m', assumptions.eraseDups.foldlM Machine.assume m = .ok noted ∧
        (∃ e, Execution.Reaches options.stopOnConflict.value (.start m assumptions.eraseDups) e ∧
          e.stage = .halted ∧ { e.machine with queue := m'.queue } = m') ∧
        ∀ limit, assumptions.eraseDups.length + (scope options t).length < limit →
          noted.propagate options.stopOnConflict.value limit = .ok (some m') ∧
            t.reduceOnStores limit options assumptions =
              .ok (some (t.reduce options assumptions)) := by
  have hwell := ht.wellFormed
  have hproper : ∀ l ∈ assumptions.eraseDups, l.Proper := fun l hl =>
    assumptionFault?_eq_none_iff.mp haccepted l (List.mem_eraseDups.mp hl)
  have hnodup := nodup_eraseDups assumptions
  have hscope : ∀ i ∈ scope options t, i ∈ t.indices := fun i hi =>
    ((mem_scope_iff hwell).mp hi).1
  obtain ⟨m, noted, hload, hentered, hassume, hnoted⟩ :=
    Machine.exists_assumed hscope hproper hnodup
  have hstart : Execution.Sound options t assumptions.eraseDups
      (.start m assumptions.eraseDups) := .assuming (List.nil_append _).symm hentered.mirrors
  obtain ⟨m', -, hrun⟩ := hnoted.propagate hwell hproper hnodup
  have hbound := (sound_cascade_eraseDups hwell options
    (assumptionFault?_eq_none_iff.mp haccepted)).length_settled_le hwell
  refine ⟨m, hload, fun e hreach => ?_, noted, m', hassume, ?_, fun limit hlimit =>
    ⟨hrun limit (hbound.trans_lt hlimit),
      Trace.reduceOnStores_eq_of_lt hwell options assumptions (hbound.trans_lt hlimit)⟩⟩
  · have hsound := hstart.of_reaches hwell hproper hnodup hreach
    obtain ⟨done, c, hmirroring⟩ := hsound.exists_mirroring hwell hproper hnodup
    refine ⟨hmirroring.inOrder hwell, ?_⟩
    exact (hsound.step _ hwell hproper hnodup).imp_right fun ⟨e', hstep, _⟩ => ⟨e', hstep⟩
  · obtain ⟨e₁, hreach₁, rfl, hstage₁⟩ := Execution.exists_reaches_of_foldlM
      options.stopOnConflict.value (e := .start m assumptions.eraseDups)
      (fun _ _ _ _ => Execution.step?_assuming) rfl hassume
    obtain ⟨e', hreach, hhalted, hmachine⟩ := Execution.exists_halted_of_propagate hstage₁
      (hrun _ (Nat.lt_succ_self _))
    exact ⟨e', hreach₁.trans hreach, hhalted, hmachine⟩

open Reduction in
/-- The case of `propagation_inOrder` for the sample trace, assuming `¬1` twice and `¬3`.  From `¬1`
the literal `2` is derived, but not `3`, the complement of which is known, and so there is a
conflict before `2` is propagated. -/
theorem Trace.sample_propagation_inOrder :
    Trace.sample.Obtained ∧ assumptionFault? [-1, -1, -3] = none ∧
      ∃ m e, Machine.load Trace.sample [1, 2, 3] = .ok m ∧
        Execution.Reaches true (.start m [-1, -3]) e ∧ e.stage = .halted ∧
        e.InOrder .standard Trace.sample [-1, -3] ∧ e.entered = [-1, -3, 2] ∧
        e.machine.conflict = some 3 ∧ e.popped.length ≤ 5 := by
  have haccepted : assumptionFault? [-1, -1, -3] = none := rfl
  obtain ⟨m, hload, hstates, noted, m', hassume, ⟨e, hreach, hhalted, hmachine⟩, hend⟩ :=
    Trace.sample_obtained.propagation_inOrder .standard haccepted
  have hrun : (do
      let m ← Machine.load Trace.sample [1, 2, 3]
      let noted ← [-1, -3].foldlM Machine.assume m
      let m' ← noted.propagate true 6
      return m'.map fun m : Machine => (m.derived, m.conflict)) = .ok (some ([2], some 3)) := by
    decide +kernel
  have hlimit := (hend 6 (by decide +kernel)).1
  obtain ⟨hderived, hconflict⟩ : m'.derived = [2] ∧ m'.conflict = some 3 := by
    rw [show Machine.load Trace.sample [1, 2, 3] = .ok m from hload, ok_bind,
      show [-1, -3].foldlM Machine.assume m = .ok noted from hassume, ok_bind,
      show noted.propagate true 6 = .ok (some m') from hlimit, ok_bind] at hrun
    exact Prod.mk.inj (Option.some.inj (Except.ok.inj hrun))
  have horder : e.InOrder .standard Trace.sample [-1, -3] := (hstates e hreach).1
  rw [← hmachine] at hderived hconflict
  refine ⟨Trace.sample_obtained, haccepted, m, e, hload, hreach, hhalted, horder, ?_, hconflict,
    horder.popped_length_le⟩
  obtain ⟨noted', hnoted', hentered⟩ := horder.entered_eq_accepted
  rw [hhalted, Stage.unassumed, List.append_nil] at hnoted'
  rw [hentered, show e.machine.derived = [2] from hderived, ← hnoted']
  rfl

end Refutation
