import Mathlib.Data.List.Induction
import Mathlib.Tactic.SplitIfs
import Refutation.Proofs.WellFormed
import Refutation.Trace.Recording

/-! # Recording is exact and atomic

A clause is recorded exactly if it is admissible at the next index (`Trace.Admissible`).  Otherwise
the call is refused for the first fault of the clause (`Trace.fault?_eq_some_iff`): literals are
looked at before antecedents, and each in the order given (`Trace.FirstFault`).  A recorded clause
comes after the clauses that are there, and these stay as they are (`Trace.Extends`); a refused one
leaves no trace.

The trace of some clauses is what calls for them record, one after the other.  If one of them would
be refused, or has antecedents although it was declared an axiom, there is no trace, and the first
such clause tells why (`Trace.ofClauses_eq_ok_iff`, `Trace.ofClauses_eq_error_iff`). -/

namespace Refutation
namespace Trace

variable {t t' : Trace} {c : Clause} {index a : Nat} {l : Literal} {earlier xs ys : List Literal}
  {cause : TraceError} {call : RecordCall} {calls : List RecordCall} {axioms : List Nat}
  {clauses rest : List Clause}

/-! ### The first fault -/

/-- Literals that can be recorded together: they are proper, and none of them is there twice. -/
def ProperDistinct (literals : List Literal) : Prop := (∀ l ∈ literals, l.Proper) ∧ literals.Nodup

/-- An antecedent of a clause at an index is an earlier clause. -/
def Earlier (index a : Nat) : Prop := 1 ≤ a ∧ a < index

/-- What is asked of a clause to be recorded at an index. -/
structure Admissible (index : Nat) (c : Clause) : Prop where
  literals : ProperDistinct c.literals
  antecedents : ∀ a ∈ c.antecedents, Earlier index a

/-- `FirstFault index c cause`: the cause is the fault of the first literal of `c` that has one, in
the order given, or that of its first antecedent if no literal has one. -/
inductive FirstFault (index : Nat) (c : Clause) : TraceError → Prop where
  | zero {before after : List Literal} (h : c.literals = before ++ 0 :: after)
      (hbefore : ProperDistinct before) : FirstFault index c (.zeroLiteral index)
  | outOfRange {before after : List Literal} (h : c.literals = before ++ Int32.minValue :: after)
      (hbefore : ProperDistinct before) : FirstFault index c (.literalOutOfRange index)
  | duplicate {before after : List Literal} {l : Literal} (h : c.literals = before ++ l :: after)
      (hbefore : ProperDistinct before) (hl : l ∈ before) :
      FirstFault index c (.duplicateLiteral index l)
  | antecedent {before after : List Nat} {a : Nat} (hliterals : ProperDistinct c.literals)
      (h : c.antecedents = before ++ a :: after) (hbefore : ∀ b ∈ before, Earlier index b)
      (ha : ¬Earlier index a) : FirstFault index c (.antecedentOrder index a)

theorem literalFault?_cons (l : Literal) (xs : List Literal) :
    literalFault? index earlier (l :: xs) =
      (literalFault? index earlier [l]).or (literalFault? index (l :: earlier) xs) := by
  simp only [literalFault?]
  split_ifs <;> rfl

theorem literalFault?_append :
    literalFault? index earlier (xs ++ ys) =
      (literalFault? index earlier xs).or (literalFault? index (xs.reverse ++ earlier) ys) := by
  induction xs generalizing earlier with
  | nil => rfl
  | cons l xs ih =>
      rw [List.cons_append, literalFault?_cons, ih, literalFault?_cons l xs, Option.or_assoc,
        List.reverse_cons, List.append_assoc, List.singleton_append]

theorem exists_of_literalFault? (h : literalFault? index earlier xs = some cause) :
    ∃ before l after, xs = before ++ l :: after ∧ literalFault? index earlier before = none ∧
      literalFault? index (before.reverse ++ earlier) [l] = some cause := by
  induction xs generalizing earlier with
  | nil => cases h
  | cons l xs ih =>
      rw [literalFault?_cons, Option.or_eq_some_iff] at h
      rcases h with h | ⟨hnone, h⟩
      · exact ⟨[], l, xs, rfl, rfl, h⟩
      · obtain ⟨before, k, after, rfl, hbefore, hk⟩ := ih h
        refine ⟨l :: before, k, after, rfl, ?_, ?_⟩
        · rw [literalFault?_cons, hnone, hbefore]
          rfl
        · rwa [List.reverse_cons, List.append_assoc, List.singleton_append]

theorem properDistinct_iff : ProperDistinct xs ↔ literalFault? index [] xs = none := by
  simp [literalFault?_eq_none_iff, ProperDistinct]

theorem literalFault?_of_properDistinct (hxs : ProperDistinct xs)
    (h : literalFault? index xs.reverse [l] = some cause) :
    literalFault? index [] (xs ++ l :: ys) = some cause := by
  rw [literalFault?_append, properDistinct_iff.mp hxs, Option.none_or, List.append_nil,
    literalFault?_cons, h]
  rfl

theorem not_earlier_iff : (a == 0 || decide (index ≤ a)) = true ↔ ¬Earlier index a := by
  simp only [Earlier, Bool.or_eq_true, beq_iff_eq, decide_eq_true_eq]
  omega

theorem antecedentFault?_eq_some_iff {antecedents : List Nat} :
    antecedentFault? index antecedents = some cause ↔
      ∃ before a after, antecedents = before ++ a :: after ∧ (∀ b ∈ before, Earlier index b) ∧
        ¬Earlier index a ∧ cause = .antecedentOrder index a := by
  simp only [antecedentFault?, Option.map_eq_some_iff, List.find?_eq_some_iff_append, not_earlier_iff,
    Bool.not_eq_true', ← Bool.not_eq_true, Classical.not_not]
  constructor
  · rintro ⟨a, ⟨ha, before, after, rfl, hbefore⟩, rfl⟩
    exact ⟨before, a, after, rfl, hbefore, ha, rfl⟩
  · rintro ⟨before, a, after, rfl, hbefore, ha, rfl⟩
    exact ⟨a, ⟨ha, before, after, rfl, hbefore⟩, rfl⟩

/-- **A clause is refused for its first fault.** -/
theorem fault?_eq_some_iff :
    fault? index c.literals c.antecedents = some cause ↔ FirstFault index c cause := by
  unfold fault?
  rw [Option.or_eq_some_iff, ← properDistinct_iff, antecedentFault?_eq_some_iff]
  constructor
  · rintro (hfault | ⟨hliterals, before, a, after, h, hbefore, ha, rfl⟩)
    · obtain ⟨before, l, after, h, hbefore, hl⟩ := exists_of_literalFault? hfault
      rw [← properDistinct_iff] at hbefore
      simp only [literalFault?, List.append_nil, List.mem_reverse] at hl
      split_ifs at hl with hzero hmin hmem <;> cases hl
      · exact .zero (hzero ▸ h) hbefore
      · exact .outOfRange (hmin ▸ h) hbefore
      · exact .duplicate h hbefore hmem
    · exact .antecedent hliterals h hbefore ha
  · intro h
    cases h with
    | zero h hbefore => exact .inl (h ▸ literalFault?_of_properDistinct hbefore rfl)
    | outOfRange h hbefore => exact .inl (h ▸ literalFault?_of_properDistinct hbefore rfl)
    | duplicate h hbefore hl =>
        refine .inl (h ▸ literalFault?_of_properDistinct hbefore ?_)
        have hproper := hbefore.1 _ hl
        simp [literalFault?, hproper.1, hproper.2, hl]
    | antecedent hliterals h hbefore ha => exact .inr ⟨hliterals, _, _, _, h, hbefore, ha, rfl⟩

theorem admissible_iff : Admissible index c ↔ fault? index c.literals c.antecedents = none := by
  rw [fault?_eq_none_iff]
  exact ⟨fun h => ⟨h.literals, h.antecedents⟩, fun h => ⟨h.1, h.2⟩⟩

/-! ### One call -/

/-- The trace `t'` consists of the clauses of `t` and, at the next index, the clause `c` with its
literals in ascending order by atom. -/
structure Extends (t t' : Trace) (c : Clause) : Prop where
  size_eq : t'.size = t.size + 1
  kept : ∀ i ≤ t.size, t'.clause? i = t.clause? i
  stored : ∃ d, t'.clause? (t.size + 1) = some d ∧ d.literals.Perm c.literals ∧
    d.literals.Pairwise (fun a b => Literal.compareByAtom a b = .lt) ∧ d.antecedents = c.antecedents

theorem record_eq_error_iff :
    t.record c.literals c.antecedents = .error cause ↔ FirstFault (t.size + 1) c cause := by
  rw [← fault?_eq_some_iff, record]
  split
  · next h => simp [h]
  · next h => simp [h]

theorem extends_of_record (h : t.record c.literals c.antecedents = .ok t') : Extends t t' c := by
  obtain ⟨hfault, rfl⟩ := record_eq_ok_iff.mp h
  refine ⟨by simp [size], fun i hi => ?_, ?_⟩
  · cases i with
    | zero => rfl
    | succ i =>
        have hne : i ≠ t.clauses.size := Nat.ne_of_lt hi
        simp only [clause?, Array.getElem?_push, if_neg hne]
  · refine ⟨_, clause?_push.mpr (.inr ⟨rfl, rfl⟩), Literal.sortByAtom_perm _, ?_, rfl⟩
    exact Literal.pairwise_sortByAtom (admissible_iff.mpr hfault).literals.2

/-- A call answers the next index, and the clause is recorded there, or it answers the first fault,
and nothing has changed. -/
theorem make_cases (t : Trace) (call : RecordCall) :
    (∃ t', call.make.run t = (.ok (t.size + 1), t') ∧ Admissible (t.size + 1) call.clause ∧
        Extends t t' call.clause) ∨
      ∃ cause, call.make.run t = (.error cause, t) ∧ ¬Admissible (t.size + 1) call.clause ∧
        FirstFault (t.size + 1) call.clause cause := by
  rw [run_make]
  cases hrecord : t.record call.clause.literals call.clause.antecedents with
  | ok t' =>
      have hextends := extends_of_record hrecord
      refine .inl ⟨t', by simp only [hextends.size_eq], ?_, hextends⟩
      exact admissible_iff.mpr (record_eq_ok_iff.mp hrecord).1
  | error cause =>
      have hfault := record_eq_error_iff.mp hrecord
      refine .inr ⟨cause, rfl, ?_, hfault⟩
      rw [admissible_iff, fault?_eq_some_iff.mpr hfault]
      simp

/-! ### A list of clauses -/

/-- The clauses that were declared axioms have no antecedents. -/
def DeclaredRightly (axioms : List Nat) (clauses : List Clause) : Prop :=
  ∀ i c, clauses[i]? = some c → i + 1 ∈ axioms → c.antecedents = []

/-- The clauses are all recorded when calls for them are made one after the other. -/
def AllRecorded (clauses : List Clause) : Prop :=
  ∀ answer ∈ empty.answers (clauses.map .ofClause), ∃ i, answer = .ok i

theorem declaredRightly_concat :
    DeclaredRightly axioms (clauses ++ [c]) ↔ DeclaredRightly axioms clauses ∧
      (clauses.length + 1 ∈ axioms → c.antecedents = []) := by
  constructor
  · intro h
    refine ⟨fun i d hd hi => h i d ?_ hi, fun hi => h clauses.length c ?_ hi⟩
    · exact List.getElem?_append_left (List.getElem?_eq_some_iff.mp hd).1 ▸ hd
    · simp
  · rintro ⟨hclauses, hc⟩ i d hd hi
    rcases Nat.lt_or_ge i clauses.length with hlt | hge
    · rw [List.getElem?_append_left hlt] at hd
      exact hclauses i d hd hi
    · rw [List.getElem?_append_right hge, List.getElem?_singleton] at hd
      split at hd
      · next hzero =>
        cases hd
        obtain rfl : i = clauses.length := by omega
        exact hc hi
      · cases hd

theorem recordAll_append :
    recordAll axioms t (clauses ++ rest) =
      (recordAll axioms t clauses).bind fun t' => recordAll axioms t' rest := by
  induction clauses generalizing t with
  | nil => rfl
  | cons c clauses ih =>
      simp only [List.cons_append, recordAll]
      split
      · rfl
      · cases t.record c.literals c.antecedents with
        | error cause => rfl
        | ok t' => exact ih

theorem size_of_recordAll (h : recordAll axioms t clauses = .ok t') :
    t'.size = t.size + clauses.length := by
  induction clauses generalizing t with
  | nil =>
      cases h
      rfl
  | cons c clauses ih =>
      unfold recordAll at h
      split at h
      · cases h
      · split at h
        · cases h
        · next t'' hrecord =>
          rw [ih h, size_of_record hrecord, List.length_cons]
          omega

/-- The cause for which a clause in a list is refused.  That it was declared an axiom and has
antecedents comes before its other faults. -/
def ListFault (axioms : List Nat) (index : Nat) (c : Clause) (cause : TraceError) : Prop :=
  if index ∈ axioms ∧ c.antecedents ≠ [] then cause = .axiomWithAntecedents index
  else FirstFault index c cause

theorem declared_iff :
    index ∈ axioms ∧ ¬c.isAxiom = true ↔ index ∈ axioms ∧ c.antecedents ≠ [] := by
  simp [Clause.isAxiom]

theorem recordAll_cons_of_listFault (h : ListFault axioms (t.size + 1) c cause) :
    recordAll axioms t (c :: rest) = .error cause := by
  simp only [recordAll, declared_iff]
  unfold ListFault at h
  split at h
  · next hdeclared => rw [if_pos hdeclared, h]
  · next hdeclared => rw [if_neg hdeclared, record_eq_error_iff.mpr h]

theorem listFault_of_recordAll (h : recordAll axioms t [c] = .error cause) :
    ListFault axioms (t.size + 1) c cause := by
  simp only [recordAll, declared_iff] at h
  unfold ListFault
  split
  · next hdeclared =>
    rw [if_pos hdeclared] at h
    cases h
    rfl
  · next hdeclared =>
    rw [if_neg hdeclared] at h
    cases hrecord : t.record c.literals c.antecedents with
    | error cause' =>
        simp only [hrecord, Except.error.injEq] at h
        exact h ▸ record_eq_error_iff.mp hrecord
    | ok t' => simp [hrecord] at h

theorem recordAll_singleton_eq_ok_iff :
    recordAll axioms t [c] = .ok t' ↔
      (t.size + 1 ∈ axioms → c.antecedents = []) ∧ t.record c.literals c.antecedents = .ok t' := by
  simp only [recordAll, declared_iff]
  split
  · next hdeclared => simp [hdeclared.1, hdeclared.2]
  · next hdeclared =>
    have hants : t.size + 1 ∈ axioms → c.antecedents = [] := fun hmem =>
      Classical.not_not.mp fun hne => hdeclared ⟨hmem, hne⟩
    cases t.record c.literals c.antecedents with
    | error cause => simp
    | ok t'' => exact ⟨fun h => ⟨hants, h⟩, And.right⟩

theorem ofClauses_append :
    ofClauses (clauses ++ rest) axioms =
      (ofClauses clauses axioms).bind fun t => recordAll axioms t rest := recordAll_append

theorem size_of_ofClauses (h : ofClauses clauses axioms = .ok t) : t.size = clauses.length := by
  rw [size_of_recordAll h]
  simp [size, empty]

theorem allRecorded_concat :
    AllRecorded (clauses ++ [c]) ↔ AllRecorded clauses ∧
      ∃ t, (empty.afterCalls (clauses.map .ofClause)).record c.literals c.antecedents = .ok t := by
  unfold AllRecorded
  simp only [List.map_append, answers_append, List.forall_mem_append, List.map_singleton,
    answers_cons, answers_nil, List.forall_mem_singleton, run_make, clause_ofClause]
  refine and_congr_right fun _ => ?_
  cases (empty.afterCalls (clauses.map .ofClause)).record c.literals c.antecedents with
  | ok t => simp
  | error cause => simp

theorem afterCalls_concat (h : (t.afterCalls calls).record c.literals c.antecedents = .ok t') :
    t.afterCalls (calls ++ [.ofClause c]) = t' := by
  simp only [afterCalls_append, afterCalls_cons, afterCalls_nil, run_make, clause_ofClause, h]

/-- **A list of clauses makes a trace exactly if all its clauses are recorded** by calls made one
after the other, and its axioms are declared rightly; and the trace is what the calls leave. -/
theorem ofClauses_eq_ok_iff :
    ofClauses clauses axioms = .ok t ↔
      AllRecorded clauses ∧ DeclaredRightly axioms clauses ∧
        t = empty.afterCalls (clauses.map .ofClause) := by
  induction clauses using List.reverseRecOn generalizing t with
  | nil => simp [ofClauses, recordAll, AllRecorded, DeclaredRightly, eq_comm]
  | append_singleton clauses c ih =>
      rw [ofClauses_append, allRecorded_concat, declaredRightly_concat, List.map_append,
        List.map_singleton]
      constructor
      · intro h
        cases hclauses : ofClauses clauses axioms with
        | error cause => simp [hclauses, Except.bind] at h
        | ok t' =>
            have hsize := size_of_ofClauses hclauses
            obtain ⟨hall, hdeclared, rfl⟩ := ih.mp hclauses
            simp only [hclauses, Except.bind, recordAll_singleton_eq_ok_iff, hsize] at h
            exact ⟨⟨hall, t, h.2⟩, ⟨hdeclared, h.1⟩, (afterCalls_concat h.2).symm⟩
      · rintro ⟨⟨hall, t', hrecord⟩, ⟨hdeclared, hc⟩, rfl⟩
        have hclauses := ih.mpr ⟨hall, hdeclared, rfl⟩
        have hsize := size_of_ofClauses hclauses
        rw [hclauses, afterCalls_concat hrecord]
        exact recordAll_singleton_eq_ok_iff.mpr ⟨hsize ▸ hc, hrecord⟩

/-- **Otherwise it is refused for the first clause that has a fault.** -/
theorem ofClauses_eq_error_iff :
    ofClauses clauses axioms = .error cause ↔
      ∃ before c after, clauses = before ++ c :: after ∧ AllRecorded before ∧
        DeclaredRightly axioms before ∧ ListFault axioms (before.length + 1) c cause := by
  constructor
  · intro h
    induction clauses using List.reverseRecOn with
    | nil => cases h
    | append_singleton clauses c ih =>
        cases hclauses : ofClauses clauses axioms with
        | error cause' =>
            simp only [ofClauses_append, hclauses, Except.bind] at h
            obtain ⟨before, d, after, rfl, hfault⟩ := ih (hclauses.trans h)
            exact ⟨before, d, after ++ [c], by simp, hfault⟩
        | ok t =>
            simp only [ofClauses_append, hclauses, Except.bind] at h
            obtain ⟨hall, hdeclared, -⟩ := ofClauses_eq_ok_iff.mp hclauses
            refine ⟨clauses, c, [], rfl, hall, hdeclared, ?_⟩
            rw [← size_of_ofClauses hclauses]
            exact listFault_of_recordAll h
  · rintro ⟨before, c, after, rfl, hall, hdeclared, hfault⟩
    have hbefore := ofClauses_eq_ok_iff.mpr ⟨hall, hdeclared, rfl⟩
    rw [← size_of_ofClauses hbefore] at hfault
    simp only [ofClauses_append, hbefore, Except.bind, recordAll_cons_of_listFault hfault]

/-- **Recording is exact and atomic.**

After any calls, some of which may have been refused, a call succeeds exactly if its clause is
admissible at the next index.  If so it answers that index, and the clause has been recorded there;
if not it answers the first fault, and the trace is what it was.

A list of clauses makes the trace that calls for its clauses leave, if all of them succeed and no
clause that was declared an axiom has antecedents; otherwise it is refused for the first clause that
has a fault. -/
theorem recording_exact :
    (∀ (calls : List RecordCall) (call : RecordCall), ∃ answer,
      empty.answers (calls ++ [call]) = empty.answers calls ++ [answer] ∧
      ((∃ i, answer = .ok i) ↔ Admissible ((empty.afterCalls calls).size + 1) call.clause) ∧
      (∀ i, answer = .ok i → i = (empty.afterCalls calls).size + 1 ∧
        Extends (empty.afterCalls calls) (empty.afterCalls (calls ++ [call])) call.clause) ∧
      ∀ cause, answer = .error cause →
        empty.afterCalls (calls ++ [call]) = empty.afterCalls calls ∧
          FirstFault ((empty.afterCalls calls).size + 1) call.clause cause) ∧
    (∀ (clauses : List Clause) (axioms : List Nat) (t : Trace),
      ofClauses clauses axioms = .ok t ↔ AllRecorded clauses ∧ DeclaredRightly axioms clauses ∧
        t = empty.afterCalls (clauses.map .ofClause)) ∧
    ∀ (clauses : List Clause) (axioms : List Nat) (cause : TraceError),
      ofClauses clauses axioms = .error cause ↔
        ∃ before c after, clauses = before ++ c :: after ∧ AllRecorded before ∧
          DeclaredRightly axioms before ∧ ListFault axioms (before.length + 1) c cause := by
  refine ⟨fun calls call => ?_, fun _ _ _ => ofClauses_eq_ok_iff,
    fun _ _ _ => ofClauses_eq_error_iff⟩
  simp only [answers_append, afterCalls_append, answers_cons, answers_nil, afterCalls_cons,
    afterCalls_nil]
  refine ⟨_, rfl, ?_⟩
  rcases make_cases (empty.afterCalls calls) call with
    ⟨t', hmake, hadmissible, hextends⟩ | ⟨cause, hmake, hrefused, hfault⟩
  · simp [hmake, hadmissible, hextends]
  · simp [hmake, hrefused, hfault]

/-- Three calls, of which the second is refused, and two clauses of which the second has all kinds
of faults. -/
theorem recording_exact_sample :
    empty.answers [.given [-5, 2, -1], .resolvent [3, 2, 3] [7], .resolvent [2, 1] [1]] =
        [.ok 1, .error (.duplicateLiteral 2 3), .ok 2] ∧
      Extends (empty.afterCalls [.given [-5, 2, -1], .resolvent [3, 2, 3] [7]])
        (empty.afterCalls [.given [-5, 2, -1], .resolvent [3, 2, 3] [7], .resolvent [2, 1] [1]])
        ⟨[2, 1], [1]⟩ ∧
      empty.afterCalls [.given [-5, 2, -1], .resolvent [3, 2, 3] [7]] =
        empty.afterCalls [.given [-5, 2, -1]] ∧
      ofClauses [⟨[1], []⟩, ⟨[0], [1, 9]⟩] [2] = .error (.axiomWithAntecedents 2) := by
  have hanswers : empty.answers
      [.given [-5, 2, -1], .resolvent [3, 2, 3] [7], .resolvent [2, 1] [1]] =
      [.ok 1, .error (.duplicateLiteral 2 3), .ok 2] := by decide +kernel
  have hanswers' : empty.answers [.given [-5, 2, -1], .resolvent [3, 2, 3] [7]] =
      [.ok 1, .error (.duplicateLiteral 2 3)] := by decide +kernel
  obtain ⟨last, hlast, -, hok, -⟩ :=
    recording_exact.1 [.given [-5, 2, -1], .resolvent [3, 2, 3] [7]] (.resolvent [2, 1] [1])
  obtain ⟨second, hsecond, -, -, herror⟩ :=
    recording_exact.1 [.given [-5, 2, -1]] (.resolvent [3, 2, 3] [7])
  refine ⟨hanswers, (hok 2 ?_).2, (herror (.duplicateLiteral 2 3) ?_).1, ?_⟩
  · simpa using congrArg List.getLast? (hlast.symm.trans hanswers)
  · simpa using congrArg List.getLast? (hsecond.symm.trans hanswers')
  · refine (recording_exact.2.2 _ _ _).mpr ⟨[⟨[1], []⟩], ⟨[0], [1, 9]⟩, [], rfl, ?_, ?_, ?_⟩
    · have hall : empty.answers ([⟨[1], []⟩].map .ofClause) = [.ok 1] := by decide +kernel
      rw [AllRecorded, hall]
      simp
    · intro i c hc hi
      obtain rfl : i = 1 := by simpa using hi
      simp at hc
    · simp [ListFault]

end Trace
end Refutation
