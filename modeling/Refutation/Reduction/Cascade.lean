import Refutation.Propagation
import Refutation.Trace.Basic

/-! # The cascade of unit propagation

A reduction starts from literals assumed to be true.  Each known literal is propagated through
all the clauses, which satisfies some and shortens others; a clause left with one literal makes
that literal known in turn.

A `Cascade` is a state of this process: what is left of the clauses (`Residual`), and the known
literals (`Fact`), first those that were propagated and then those still to be.  A step
(`Cascade.step?`) propagates the first of the latter.  Each literal derived in a step has cost its
clause at least one literal, so that the cascade comes to an end (`Cascade.weight_step?_lt`). -/

namespace Refutation.Reduction

/-- A literal known to be true. -/
structure Fact where
  literal : Literal
  /-- The index of the unit clause that gave the literal, unless it was assumed. -/
  reason : Option Nat
  deriving DecidableEq, Repr

/-- What is left of a clause. -/
structure Residual where
  /-- The index of the clause in the trace reduced. -/
  index : Nat
  /-- The literals that are left. -/
  literals : List Literal
  /-- The facts that removed a literal, in order. -/
  removedBy : List Fact
  deriving DecidableEq, Repr

/-- The state of a cascade of propagations. -/
structure Cascade where
  /-- What is left of the clauses that are not satisfied, by ascending index. -/
  residuals : List Residual
  /-- The facts propagated through every clause, in order. -/
  settled : List Fact
  /-- The facts still to be propagated, in order. -/
  pending : List Fact
  deriving DecidableEq, Repr

/-! ### One clause -/

namespace Residual

/-- A whole clause, nothing having been removed. -/
def ofClause (index : Nat) (c : Clause) : Residual := ⟨index, c.literals, []⟩

/-- Whether literals were removed. -/
def isShortened (r : Residual) : Bool := !r.removedBy.isEmpty

/-- What a fact makes of a clause.  The clause that gave the fact stays as it is. -/
def simplifyBy (r : Residual) (fact : Fact) : Outcome Residual :=
  if fact.reason = some r.index then .unchanged
  else
    match simplify r.literals fact.literal (-fact.literal) with
    | .satisfied => .satisfied
    | .shortened literals => .shortened ⟨r.index, literals, r.removedBy ++ [fact]⟩
    | .unchanged => .unchanged

/-- What is left of a clause after a fact, if it is not satisfied. -/
def after? (r : Residual) (fact : Fact) : Option Residual := (r.simplifyBy fact).remains? r

/-- The fact given by a clause with one literal left. -/
def unit? (r : Residual) : Option Fact :=
  match r.literals with
  | [l] => some ⟨l, some r.index⟩
  | _ => none

/-- The fact given by a clause that another fact has just shortened to one literal. -/
def unitAfter? (r : Residual) (fact : Fact) : Option Fact :=
  match r.simplifyBy fact with
  | .shortened r' => r'.unit?
  | .satisfied | .unchanged => none

end Residual

/-! ### All clauses -/

namespace Cascade

/-- The known facts, in the order they became known. -/
def known (c : Cascade) : List Fact := c.settled ++ c.pending

/-- Whether a literal is known to be true. -/
def knows (c : Cascade) (l : Literal) : Bool := c.known.any (·.literal == l)

/-- Whether some clause has lost its last literal. -/
def inConflict (c : Cascade) : Bool :=
  c.residuals.any fun r => r.isShortened && r.literals.isEmpty

/-- Adds a fact to those to be propagated, unless its literal or the complement is known. -/
def derive (c : Cascade) (fact : Fact) : Cascade :=
  if c.knows fact.literal || c.knows (-fact.literal) then c
  else { c with pending := c.pending ++ [fact] }

/-- The cascade after one fact more has been propagated, if there is one left: every clause is
simplified, and the clauses shortened to one literal give new facts, by ascending index. -/
def step? (c : Cascade) : Option Cascade :=
  match c.pending with
  | [] => none
  | fact :: rest =>
      some <| (c.residuals.filterMap (·.unitAfter? fact)).foldl derive
        ⟨c.residuals.filterMap (·.after? fact), c.settled ++ [fact], rest⟩

/-! ### Termination -/

/-- A bound on the number of steps left: the facts to propagate, and the literals that may still
be removed. -/
def weight (c : Cascade) : Nat := c.pending.length + (c.residuals.flatMap (·.literals)).length

@[simp]
theorem residuals_derive (c : Cascade) (fact : Fact) : (c.derive fact).residuals = c.residuals := by
  unfold derive
  split <;> rfl

@[simp]
theorem settled_derive (c : Cascade) (fact : Fact) : (c.derive fact).settled = c.settled := by
  unfold derive
  split <;> rfl

theorem weight_derive_le (c : Cascade) (fact : Fact) : (c.derive fact).weight ≤ c.weight + 1 := by
  unfold derive
  split
  · omega
  · simp [weight]
    omega

theorem weight_foldl_derive_le (facts : List Fact) (c : Cascade) :
    (facts.foldl derive c).weight ≤ c.weight + facts.length := by
  induction facts generalizing c with
  | nil => simp
  | cons fact facts ih =>
      have hstep := weight_derive_le c fact
      have hrest := ih (c.derive fact)
      simp only [List.foldl_cons, List.length_cons]
      omega

theorem length_after?_add_unitAfter?_le (r : Residual) (fact : Fact) :
    ((r.after? fact).toList.flatMap (·.literals)).length + (r.unitAfter? fact).toList.length ≤
      r.literals.length := by
  unfold Residual.after? Residual.unitAfter? Residual.simplifyBy
  by_cases hreason : fact.reason = some r.index
  · simp [hreason, Outcome.remains?]
  · simp only [if_neg hreason, simplify_literals]
    by_cases hsat : fact.literal ∈ r.literals
    · simp [hsat, Outcome.remains?]
    · by_cases hred : -fact.literal ∈ r.literals
      · have hlt : (r.literals.filter (· ≠ -fact.literal)).length < r.literals.length :=
          List.length_filter_lt_length_iff_exists.mpr ⟨_, hred, by simp⟩
        have hunit : ∀ o : Option Fact, o.toList.length ≤ 1 := by
          intro o
          cases o <;> simp
        have := hunit (Residual.unit? ⟨r.index, r.literals.filter (· ≠ -fact.literal),
          r.removedBy ++ [fact]⟩)
        simp only [hsat, hred, if_true, if_false, Outcome.remains?, Option.toList_some,
          List.flatMap_cons, List.flatMap_nil, List.append_nil]
        omega
      · simp [hsat, hred, Outcome.remains?]

theorem length_filterMap_after?_le (rs : List Residual) (fact : Fact) :
    ((rs.filterMap (·.after? fact)).flatMap (·.literals)).length +
        (rs.filterMap (·.unitAfter? fact)).length ≤
      (rs.flatMap (·.literals)).length := by
  induction rs with
  | nil => simp
  | cons r rs ih =>
      have hr := length_after?_add_unitAfter?_le r fact
      cases ha : r.after? fact <;> cases hu : r.unitAfter? fact <;>
        simp [ha, hu] at hr ih ⊢ <;> omega

theorem weight_step?_lt {c c' : Cascade} (h : c.step? = some c') : c'.weight < c.weight := by
  unfold step? at h
  split at h
  · cases h
  · next fact rest hpending =>
    cases h
    have hfold := weight_foldl_derive_le (c.residuals.filterMap (·.unitAfter? fact))
      ⟨c.residuals.filterMap (·.after? fact), c.settled ++ [fact], rest⟩
    have hlength := length_filterMap_after?_le c.residuals fact
    simp only [weight] at hfold ⊢
    rw [hpending]
    simp only [List.length_cons]
    omega

/-! ### The whole cascade -/

/-- Propagates facts until there is none left or, if `stop`, until a clause has lost its last
literal.  The fact that emptied the clause is propagated through all clauses. -/
def run (stop : Bool) (c : Cascade) : Cascade :=
  if stop && c.inConflict then c
  else
    match _h : c.step? with
    | none => c
    | some c' => run stop c'
termination_by c.weight
decreasing_by exact weight_step?_lt (by assumption)

end Cascade
end Refutation.Reduction
