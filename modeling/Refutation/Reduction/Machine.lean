import Refutation.Reduction.Basic

/-! # Reduction on stores

`Trace.reduce` says what becomes of the clauses of a trace.  A `Machine` computes the same on
stores: the clauses are worked on in a store by position, a table gives the clauses in which each
literal occurs, so that only these are visited when a literal is propagated, a table gives the
reason of each known literal, and the trace is rebuilt with a store of the new indices.

Indices are counted from 1 and positions from 0; a store has an entry at the positions below its
size only; the least integer has no complement; the trace reduced, and each clause of the trace
rebuilt, is to be in order.  All this is checked where it is relied on, and where it does not hold
the machine stops with a `Fault`. -/

namespace Refutation.Reduction

/-- What a machine relies on, and does not find. -/
inductive Fault where
  /-- An index counted from 1 is 0. -/
  | zeroIndex
  /-- A store has no entry at the position. -/
  | outOfRange (position : Nat)
  /-- The least integer is to be negated. -/
  | noComplement
  /-- The trace to be reduced is not in order. -/
  | disorder (cause : TraceError)
  /-- A clause to be stored in the rebuilt trace is not in order. -/
  | clauseDisorder (cause : TraceError)
  deriving DecidableEq, Repr

/-! ### Checked operations -/

/-- The position of an index. -/
def position : (index : Nat) → Except Fault Nat
  | 0 => .error .zeroIndex
  | index + 1 => .ok index

/-- The entry of a store at a position. -/
def entry {α : Type} (store : Array α) (position : Nat) : Except Fault α :=
  match store[position]? with
  | some x => .ok x
  | none => .error (.outOfRange position)

/-- The store with another entry at a position. -/
def withEntry {α : Type} (store : Array α) (position : Nat) (x : α) : Except Fault (Array α) :=
  if position < store.size then .ok (store.setIfInBounds position x)
  else .error (.outOfRange position)

/-- The complement of a literal. -/
def complement (l : Literal) : Except Fault Literal :=
  if l = Int32.minValue then .error .noComplement else .ok (-l)

/-! ### The state -/

/-- What has become of a clause. -/
inductive Status where
  | kept
  | simplified
  | satisfied
  deriving DecidableEq, Repr

/-- A clause that is worked on. -/
structure WorkingClause where
  /-- The literals that are left. -/
  literals : List Literal
  status : Status
  /-- The known literals whose complements were removed, in order. -/
  removedBy : List Literal
  deriving DecidableEq, Repr

/-- The state of a propagation. -/
structure Machine where
  /-- The clauses by position, those in scope only. -/
  working : Array (Option WorkingClause)
  /-- The indices of the clauses in which each literal occurs at the start. -/
  occurrences : Std.TreeMap Literal (List Nat)
  /-- The known literals, each with the index of the unit clause that gave it, unless it was
  assumed. -/
  known : Std.TreeMap Literal (Option Nat)
  /-- The literals derived, in order. -/
  derived : List Literal
  /-- The known literals that are still to be propagated, in order. -/
  queue : List Literal
  /-- The index of the first clause that lost its last literal. -/
  conflict : Option Nat
  /-- Whether some assumption is the complement of another. -/
  contradiction : Bool

namespace Machine

/-! ### The start -/

/-- No clause is worked on, and nothing is known. -/
def empty (size : Nat) : Machine := ⟨.replicate size none, ∅, ∅, [], [], none, false⟩

/-- The table with an index added to the occurrences of some literals. -/
def addOccurrences (table : Std.TreeMap Literal (List Nat)) (index : Nat) (ls : List Literal) :
    Std.TreeMap Literal (List Nat) :=
  ls.foldl (fun table l => table.insert l (table.getD l [] ++ [index])) table

/-- Takes up the clause at an index, whole. -/
def enter (t : Trace) (m : Machine) (index : Nat) : Except Fault Machine := do
  let place ← position index
  let c ← entry t.clauses place
  let working ← withEntry m.working place (some ⟨c.literals, .kept, []⟩)
  return { m with working, occurrences := addOccurrences m.occurrences index c.literals }

/-- Takes up the clauses in scope. -/
def load (t : Trace) (scope : List Nat) : Except Fault Machine :=
  (scope.filter t.contains).foldlM (enter t) (empty t.size)

/-- Takes note of an assumption, unless its complement was assumed before. -/
def assume (m : Machine) (l : Literal) : Except Fault Machine := do
  let l' ← complement l
  if l' ∈ m.known then return { m with contradiction := true }
  else if l ∈ m.known then return { m with known := m.known.insert l none }
  else return { m with known := m.known.insert l none, queue := m.queue ++ [l] }

/-! ### Propagation -/

/-- Takes note of a literal given by the unit clause at an index, unless the literal or its
complement is known. -/
def derive (m : Machine) (l : Literal) (index : Nat) : Except Fault Machine :=
  if l ∈ m.known then .ok m
  else do
    let l' ← complement l
    if l' ∈ m.known then return m
    else return { m with
      known := m.known.insert l (some index)
      derived := m.derived ++ [l]
      queue := m.queue ++ [l] }

/-- Takes note of the literals that are left of the clause at an index. -/
def heed (m : Machine) (index : Nat) : List Literal → Except Fault Machine
  | [] => .ok { m with conflict := m.conflict.or (some index) }
  | [l] => m.derive l index
  | _ => .ok m

/-- The reason of a literal, if it is known and was derived. -/
def reason? (m : Machine) (l : Literal) : Option Nat := m.known.getD l none

/-- Simplifies the clause at an index by a known literal, unless the literal came from it. -/
def visit (l complement : Literal) (reason : Option Nat) (m : Machine) (index : Nat) :
    Except Fault Machine :=
  if reason = some index then .ok m
  else do
    let place ← position index
    match m.working[place]? with
    | some (some clause) =>
        if clause.status = .satisfied then return m
        else
          match simplify clause.literals l complement with
          | .satisfied => return { m with
              working := m.working.setIfInBounds place (some { clause with status := .satisfied }) }
          | .shortened rest =>
              let clause := ⟨rest, .simplified, clause.removedBy ++ [l]⟩
              heed { m with working := m.working.setIfInBounds place (some clause) } index rest
          | .unchanged => return m
    | _ => return m

/-- The indices of the clauses in which a literal or its complement occurs at the start, in
ascending order. -/
def touched (m : Machine) (l complement : Literal) : List Nat :=
  (Std.TreeSet.ofList (m.occurrences.getD l [] ++ m.occurrences.getD complement [])).toList

/-- Propagates the first literal of the queue, if there is one and the machine is not to stop at
the conflict it has found. -/
def step? (stop : Bool) (m : Machine) : Except Fault (Option Machine) :=
  match m.queue with
  | [] => .ok none
  | l :: rest =>
      if stop && m.conflict.isSome then .ok none
      else do
        let l' ← complement l
        let m' ← (m.touched l l').foldlM (visit l l' (m.reason? l)) { m with queue := rest }
        return some m'

/-- Takes steps for as long as there are any, but fewer than `limit` of them. -/
def run (stop : Bool) : (limit : Nat) → Machine → Except Fault (Option Machine)
  | 0, _ => .ok none
  | limit + 1, m => do
      match ← m.step? stop with
      | none => return some m
      | some m' => run stop limit m'

/-- Propagates what is queued, unless contradictory assumptions are conflict enough to stop. -/
def propagate (stop : Bool) (limit : Nat) (m : Machine) : Except Fault (Option Machine) :=
  if m.contradiction && stop then .ok (some m) else m.run stop limit

/-! ### The rebuilt trace -/

/-- A trace that is being rebuilt. -/
structure Draft where
  clauses : Array Clause
  /-- Where each clause came from. -/
  origins : Array Origin
  /-- The new index of each clause, by the old one. -/
  renumbered : Array (Option Nat)

/-- Before a clause of the trace has been rebuilt there is only the empty clause that notes
contradictory assumptions, if there are any. -/
def draft (m : Machine) (size : Nat) : Draft :=
  if m.contradiction then ⟨#[⟨[], []⟩], #[.contradiction], .replicate (size + 1) none⟩
  else ⟨#[], #[], .replicate (size + 1) none⟩

/-- The antecedents of what is left of a clause: those of the clause and then, if `link`, the unit
clauses that shortened it, as far as they have new indices, each once. -/
def antecedents (link : Bool) (m : Machine) (d : Draft) (recorded : List Nat)
    (clause : WorkingClause) : Except Fault (List Nat) := do
  let remaining ← recorded.mapM (entry d.renumbered)
  let reasons ← (if link then clause.removedBy.filterMap m.reason? else []).mapM
    (entry d.renumbered)
  return ((remaining ++ reasons).filterMap id).eraseDups

/-- Rebuilds the clause at an index, if something is left of it. -/
def place (link : Bool) (t : Trace) (m : Machine) (d : Draft) (index : Nat) :
    Except Fault Draft := do
  let place ← position index
  match m.working[place]? with
  | some (some clause) =>
      if clause.status = .satisfied then return d
      else
        let c ← entry t.clauses place
        let antecedents ← m.antecedents link d c.antecedents clause
        match Trace.fault? (d.clauses.size + 1) clause.literals antecedents with
        | some cause => .error (.clauseDisorder cause)
        | none =>
            let renumbered ← withEntry d.renumbered index (some (d.clauses.size + 1))
            let origin := if clause.status = .simplified then .simplified index else .kept index
            return ⟨d.clauses.push ⟨clause.literals, antecedents⟩, d.origins.push origin,
              renumbered⟩
  | _ => return d

/-- A derived literal with the new index of its reason. -/
def derivedEntry (m : Machine) (d : Draft) (l : Literal) : Except Fault (Literal × Option Nat) :=
  match m.reason? l with
  | none => .ok (l, none)
  | some reason => do
      let number ← entry d.renumbered reason
      return (l, number)

/-- Rebuilds a trace of what is left of the clauses in scope. -/
def rebuild (link : Bool) (t : Trace) (scope : List Nat) (assumptions : List Literal)
    (m : Machine) : Except Fault ReducedTrace := do
  let d ← (scope.filter t.contains).foldlM (m.place link t) (m.draft t.size)
  let derived ← m.derived.mapM (m.derivedEntry d)
  return { clauses := d.clauses, origins := d.origins, assumptions, derived }

end Machine

/-! ### The whole reduction -/

/-- The indices of the clauses to reduce.  The clauses that the conflict was derived from are found
in the graph of derivations, both ends of whose edges are to be clauses. -/
def checkedScope (options : Options) (t : Trace) : Except Fault (List Nat) :=
  match options.coreOnly.value, t.conflict? with
  | true, some conflict => do
      t.edges.forM fun edge => do
        let place ← position edge.1
        let _ ← entry t.clauses place
      return (t.ancestors {conflict}).toList
  | _, _ => .ok t.indices

end Reduction

open Reduction in
/-- Reduces a trace on stores, if fewer than `limit` literals are to be propagated. -/
def Trace.reduceOnStores (limit : Nat) (options : Options) (t : Trace)
    (assumptions : List Literal) :
    Except Fault (Option (Except ReductionError ReducedTrace)) :=
  match t.disorder?, assumptionFault? assumptions with
  | some cause, _ => .error (.disorder cause)
  | none, some cause => .ok (some (.error cause))
  | none, none => do
      let assumed := assumptions.eraseDups
      let scope ← checkedScope options t
      let entered ← Machine.load t scope
      let m ← assumed.foldlM Machine.assume entered
      match ← m.propagate options.stopOnConflict.value limit with
      | none => return none
      | some m' =>
          let r ← m'.rebuild options.linkUnitReasons.value t scope assumed
          return some (.ok r)

end Refutation
