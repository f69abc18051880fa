import Refutation.ProofTree.Basic

/-! # Copying with a stack

A derivation may be longer than a recursion can be deep, so the clauses still to be copied are kept
on a stack (`Copying`).  A clause is put on the stack to be *expanded*: when it comes up it is put
back, to be *copied*, below those of its antecedents that have no copy yet.  When it comes up again
everything above it has been dealt with, and its antecedents have copies.  A clause that is used
more than once may stand on the stack more than once; it is passed over when it has a copy.

`ProofTree.insert` makes the same copies under other keys: it names them in the order in which they
are found from the clause, while here a clause is copied after its antecedents. -/

namespace Refutation

/-- A copy of a derivation in progress. -/
structure Copying where
  /-- The stack, its top first: clauses, each with whether its antecedents have been put on the
  stack. -/
  todo : List (Nat × Bool)
  /-- The keys of the copies made so far, by clause. -/
  keys : Std.TreeMap Nat Nat
  /-- The slots of the tree, behind which the copies are put. -/
  slots : Array (Option Clause)

namespace Copying

/-- Nothing is copied, and the clause is to be expanded. -/
def start (slots : Array (Option Clause)) (i : Nat) : Copying := ⟨[(i, false)], ∅, slots⟩

/-- The antecedents of a clause that have no copy yet, to be expanded, the last of them first. -/
def pushed (g : ClauseGraph) (s : Copying) (i : Nat) : List (Nat × Bool) :=
  ((g.antecedents i).filter (· ∉ s.keys)).reverse.map (·, false)

/-- The node for the copy of a clause, its antecedents being the copies of the antecedents. -/
def node? (g : ClauseGraph) (s : Copying) (i : Nat) : Option Clause :=
  (g.clause? i).map (Clause.renameAntecedents (s.keys[·]?))

/-- Takes the clause on top from the stack, and passes it over, expands it, or copies it. -/
def step? (g : ClauseGraph) (s : Copying) : Option Copying :=
  match s.todo with
  | [] => none
  | (i, expanded) :: rest =>
      if i ∈ s.keys then some { s with todo := rest }
      else if expanded then some ⟨rest, s.keys.insert i s.slots.size, s.slots.push (s.node? g i)⟩
      else some { s with todo := s.pushed g i ++ (i, true) :: rest }

/-- Takes steps until the stack is empty, but at most `limit` of them. -/
def run (g : ClauseGraph) : (limit : Nat) → Copying → Copying
  | 0, s => s
  | limit + 1, s =>
      match s.step? g with
      | none => s
      | some s' => run g limit s'

/-- What is left when the stack is empty. -/
structure Result where
  /-- The slots, those of the copies behind those that were there. -/
  slots : Array (Option Clause)
  /-- The key of the copy of the clause the copying began with. -/
  key : Nat
  /-- The keys of all copies, by clause. -/
  keys : Std.TreeMap Nat Nat

/-- Reads off the result.  If the clause the copying began with had no copy, it would be given one
without antecedents. -/
def result (g : ClauseGraph) (i : Nat) (s : Copying) : Result :=
  match s.keys[i]? with
  | some key => ⟨s.slots, key, s.keys⟩
  | none => ⟨s.slots.push ((g.clause? i).map fun c => ⟨c.literals, []⟩), s.slots.size, s.keys⟩

/-- Copies a clause and its derivation behind the slots, if `limit` steps are enough for it. -/
def result? (limit : Nat) (slots : Array (Option Clause)) (g : ClauseGraph) (i : Nat) :
    Option Result :=
  let s := run g limit (start slots i)
  if s.todo.isEmpty then some (s.result g i) else none

/-- The tree that holds the copies only, with the copy of the clause the copying began with as its
root. -/
def Result.tree (r : Result) : ProofTree := ⟨r.slots, r.key⟩

/-- The tree whose slots the copies were put behind, together with the copies. -/
def Result.addedTo (r : Result) (p : ProofTree) : ProofTree := { p with slots := r.slots }

/-- Copying a clause and its derivation comes to an end, with the result `r`. -/
def EndsWith (slots : Array (Option Clause)) (g : ClauseGraph) (i : Nat) (r : Result) : Prop :=
  ∃ steps, ∀ limit, steps ≤ limit → result? limit slots g i = some r

end Copying
end Refutation
