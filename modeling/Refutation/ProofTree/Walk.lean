import Refutation.ProofTree.Copying
import Refutation.ProofTree.Edit

/-! # Edits made in place

A derivation may be longer than a recursion can be deep, so what a node uses is found by a walk that
keeps the nodes still to be visited on a stack (`Walk`).  A node that comes up again is passed over;
when a node is visited for the first time its antecedents are put on the stack.  A walk may be made
to look for a node, and then it stops when that node comes up.

The calls that edit a tree are given here as they work on the tree in place, by walks and by copying
with a stack.  A call leaves a tree behind and gives an answer, also when it is refused
(`ProofTree.Reply`).  It is allowed a number of steps, and what matters is what it comes to when it
is allowed more and more of them (`ComesTo`). -/

namespace Refutation

/-- The result of a computation from some number of steps on. -/
def ComesTo {α : Type} (f : (limit : Nat) → Option α) (r : α) : Prop :=
  ∃ steps, ∀ limit, steps ≤ limit → f limit = some r

/-- A walk in progress. -/
structure Walk where
  /-- The stack, its top first: vertices still to be visited. -/
  todo : List Nat
  /-- The vertices visited. -/
  seen : Std.TreeSet Nat

namespace Walk

/-- Nothing has been visited, and the walk begins at a vertex. -/
def start (x : Nat) : Walk := ⟨[x], ∅⟩

/-- Takes the vertex `x` from the top of the stack and visits it, unless it was visited before.  The
last of its successors comes to lie on top. -/
def visit (next : Nat → List Nat) (w : Walk) (x : Nat) (rest : List Nat) : Walk :=
  if x ∈ w.seen then { w with todo := rest } else ⟨(next x).reverse ++ rest, w.seen.insert x⟩

/-- How a walk ends. -/
inductive Ending where
  /-- The vertex that the walk looked for is on top of the stack. -/
  | found
  /-- The stack is empty. -/
  | exhausted (seen : Std.TreeSet Nat)

/-- Visits vertices until the stack is empty or the vertex `sought?`, if there is one, comes up.
The walk may look at the top of the stack at most `limit` times. -/
def run? (next : Nat → List Nat) (sought? : Option Nat) : (limit : Nat) → Walk → Option Ending
  | 0, _ => none
  | limit + 1, w =>
      match w.todo with
      | [] => some (.exhausted w.seen)
      | x :: rest =>
          if sought? = some x then some .found else run? next sought? limit (w.visit next x rest)

end Walk

namespace ProofTree

/-- What a call leaves behind and what it answers. -/
structure Reply (α : Type) where
  tree : ProofTree
  answer : Except ProofTreeError α

/-- Appends the node `child` to the antecedents of the node `parent`.  The call is refused if a walk
from `child` finds `parent`. -/
def addInPlace? (limit : Nat) (p : ProofTree) (parent child : Nat) : Option (Reply Unit) :=
  if p.contains parent ∧ p.contains child then
    (Walk.run? p.graph.antecedents (some parent) limit (.start child)).map fun
      | .found => ⟨p, .error .cycle⟩
      | .exhausted _ => ⟨p.attach parent child, .ok ()⟩
  else some ⟨p, .error .missingNode⟩

/-- Copies the derivation of the root of `other` into the tree and appends the copied root to the
antecedents of the node `parent`.  The answer is the key of the copied root.  If the second part
were refused, the copy would stay. -/
def graftInPlace? (limit : Nat) (p : ProofTree) (parent : Nat) (other : ProofTree) :
    Option (Reply Nat) :=
  if p.contains parent then
    (Copying.result? limit p.slots other.graph other.root).bind fun copy =>
      ((copy.addedTo p).addInPlace? limit parent copy.key).map fun reply =>
        ⟨reply.tree, reply.answer.map fun _ => copy.key⟩
  else some ⟨p, .error .missingNode⟩

/-- The tree without the nodes whose keys are not in the set. -/
def retain (p : ProofTree) (used : Std.TreeSet Nat) : ProofTree :=
  { p with slots := p.slots.mapIdx fun key node => if key ∈ used then node else none }

/-- Removes the nodes that a walk from the root does not visit. -/
def dropUnusedInPlace? (limit : Nat) (p : ProofTree) : Option ProofTree :=
  (Walk.run? p.graph.antecedents none limit (.start p.root)).bind fun
    | .found => none
    | .exhausted used => some (p.retain used)

/-- Drops the antecedents of a node, and then removes the nodes that a walk from the root does not
visit any more. -/
def forgetInPlace? (limit : Nat) (p : ProofTree) (key : Nat) : Option ProofTree :=
  (p.clearAntecedents key).dropUnusedInPlace? limit

end ProofTree
end Refutation
