import Std.Data.TreeMap
import Refutation.ClauseGraph
import Refutation.Trace.Basic

/-! # Proof trees

A proof tree is a clause together with its derivation, detached from where it came from so that
it can be edited.  A clause used several times in the derivation is one node, so the tree is in
fact an acyclic graph with a root.

A node is named by a key, the position of its slot.  A slot is never used again: when its node is
removed it stays empty, and its key is dead for good.

The derivation of a clause of any graph is copied node by node (`ProofTree.copyFrom`), each clause
once, so that the copy shares nodes exactly as the graph shares clauses. -/

namespace Refutation

/-- A clause and its derivation, as nodes named by keys. -/
structure ProofTree where
  /-- The node of each key handed out, or nothing if the node was removed. -/
  slots : Array (Option Clause)
  /-- The key of the clause the tree is a derivation of. -/
  root : Nat
  deriving DecidableEq, Repr

namespace ProofTree

/-- The node of a key, if it is in the tree. -/
def node? (p : ProofTree) (key : Nat) : Option Clause := p.slots[key]?.join

/-- Whether the node of a key is in the tree. -/
def contains (p : ProofTree) (key : Nat) : Bool := (p.node? key).isSome

/-- The number of nodes in the tree, used by the root or not. -/
def size (p : ProofTree) : Nat := p.slots.countP Option.isSome

/-- Whether there is no node. -/
def isEmpty (p : ProofTree) : Bool := p.size == 0

/-- The key that the next new node gets. -/
def nextKey (p : ProofTree) : Nat := p.slots.size

/-- The tree as a graph of clauses named by their keys. -/
def graph (p : ProofTree) : ClauseGraph := ⟨p.slots.size, p.node?⟩

/-- The keys of the nodes that the root uses, the root first. -/
def derivation (p : ProofTree) : List Nat := p.graph.derivation p.root

/-- Whether two trees are the same derivation. -/
def sameAs (p q : ProofTree) : Bool := p.graph.sameDerivation p.root q.graph q.root

/-- The nodes that the root uses, renumbered from 0 in the order of `derivation`. -/
def listing (p : ProofTree) : List Clause :=
  let keys := p.derivation
  let number : Std.TreeMap Nat Nat := .ofList keys.zipIdx
  keys.filterMap fun key => (p.node? key).map (Clause.renameAntecedents (number[·]?))

/-! ### Construction -/

/-- The tree of a clause without antecedents. -/
def leaf (literals : List Literal) : ProofTree := ⟨#[some ⟨literals, []⟩], 0⟩

/-- The clauses used to derive a clause, each paired with the key that its copy gets if the first
copy gets the key `start`. -/
def copyKeys (start : Nat) (g : ClauseGraph) (i : Nat) : List (Nat × Nat) :=
  (g.derivation i).zipIdx start

/-- Copies of the clauses used to derive a clause, their antecedents renamed to the keys of the
copies. -/
def copyFrom (start : Nat) (g : ClauseGraph) (i : Nat) : List (Option Clause) :=
  let key : Std.TreeMap Nat Nat := .ofList (copyKeys start g i)
  (g.derivation i).map fun source =>
    (g.clause? source).map (Clause.renameAntecedents (key[·]?))

/-- A copy of a clause and its derivation. -/
def ofClause (g : ClauseGraph) (i : Nat) : ProofTree := ⟨(copyFrom 0 g i).toArray, 0⟩

/-- Copies a clause and its derivation into the tree, attached to no node; the copied clause gets
the key `nextKey`. -/
def insert (p : ProofTree) (g : ClauseGraph) (i : Nat) : ProofTree :=
  { p with slots := p.slots ++ (copyFrom p.nextKey g i).toArray }

/-! ### Lookup -/

theorem contains_iff {p : ProofTree} {key : Nat} :
    p.contains key = true ↔ ∃ c, p.node? key = some c := by
  simp [contains, Option.isSome_iff_exists]

theorem lt_nextKey_of_contains {p : ProofTree} {key : Nat} (h : p.contains key = true) :
    key < p.nextKey := by
  obtain ⟨c, hc⟩ := contains_iff.mp h
  simp only [node?, Option.join_eq_some_iff] at hc
  exact (Array.getElem?_eq_some_iff.mp hc).1

theorem node?_insert_of_lt {p : ProofTree} {g : ClauseGraph} {i key : Nat} (h : key < p.nextKey) :
    (p.insert g i).node? key = p.node? key := by
  simp only [node?, insert]
  rw [Array.getElem?_append_left h]

end ProofTree

/-- A detached copy of the clause at an index of a trace and its derivation, if there is such a
clause. -/
def Trace.proofTree? (t : Trace) (i : Nat) : Option ProofTree :=
  if t.contains i then some (.ofClause t.graph i) else none

end Refutation
