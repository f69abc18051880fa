import Refutation.Explanation

/-! # Well-formed proof trees

A tree is well formed if its root is in it, the antecedents of its nodes are in it, and no node is
used in its own derivation.  `ProofTree.Obtained` collects the trees that the operations of the
library can produce.  Keys are names only: copies may be made in any order, and a tree whose nodes
have other keys (`ProofTree.Rekeyed`) is one of the library as well. -/

namespace Refutation
namespace ProofTree

/-- The root is there, antecedents are there, and derivations do not run in circles. -/
structure WellFormed (p : ProofTree) : Prop where
  root_mem : p.contains p.root = true
  antecedent_mem : ∀ key c, p.node? key = some c → ∀ a ∈ c.antecedents, p.contains a = true
  acyclic : ∀ key, ∀ a ∈ p.graph.antecedents key, ¬p.graph.Uses a key

/-- The tree `q` is the tree `p` under other keys, the node `key` of `p` being the node `name key`
of `q`. -/
structure Rekeyed (p q : ProofTree) (name : Nat → Nat) : Prop where
  root_eq : q.root = name p.root
  /-- No two nodes come to share a key. -/
  name_inj : ∀ x y, p.contains x = true → p.contains y = true → name x = name y → x = y
  /-- A node keeps its literals and, under their new keys, its antecedents. -/
  node?_name : ∀ x c, p.node? x = some c →
    q.node? (name x) = some { c with antecedents := c.antecedents.map name }
  /-- There are no other nodes. -/
  exists_name : ∀ y, q.contains y = true → ∃ x, p.contains x = true ∧ y = name x

/-- The trees that come from leaves, clauses of well-formed traces and explanations by any sequence
of edits, whatever keys their nodes get. -/
inductive Obtained : ProofTree → Prop where
  | leaf (literals : List Literal) : Obtained (leaf literals)
  | ofTrace {t : Trace} {i : Nat} (ht : t.WellFormed) (hi : t.contains i = true) :
      Obtained (ofClause t.graph i)
  | ofNode {q : ProofTree} {key : Nat} (hq : Obtained q) (hkey : q.contains key = true) :
      Obtained (ofClause q.graph key)
  | explain {full : Trace} {reduced : ReducedTrace} {index : Nat} {p : ProofTree}
      (hfull : full.WellFormed) (hreduced : reduced.toTrace.WellFormed)
      (h : Refutation.explain full reduced index = .ok p) : Obtained p
  | insertClause {p : ProofTree} {t : Trace} {i : Nat} (hp : Obtained p) (ht : t.WellFormed)
      (hi : t.contains i = true) : Obtained (p.insert t.graph i)
  | insertNode {p q : ProofTree} {key : Nat} (hp : Obtained p) (hq : Obtained q)
      (hkey : q.contains key = true) : Obtained (p.insert q.graph key)
  | addAntecedent {p p' : ProofTree} {parent child : Nat} (hp : Obtained p)
      (h : p.addAntecedent parent child = .ok p') : Obtained p'
  | graft {p p' q : ProofTree} {parent : Nat} (hp : Obtained p) (hq : Obtained q)
      (h : p.graft parent q = .ok p') : Obtained p'
  | dropUnused {p : ProofTree} (hp : Obtained p) : Obtained p.dropUnused
  | forgetAntecedents {p : ProofTree} {key : Nat} (hp : Obtained p) :
      Obtained (p.forgetAntecedents key)
  | rekey {p q : ProofTree} {name : Nat → Nat} (hp : Obtained p) (h : p.Rekeyed q name) :
      Obtained q

theorem wellFormed_leaf (literals : List Literal) : (leaf literals).WellFormed where
  root_mem := rfl
  antecedent_mem key c h := by
    cases key with
    | zero =>
        cases h
        simp
    | succ key => simp [node?, leaf] at h
  acyclic key a ha := by
    cases key with
    | zero => simp [ClauseGraph.antecedents, graph, node?, leaf] at ha
    | succ key => simp [ClauseGraph.antecedents, graph, node?, leaf] at ha

end ProofTree
end Refutation
