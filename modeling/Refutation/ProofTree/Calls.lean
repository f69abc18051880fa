import Refutation.ClauseView
import Refutation.ProofTree.Walk

/-! # Calls that edit a proof tree

A call leaves a tree behind whether it succeeds or not.  A refused call leaves the tree as it was,
with one reservation: a graft copies a derivation before it attaches the copy, so that the copy
would stay, unattached, if only the second were refused.

The same calls can be made in place, by walks and by copying with a stack
(`ProofTree.afterInPlace?`). -/

namespace Refutation
namespace ProofTree

/-- A call that edits a tree. -/
inductive Call where
  /-- Copies the derivation of a clause. -/
  | insert (source : ClauseView)
  /-- Appends a node to the antecedents of another. -/
  | addAntecedent (parent child : Nat)
  /-- Copies the derivation of the root of another tree, and attaches it to a node. -/
  | graft (parent : Nat) (other : ProofTree)
  /-- Drops the antecedents of a node, and the nodes that are not used any more. -/
  | forgetAntecedents (key : Nat)
  /-- Drops the nodes that are not used. -/
  | dropUnused

/-- The tree after an attempt to append the node `child` to the antecedents of the node `parent`. -/
def afterAdding (p : ProofTree) (parent child : Nat) : ProofTree :=
  match p.addAntecedent parent child with
  | .ok q => q
  | .error _ => p

/-- The tree after a call. -/
def after (p : ProofTree) : Call → ProofTree
  | .insert source => p.insert source.graph source.name
  | .addAntecedent parent child => p.afterAdding parent child
  | .graft parent other =>
      if p.contains parent then (p.insert other.graph other.root).afterAdding parent p.nextKey
      else p
  | .forgetAntecedents key => p.forgetAntecedents key
  | .dropUnused => p.dropUnused

/-- The tree after some calls, one after the other. -/
def afterAll (p : ProofTree) (calls : List Call) : ProofTree := calls.foldl after p

/-- The tree after a call made in place, if `limit` steps are enough for each walk and each copy. -/
def afterInPlace? (limit : Nat) (p : ProofTree) : Call → Option ProofTree
  | .insert source =>
      (Copying.result? limit p.slots source.graph source.name).map (·.addedTo p)
  | .addAntecedent parent child => (p.addInPlace? limit parent child).map (·.tree)
  | .graft parent other => (p.graftInPlace? limit parent other).map (·.tree)
  | .forgetAntecedents key => p.forgetInPlace? limit key
  | .dropUnused => p.dropUnusedInPlace? limit

/-- The tree after some calls made in place, one after the other. -/
def afterAllInPlace? (limit : Nat) (p : ProofTree) (calls : List Call) : Option ProofTree :=
  calls.foldlM (afterInPlace? limit) p

/-- A call copies only clauses that the library gives out.  Keys are arbitrary. -/
def Call.Allowed : Call → Prop
  | .insert source => source.Obtained
  | .graft _ other => other.Obtained
  | .addAntecedent .. | .forgetAntecedents _ | .dropUnused => True

theorem after_graft_of_ok {p q other : ProofTree} {parent : Nat}
    (h : p.graft parent other = .ok q) : p.after (.graft parent other) = q := by
  unfold graft at h
  split at h
  · next hparent => simp only [after, hparent, if_true, afterAdding, h]
  · cases h

end ProofTree
end Refutation
