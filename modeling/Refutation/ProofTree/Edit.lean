import Std.Data.TreeSet
import Refutation.Error
import Refutation.ProofTree.Basic

/-! # Editing proof trees

An antecedent may be added to a node unless the node would then be used in its own derivation; a
whole tree may be copied in as an antecedent (`ProofTree.graft`); the antecedents of a node may be
dropped, together with the nodes that only they used (`ProofTree.forgetAntecedents`). -/

namespace Refutation
namespace ProofTree

/-! ### Adding antecedents -/

/-- Whether the node `parent` is used in the derivation of the node `child`, or is that node. -/
def uses (p : ProofTree) (child parent : Nat) : Bool := (p.graph.derivation child).contains parent

/-- The tree with `child` appended to the antecedents of the node `parent`. -/
def attach (p : ProofTree) (parent child : Nat) : ProofTree :=
  { p with
    slots := p.slots.modify parent
      (Option.map fun c => { c with antecedents := c.antecedents ++ [child] }) }

/-- Appends the node `child` to the antecedents of the node `parent`, unless one of them is not
in the tree or `parent` is used in the derivation of `child`. -/
def addAntecedent (p : ProofTree) (parent child : Nat) : Except ProofTreeError ProofTree :=
  if p.contains parent ∧ p.contains child then
    if p.uses child parent then .error .cycle else .ok (p.attach parent child)
  else .error .missingNode

/-- Copies the derivation of the root of `other` into the tree, and appends the copied root to
the antecedents of the node `parent`.  The copied root gets the key `nextKey`. -/
def graft (p : ProofTree) (parent : Nat) (other : ProofTree) : Except ProofTreeError ProofTree :=
  if p.contains parent then
    (p.insert other.graph other.root).addAntecedent parent p.nextKey
  else .error .missingNode

/-! ### Removing nodes -/

/-- Removes the nodes that the root does not use. -/
def dropUnused (p : ProofTree) : ProofTree :=
  let used : Std.TreeSet Nat := .ofList p.derivation
  { p with slots := p.slots.mapIdx fun key node => if key ∈ used then node else none }

/-- The tree with the antecedents of a node dropped. -/
def clearAntecedents (p : ProofTree) (key : Nat) : ProofTree :=
  { p with slots := p.slots.modify key (Option.map fun c => { c with antecedents := [] }) }

/-- Drops the antecedents of a node, and then every node that the root no longer uses. -/
def forgetAntecedents (p : ProofTree) (key : Nat) : ProofTree :=
  (p.clearAntecedents key).dropUnused

/-! ### What an edit keeps -/

@[simp]
theorem root_dropUnused (p : ProofTree) : p.dropUnused.root = p.root := rfl

theorem node?_dropUnused (p : ProofTree) (key : Nat) :
    p.dropUnused.node? key = if key ∈ p.derivation then p.node? key else none := by
  simp only [node?, dropUnused, Array.getElem?_mapIdx, Std.TreeSet.mem_ofList,
    List.contains_iff_mem]
  cases p.slots[key]? with
  | none => simp
  | some node => by_cases h : key ∈ p.derivation <;> simp [h]

theorem node?_attach_of_ne {p : ProofTree} {parent child key : Nat} (h : parent ≠ key) :
    (p.attach parent child).node? key = p.node? key := by
  simp only [node?, attach, Array.getElem?_modify, if_neg h]

theorem node?_attach_self {p : ProofTree} {parent child : Nat} :
    (p.attach parent child).node? parent =
      (p.node? parent).map fun c => { c with antecedents := c.antecedents ++ [child] } := by
  simp only [node?, attach, Array.getElem?_modify, if_true]
  cases p.slots[parent]? <;> simp

theorem addAntecedent_eq_missingNode {p : ProofTree} {parent child : Nat} :
    p.addAntecedent parent child = .error .missingNode ↔
      ¬(p.contains parent = true ∧ p.contains child = true) := by
  unfold addAntecedent
  split
  · split <;> simp_all
  · simp_all

end ProofTree
end Refutation
