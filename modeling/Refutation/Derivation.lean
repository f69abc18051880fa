import Refutation.ClauseGraph

/-! # Unfolded derivations

Following antecedents from a clause unfolds the clause into a tree that shows literals only: how
the clauses were named, and which of them were shared, is gone.  `ClauseGraph.Unfolds` says that
the unfolding comes to an end and what the whole tree is; there is at most one
(`ClauseGraph.Unfolds.unique`).  `ClauseGraph.unfold` is the tree cut off at a depth, so that it is
there for any graph. -/

namespace Refutation

/-- A tree of derivation steps. -/
inductive Derivation where
  /-- Where the tree is cut off, or the graph has no clause. -/
  | cut
  /-- Literals derived by the given derivations. -/
  | step (literals : List Literal) (antecedents : List Derivation)
  deriving Inhabited

namespace ClauseGraph

/-- The derivation of a clause, cut off at a depth. -/
def unfold (g : ClauseGraph) : (depth : Nat) → Nat → Derivation
  | 0, _ => .cut
  | depth + 1, i =>
      match g.clause? i with
      | none => .cut
      | some c => .step c.literals (c.antecedents.map (g.unfold depth))

/-- `g.Unfolds i d`: following antecedents from clause `i` to the end gives the derivation `d`, with
the literals of each clause in order and a derivation for each antecedent in order. -/
inductive Unfolds (g : ClauseGraph) : Nat → Derivation → Prop where
  | step {i : Nat} {c : Clause} {ds : List Derivation} (hc : g.clause? i = some c)
      (hlength : ds.length = c.antecedents.length)
      (hds : ∀ (n a : Nat) (d : Derivation), c.antecedents[n]? = some a → ds[n]? = some d →
        Unfolds g a d) :
      Unfolds g i (.step c.literals ds)

theorem eq_of_forall_antecedents {α : Type} {antecedents : List Nat} {ds es : List α}
    (hds : ds.length = antecedents.length) (hes : es.length = antecedents.length)
    (heq : ∀ (n a : Nat) (d e : α), antecedents[n]? = some a → ds[n]? = some d → es[n]? = some e →
      d = e) : ds = es := by
  apply List.ext_getElem (hds.trans hes.symm)
  intro n hn hn'
  exact heq n _ _ _ (List.getElem?_eq_getElem (hds ▸ hn)) (List.getElem?_eq_getElem hn)
    (List.getElem?_eq_getElem hn')

theorem Unfolds.unique {g : ClauseGraph} {i : Nat} {d e : Derivation} (hd : g.Unfolds i d)
    (he : g.Unfolds i e) : d = e := by
  induction hd generalizing e with
  | @step i c ds hc hlength hds ih =>
      cases he with
      | @step _ c' es hc' hlength' hes =>
          obtain rfl : c = c' := Option.some.inj (hc.symm.trans hc')
          congr 1
          exact eq_of_forall_antecedents hlength hlength' fun n a d e ha hd he =>
            ih n a d ha hd (hes n a e ha he)

/-- Two clauses unfold alike if their derivations are equal at every depth. -/
def UnfoldsLike (g : ClauseGraph) (i : Nat) (h : ClauseGraph) (j : Nat) : Prop :=
  ∀ depth, g.unfold depth i = h.unfold depth j

namespace UnfoldsLike

variable {g h k : ClauseGraph} {i j l : Nat}

theorem refl (g : ClauseGraph) (i : Nat) : UnfoldsLike g i g i := fun _ => rfl

theorem symm (e : UnfoldsLike g i h j) : UnfoldsLike h j g i := fun depth => (e depth).symm

theorem trans (e : UnfoldsLike g i h j) (e' : UnfoldsLike h j k l) : UnfoldsLike g i k l :=
  fun depth => (e depth).trans (e' depth)

end UnfoldsLike

theorem agrees_of_unfoldsLike {g h : ClauseGraph} {i j : Nat} {c d : Clause}
    (e : UnfoldsLike g i h j) (hc : g.clause? i = some c) (hd : h.clause? j = some d) :
    c.agrees d = true := by
  have e1 := e 1
  simp only [unfold, hc, hd, Derivation.step.injEq] at e1
  have hlen := congrArg List.length e1.2
  simp only [List.length_map] at hlen
  simp [Clause.agrees, e1.1, hlen]

end ClauseGraph
end Refutation
