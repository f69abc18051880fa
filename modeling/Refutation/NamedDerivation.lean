import Mathlib.Tactic.Choose
import Refutation.Derivation

/-! # Unfolded derivations with names

An unfolded derivation does not show which of its steps come from one clause.  Here each step
carries the name of its clause, so that all occurrences of a clause can be cut down to the clause
alone (`NamedDerivation.cutAt`). -/

namespace Refutation

/-- A tree of derivation steps that carry the names of the clauses derived. -/
inductive NamedDerivation where
  /-- The clause of a name, with its literals, derived by the given derivations. -/
  | step (name : Nat) (literals : List Literal) (antecedents : List NamedDerivation)

namespace NamedDerivation

mutual

/-- The derivation without the names. -/
def unnamed : NamedDerivation → Derivation
  | .step _ literals ds => .step literals (unnamedAll ds)

/-- Derivations without the names. -/
def unnamedAll : List NamedDerivation → List Derivation
  | [] => []
  | d :: ds => d.unnamed :: unnamedAll ds

end

mutual

/-- The derivation with every step of the clause `key` cut down to a step without antecedents. -/
def cutAt (key : Nat) : NamedDerivation → NamedDerivation
  | .step name literals ds => .step name literals (if name = key then [] else cutAllAt key ds)

/-- Derivations with every step of the clause `key` cut down. -/
def cutAllAt (key : Nat) : List NamedDerivation → List NamedDerivation
  | [] => []
  | d :: ds => d.cutAt key :: cutAllAt key ds

end

theorem unnamedAll_eq_map (ds : List NamedDerivation) : unnamedAll ds = ds.map unnamed := by
  induction ds with
  | nil => rfl
  | cons d ds ih => rw [unnamedAll, ih, List.map_cons]

theorem cutAllAt_eq_map (key : Nat) (ds : List NamedDerivation) :
    cutAllAt key ds = ds.map (cutAt key) := by
  induction ds with
  | nil => rfl
  | cons d ds ih => rw [cutAllAt, ih, List.map_cons]

end NamedDerivation

namespace ClauseGraph

variable {g : ClauseGraph} {i : Nat}

/-- `g.UnfoldsNamed i d`: following antecedents from clause `i` to the end gives the derivation `d`,
in which each step has the name and the literals of its clause. -/
inductive UnfoldsNamed (g : ClauseGraph) : Nat → NamedDerivation → Prop where
  | step {i : Nat} {c : Clause} {ds : List NamedDerivation} (hc : g.clause? i = some c)
      (hlength : ds.length = c.antecedents.length)
      (hds : ∀ (n a : Nat) (d : NamedDerivation), c.antecedents[n]? = some a → ds[n]? = some d →
        UnfoldsNamed g a d) :
      UnfoldsNamed g i (.step i c.literals ds)

theorem UnfoldsNamed.unfolds {d : NamedDerivation} (h : g.UnfoldsNamed i d) :
    g.Unfolds i d.unnamed := by
  induction h with
  | @step i c ds hc hlength hds ih =>
      rw [NamedDerivation.unnamed, NamedDerivation.unnamedAll_eq_map]
      refine .step hc (by rw [List.length_map, hlength]) fun n a e ha he => ?_
      rw [List.getElem?_map, Option.map_eq_some_iff] at he
      obtain ⟨d, hd, rfl⟩ := he
      exact ih n a d ha hd

theorem Unfolds.exists_unfoldsNamed {d : Derivation} (h : g.Unfolds i d) :
    ∃ d', g.UnfoldsNamed i d' ∧ d'.unnamed = d := by
  induction h with
  | @step i c ds hc hlength hds ih =>
      have hnamed : ∀ n : Fin ds.length, ∃ d',
          g.UnfoldsNamed (c.antecedents.get (n.cast hlength)) d' ∧ d'.unnamed = ds.get n := fun n =>
        ih n _ _ (List.getElem?_eq_getElem _) (List.getElem?_eq_getElem n.2)
      choose named hunfolds heq using hnamed
      refine ⟨.step i c.literals (List.ofFn named), .step hc (by simp [hlength]) ?_, ?_⟩
      · intro n a d' ha hd'
        rw [List.getElem?_ofFn, Option.dite_none_right_eq_some] at hd'
        obtain ⟨hn, hd'⟩ := hd'
        cases hd'
        obtain ⟨-, rfl⟩ := List.getElem?_eq_some_iff.mp ha
        exact hunfolds ⟨n, hn⟩
      · rw [NamedDerivation.unnamed, NamedDerivation.unnamedAll_eq_map, List.map_ofFn]
        congr 1
        exact List.ext_getElem (by simp) fun n hn hn' => by simp [heq]

end ClauseGraph
end Refutation
