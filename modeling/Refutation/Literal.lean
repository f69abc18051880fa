/-! # Literals

A literal is a signed 32-bit integer: its magnitude names a Boolean atom and its sign says
whether the atom is asserted or denied, so that `-l` is the complement of `l`.  Zero names no
atom and the least integer has no complement of its own; the other integers are the *proper*
literals (`Literal.Proper`).  Every operation is total all the same, since negation wraps at the
least integer.

The literals of a recorded clause are ordered by atom, the denial of an atom before its
assertion (`Literal.compareByAtom`). -/

namespace Refutation

/-- A literal: an atom together with a sign. -/
abbrev Literal := Int32

namespace Literal

/-- The atom of a literal is its magnitude. -/
def atom (l : Literal) : Nat := l.toInt.natAbs

/-- Whether a literal asserts its atom. -/
def polarity (l : Literal) : Bool := decide (0 < l)

/-- The literal over a 32-bit atom with the given polarity.  An atom beyond the signed range
wraps, so this names a literal over that atom only up to `2^31 - 1`. -/
def ofAtom (atom : UInt32) (polarity : Bool) : Literal :=
  if polarity then atom.toInt32 else -atom.toInt32

/-- An integer is a proper literal if it has an atom and a complement other than itself. -/
def Proper (l : Literal) : Prop := l ≠ 0 ∧ l ≠ Int32.minValue

instance (l : Literal) : Decidable l.Proper := inferInstanceAs (Decidable (_ ∧ _))

/-! ### The order of literals -/

/-- Literals are compared by atom first; of the two literals over an atom the denial is the
smaller. -/
def compareByAtom (a b : Literal) : Ordering := (compare (atom a) (atom b)).then (compare a b)

/-- The literals of a list in ascending order by atom. -/
def sortByAtom (ls : List Literal) : List Literal :=
  ls.mergeSort fun a b => (compareByAtom a b).isLE

theorem sortByAtom_perm (ls : List Literal) : (sortByAtom ls).Perm ls := List.mergeSort_perm ls _

@[simp]
theorem mem_sortByAtom {l : Literal} {ls : List Literal} : l ∈ sortByAtom ls ↔ l ∈ ls :=
  (sortByAtom_perm ls).mem_iff

end Literal
end Refutation
