/-! # Clause-shaped formulas

A formula is the constant false, a named atom, a constraint on how many members a named relation
has, the negation of a formula, or the disjunction of two.

Some constraints are complementary: a relation has *some* member exactly when it does not have
*no* member.  `Formula.negate` uses the complementary constraint where there is one and removes a
negation where there is one to remove; `Formula.normalised` rebuilds the negations in front of a
formula in this way, so that equivalent literals get one normal form.

A formula is read as a clause by splitting its disjunctions (`Formula.disjuncts`), and written
from a list of formulas by nesting disjunctions to the right (`Formula.disjunction`). -/

namespace Refutation

/-- A constraint on the number of members of a relation. -/
inductive Multiplicity where
  /-- At least one member. -/
  | some
  /-- No member. -/
  | no
  /-- Exactly one member. -/
  | one
  /-- At most one member. -/
  | lone
  deriving DecidableEq, Repr

namespace Multiplicity

/-- The multiplicity that holds exactly when this one does not, if there is one. -/
def complement? : Multiplicity → Option Multiplicity
  | .some => Option.some .no
  | .no => Option.some .some
  | .one | .lone => none

/-- The word for a multiplicity. -/
def word : Multiplicity → String
  | .some => "some"
  | .no => "no"
  | .one => "one"
  | .lone => "lone"

theorem complement?_complement? {m n : Multiplicity} (h : m.complement? = Option.some n) :
    n.complement? = Option.some m := by
  cases m <;> simp only [complement?, Option.some.injEq, reduceCtorEq] at h <;> subst h <;> rfl

end Multiplicity

/-- A disjunction of literals over named atoms and relations, nested in any way. -/
inductive Formula where
  /-- The empty disjunction. -/
  | falsum
  /-- A named Boolean atom. -/
  | atom (name : String)
  /-- A constraint on the number of members of a named relation. -/
  | count (multiplicity : Multiplicity) (relation : String)
  /-- The negation of a formula. -/
  | not (body : Formula)
  /-- The disjunction of two formulas. -/
  | or (left right : Formula)
  deriving DecidableEq, Repr

namespace Formula

/-! ### Negation -/

/-- The negation of a formula, without stacking a negation on a negation, and by the
complementary constraint where there is one. -/
def negate : Formula → Formula
  | .not body => body
  | .count multiplicity relation =>
      match multiplicity.complement? with
      | some complementary => .count complementary relation
      | none => .not (.count multiplicity relation)
  | f => .not f

/-- The formula with the negations in front of it rebuilt by `negate`. -/
def normalised : Formula → Formula
  | .not body => body.normalised.negate
  | f => f

/-- The normal form of the negation of a formula. -/
def complement (f : Formula) : Formula := f.normalised.negate

/-! ### Disjunctions -/

/-- The disjunction of a list of formulas, nested to the right; false for the empty list. -/
def disjunction : List Formula → Formula
  | [] => .falsum
  | [f] => f
  | f :: g :: rest => .or f (disjunction (g :: rest))

/-- A formula is a literal if it is neither a disjunction nor false. -/
def isLiteral : Formula → Bool
  | .falsum | .or _ _ => false
  | _ => true

/-- The literals of a formula read as a clause, from left to right: disjunctions are split, and
false contributes nothing. -/
def disjuncts : Formula → List Formula
  | .falsum => []
  | .or left right => left.disjuncts ++ right.disjuncts
  | f => [f]

theorem disjuncts_of_isLiteral {f : Formula} (h : f.isLiteral = true) : f.disjuncts = [f] := by
  cases f with
  | falsum | or => cases h
  | atom | count | not => rfl

theorem disjuncts_disjunction (fs : List Formula) :
    (disjunction fs).disjuncts = fs.flatMap disjuncts := by
  induction fs with
  | nil => rfl
  | cons f rest ih =>
      cases rest with
      | nil => simp [disjunction]
      | cons g rest => simp only [disjunction, disjuncts, ih, List.flatMap_cons]

/-! ### Text -/

/-- The formula as text.  The body of a negation is parenthesised unless it is a literal. -/
def text : Formula → String
  | .falsum => "false"
  | .atom name => name
  | .count multiplicity relation => multiplicity.word ++ " " ++ relation
  | .not body => if body.isLiteral then "!" ++ body.text else "!(" ++ body.text ++ ")"
  | .or left right => left.text ++ " | " ++ right.text

end Formula
end Refutation
