import Refutation.Formula.Basic

/-! # Splitting with a stack, disjoining from the end

Disjunctions may be nested deeper than a recursion can go.  So a formula is split with a stack of
the formulas still to be split (`Splitting`), on which the left side of a disjunction comes to lie
on top of the right side.  Each part of the formula that it is split into comes to lie on top once
(`Splitting.stepsLeft_step?`).  A list of formulas is disjoined from its end (`Formula.disjoin`), so
that the disjunction is nested to the right. -/

namespace Refutation

/-- The number of parts that come up when a formula is split: its disjunctions, and what they are
disjunctions of. -/
def Formula.parts : Formula → Nat
  | .or left right => left.parts + right.parts + 1
  | .falsum | .atom _ | .count _ _ | .not _ => 1

/-- A splitting in progress. -/
structure Splitting where
  /-- The stack, its top first: formulas still to be split. -/
  todo : List Formula
  /-- The literals found, in order. -/
  found : List Formula
  deriving DecidableEq, Repr

namespace Splitting

/-- Nothing is found, and a formula is to be split. -/
def start (f : Formula) : Splitting := ⟨[f], []⟩

/-- Takes the formula on top from the stack, and puts back the sides of a disjunction. -/
def step? (s : Splitting) : Option Splitting :=
  match s.todo with
  | [] => none
  | .falsum :: rest => some { s with todo := rest }
  | .or left right :: rest => some { s with todo := left :: right :: rest }
  | literal :: rest => some ⟨rest, s.found ++ [literal]⟩

/-- The number of steps left. -/
def stepsLeft (s : Splitting) : Nat := s.todo.foldr (fun f count => f.parts + count) 0

theorem stepsLeft_step? {s s' : Splitting} (h : s.step? = some s') :
    s.stepsLeft = s'.stepsLeft + 1 := by
  unfold step? at h
  split at h
  · cases h
  · next rest htodo =>
    cases h
    simp only [stepsLeft, htodo, List.foldr_cons, Formula.parts]
    omega
  · next f g rest htodo =>
    cases h
    simp only [stepsLeft, htodo, List.foldr_cons, Formula.parts]
    omega
  · next literal rest hfalsum hor htodo =>
    cases h
    have hone : literal.parts = 1 := by
      cases literal with
      | or f g => exact (hor f g rfl).elim
      | falsum | atom | count | not => rfl
    simp only [stepsLeft, htodo, List.foldr_cons, hone]
    omega

/-- Takes steps until the stack is empty. -/
def run (s : Splitting) : List Formula :=
  match _h : s.step? with
  | none => s.found
  | some s' => run s'
termination_by s.stepsLeft
decreasing_by
  have := stepsLeft_step? (by assumption)
  omega

end Splitting

/-- The disjunction of a list of formulas, which are taken from its end. -/
def Formula.disjoin (fs : List Formula) : Formula :=
  match fs.reverse with
  | [] => .falsum
  | last :: others => others.foldl (fun disjunction f => .or f disjunction) last

end Refutation
