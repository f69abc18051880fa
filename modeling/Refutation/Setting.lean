/-! # Settings

A setting is a named value with bounds; it takes a new value exactly when the value lies within
the bounds (`Setting.set?_eq_some_iff`). -/

namespace Refutation

/-- A named value that may be changed within bounds. -/
structure Setting (α : Type) where
  name : String
  /-- The least value allowed. -/
  min : α
  /-- The greatest value allowed. -/
  max : α
  value : α
  deriving DecidableEq, Repr

namespace Setting

variable {α : Type} [LE α] [DecidableLE α]

/-- The setting with a new value, if the value lies within the bounds. -/
def set? (s : Setting α) (value : α) : Option (Setting α) :=
  if s.min ≤ value ∧ value ≤ s.max then some { s with value := value } else none

theorem set?_eq_some_iff {s t : Setting α} {value : α} :
    s.set? value = some t ↔ (s.min ≤ value ∧ value ≤ s.max) ∧ t = { s with value := value } := by
  unfold set?
  split <;> simp_all [eq_comm]

end Setting
end Refutation
