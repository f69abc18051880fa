import Refutation.Setting

/-! # Options of a reduction

A reduction has three settings, each a truth value that may be set to either value. -/

namespace Refutation.Reduction

/-- The settings of a reduction. -/
structure Options where
  /-- Stop propagating as soon as a clause has lost its last literal. -/
  stopOnConflict : Setting Bool := ⟨"stop_on_conflict", false, true, true⟩
  /-- Reduce only the clauses that the conflict of the trace was derived from. -/
  coreOnly : Setting Bool := ⟨"core_only", false, true, false⟩
  /-- Record the clause that gave a literal as an antecedent of the clauses that the literal
  shortened. -/
  linkUnitReasons : Setting Bool := ⟨"link_unit_reasons", false, true, true⟩
  deriving DecidableEq, Repr

namespace Options

/-- The default settings: the whole trace is reduced, up to the first conflict. -/
def standard : Options := {}

/-- The default settings, except that a conflict does not end the reduction. -/
def exhaustive : Options := { stopOnConflict := ⟨"stop_on_conflict", false, true, false⟩ }

/-- The default settings, except that unit clauses are not recorded as antecedents. -/
def unlinked : Options := { linkUnitReasons := ⟨"link_unit_reasons", false, true, false⟩ }

/-- The settings in order. -/
def settings (options : Options) : List (Setting Bool) :=
  [options.stopOnConflict, options.coreOnly, options.linkUnitReasons]

/-- The options with a change made to the setting of a name. -/
def mapNamed (options : Options) (name : String) (change : Setting Bool → Setting Bool) :
    Options :=
  let changed (s : Setting Bool) := if s.name = name then change s else s
  ⟨changed options.stopOnConflict, changed options.coreOnly, changed options.linkUnitReasons⟩

/-- The setting of a name, if there is one. -/
def find? (options : Options) (name : String) : Option (Setting Bool) :=
  options.settings.find? fun s => s.name == name

end Options
end Refutation.Reduction
