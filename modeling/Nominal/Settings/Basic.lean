import Nominal.Assignability
import Nominal.Logging.Level
import Nominal.Toml.Value

/-!
# Settings

The settings hold the defaults of assignability queries, whether closures are memoized, and how
events are logged. `Settings.warnings` names what is allowed but probably not meant; whether the
level is, depends on the dialect of the directives.
-/

namespace Nominal

/-- How events are logged. -/
structure LogSettings where
  /-- A level or directives. -/
  level : String := "info"
  /-- Whether a line is a record instead of text. -/
  json : Bool := false
  /-- Whether lines are written at all. -/
  stderr : Bool := true

/-- The settings. -/
structure Settings where
  assignability : AssignOptions := .standard
  memoize : Bool := true
  logging : LogSettings := {}

/-- Something allowed but probably not meant. -/
inductive Settings.Warning where
  /-- The level is neither a level nor a list of directives. -/
  | levelInvalid (value normalized : String)
  /-- Subtypes are never accepted. -/
  | invariantVariance (path : String)

/-- What is probably not meant in the settings. -/
def Settings.warnings {δ φ : Type} (dialect : Dialect δ φ) (settings : Settings) :
    List Settings.Warning :=
  let variance :=
    if settings.assignability.variance = .invariant then
      [Settings.Warning.invariantVariance "assignability.variance"]
    else []
  let level := settings.logging.level
  let normalized := normalizeLevel level
  if !(Text.trim level).isEmpty && (dialect.parse? normalized).isNone then
    variance ++ [.levelInvalid level normalized]
  else variance

end Nominal
