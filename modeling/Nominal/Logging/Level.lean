import Nominal.Logging.Dialect
import Nominal.Text.Blank

/-!
# The effective log filter

The level in the settings is a level by name or a list of directives; the environment may add
directives of its own. What cannot be read falls back step by step: both, the environment's alone,
the settings' alone, and in the end the level `info`.
-/

namespace Nominal

/-- The directives that a configured level stands for. Blanks at the ends and the case of a plain
level do not matter, and a blank level is `info`. -/
def normalizeLevel (text : String) : String :=
  let trimmed := Text.trim text
  if trimmed.isEmpty then "info"
  else
    match String.ofList (trimmed.toList.map Char.toLower) with
    | "trace" => "trace"
    | "debug" => "debug"
    | "info" => "info"
    | "warn" => "warn"
    | "warning" => "warn"
    | "error" => "error"
    | "off" => "off"
    | _ => trimmed

namespace Dialect

variable {δ φ : Type} (dialect : Dialect δ φ)

/-- The filter of a configured level alone. -/
def ofLevel (level : String) : φ :=
  (dialect.parse? (normalizeLevel level)).getD (dialect.collect [dialect.info])

/-- The filter of a configured level and the directives of the environment, if it has any. -/
def effective (level : String) (environment : Option String) : φ :=
  match (environment.map Text.trim).filter (fun text => !text.isEmpty) with
  | none => dialect.ofLevel level
  | some directives =>
      ((dialect.parse? (normalizeLevel level ++ "," ++ directives)).or
        (dialect.parse? directives)).getD (dialect.ofLevel level)

end Dialect

end Nominal
