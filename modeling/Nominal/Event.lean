import Nominal.Type.Display

/-!
# Events

What queries and the start of logging report while they run. Every event has the level `debug`, a
target, a message and fields.
-/

namespace Nominal

/-- Something worth a line in a log. -/
inductive Event where
  /-- A name has no declaration and so no supertypes. -/
  | gap (name : String)
  /-- A raw type was accepted because its erasure fits. -/
  | rawAccepted (receiver payload : Ty)
  /-- Logging began with the given level and form. -/
  | started (level : String) (json : Bool)

/-- The value of a field of an event. -/
inductive FieldValue where
  | text (value : String)
  | flag (value : Bool)

/-- The text of a field's value. -/
def FieldValue.display : FieldValue → String
  | .text value => value
  | .flag value => if value then "true" else "false"

namespace Event

/-- The part of the program that reports the event. -/
def target : Event → String
  | .gap _ => "typelattice.supertypes"
  | .rawAccepted _ _ => "typelattice.assignable"
  | .started _ _ => "typelattice.config"

/-- What happened. -/
def message : Event → String
  | .gap _ => "no declaration available; treating type as having no supertypes"
  | .rawAccepted _ _ => "no substituted ancestor matches; accepting raw payload by erasure"
  | .started _ _ => "tracing initialized"

/-- The fields of the event in order. -/
def fields : Event → List (String × FieldValue)
  | .gap name => [("ty", .text name)]
  | .rawAccepted receiver payload =>
      [("receiver", .text receiver.display), ("payload", .text payload.display)]
  | .started level json => [("level", .text level), ("json", .flag json)]

end Event

end Nominal
