/-!
# Refusals

The operations that build types and tables are partial. A `Refusal` says why one of them declined,
with the parts that its message mentions.
-/

namespace Nominal

/-- Why an operation on types or tables was declined. -/
inductive Refusal where
  /-- The number of type arguments or parameters differs from the arity. -/
  | arityMismatch (raw : String) (expected actual : Nat)
  /-- A wildcard was given more than one bound on the same side. -/
  | tooManyBounds (side : String) (count : Nat)
  /-- A wildcard was given a lower bound and a proper upper bound. -/
  | conflictingBounds (upper lower : String)
  /-- A primitive or a wildcard was given as a bound. -/
  | invalidBound (bound : String)
  /-- A variable among the bounds of a variable does not stand alone. -/
  | mixedBounds (name : String)
  /-- A primitive was given as a type argument. -/
  | invalidArgument (raw argument : String)
  /-- A primitive was given type arguments. -/
  | invalidRaw (raw : String)
  /-- The bounds of the variable are settled, or its cell is gone. -/
  | alreadyBound (name : String)
  /-- The table has a declaration of that name. -/
  | duplicateClass (name : String)
  /-- The table has no declaration of that name. -/
  | unknownClass (name : String)
  deriving DecidableEq

/-- The text of a refusal. -/
def Refusal.message : Refusal → String
  | .arityMismatch raw expected actual =>
      s!"`{raw}` declares {expected} type parameter(s) but {actual} argument(s) were supplied"
  | .tooManyBounds side count => s!"wildcard accepts at most one {side} bound, got {count}"
  | .conflictingBounds upper lower =>
      s!"wildcard cannot combine `super {lower}` with `extends {upper}`"
  | .invalidBound bound => s!"`{bound}` is not a valid bound: bounds must be reference types"
  | .mixedBounds name =>
      s!"type variable `{name}` is bounded by a type variable and cannot declare further bounds"
  | .invalidArgument raw argument => s!"`{argument}` is not a valid type argument for `{raw}`"
  | .invalidRaw raw => s!"`{raw}` cannot be parameterized"
  | .alreadyBound name => s!"bounds of type variable `{name}` are already bound"
  | .duplicateClass name => s!"class `{name}` is already defined"
  | .unknownClass name => s!"unknown class `{name}`"

end Nominal
