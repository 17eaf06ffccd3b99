import Nominal.Refusal
import Nominal.Type.Display

/-!
# Formation of types

Checked constructors. An applied type has a raw type that is not primitive, as many arguments as
the raw type expects and no primitive argument. A wildcard has at most one bound on each side,
both of them reference types, and no proper upper bound beside a lower one. The first rule that
fails, in this order, gives the refusal.
-/

namespace Nominal

/-- A bound must be a type of references: neither a primitive nor a wildcard. -/
def checkBound (bound : Ty) : Except Refusal Unit :=
  if bound.isPrimitive || bound.isWildcard then .error (.invalidBound bound.display) else .ok ()

namespace Ty

/-- Apply a generic type to arguments, as a member of `owner` if there is one. -/
def applied? (owner : Option Ty) (raw : Named) (args : List Ty) : Except Refusal Ty :=
  match raw.asClass? with
  | none => .error (.invalidRaw raw.name)
  | some head =>
      if args.length ≠ raw.arity then .error (.arityMismatch raw.name raw.arity args.length)
      else
        match args.find? isPrimitive with
        | some argument => .error (.invalidArgument raw.name argument.display)
        | none => .ok (.applied owner head args)

/-- The wildcard with the given upper and lower bounds. -/
def wildcard? (uppers lowers : List Ty) : Except Refusal Ty := do
  if 1 < uppers.length then throw (.tooManyBounds "upper" uppers.length)
  if 1 < lowers.length then throw (.tooManyBounds "lower" lowers.length)
  uppers.forM checkBound
  lowers.forM checkBound
  match uppers.head?, lowers.head? with
  | some upper, some lower =>
      if upper.isTop then return .wildcard upper (some lower)
      else throw (.conflictingBounds upper.display lower.display)
  | some upper, none => return .wildcard upper none
  | none, lower => return .wildcard .top lower

/-- The wildcard for subtypes of a bound. -/
def extends? (bound : Ty) : Except Refusal Ty := wildcard? [bound] []

/-- The wildcard for supertypes of a bound. -/
def super? (bound : Ty) : Except Refusal Ty := wildcard? [] [bound]

end Ty

/-- The bounds of a variable: an empty list stands for the universal supertype, every bound is a
type of references, and a variable among them stands alone. -/
def checkBounds (name : String) (bounds : List Ty) : Except Refusal (List Ty) := do
  if bounds.isEmpty then return [.top]
  bounds.forM checkBound
  if 1 < bounds.length && bounds.any Ty.isVar then throw (.mixedBounds name)
  return bounds

end Nominal
