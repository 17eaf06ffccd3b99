import Nominal.Hierarchy.Declaration

/-!
# Substitution

A substitution maps type variables to types. Substituting keeps every node whose parts stay equal,
does not look inside bounds, and never leaves a wildcard as the bound of a wildcard: a lower bound
of a lower bound is a lower bound, an upper bound of an upper bound is an upper bound, and the mixed
cases accept every type.
-/

namespace Nominal

/-- A map from type variables to types, with distinct keys. -/
abbrev Substitution := List (TypeVar × Ty)

namespace Substitution

/-- Set the value of a variable. An equal key that is there already stays and takes the new
value. -/
def insert (map : Substitution) (key : TypeVar) (value : Ty) : Substitution :=
  match map with
  | [] => [(key, value)]
  | entry :: rest =>
      if entry.1 == key then (entry.1, value) :: rest else entry :: insert rest key value

/-- Set the value of a variable unless it has one. -/
def insertNew (map : Substitution) (key : TypeVar) (value : Ty) : Substitution :=
  if (map.lookup key).isSome then map else map.insert key value

/-- The substitution that maps keys to values in order. -/
def ofPairs (pairs : List (TypeVar × Ty)) : Substitution :=
  pairs.foldl (fun map pair => map.insert pair.1 pair.2) []

/-- The substitution of the parameters of a declaration by arguments, position by position. -/
def ofArgs (declaration : Declaration) (args : List Ty) : Substitution :=
  ofPairs (declaration.params.zip args)

end Substitution

namespace Ty

/-- The wildcard with the given lower bound. -/
def superOf : Ty → Ty
  | .wildcard _ (some lower) => .wildcard .top (some lower)
  | .wildcard _ none => unbounded
  | lower => .wildcard .top (some lower)

/-- The wildcard with the given upper bound. -/
def extendsOf : Ty → Ty
  | .wildcard upper none => .wildcard upper none
  | .wildcard _ (some _) => unbounded
  | upper => .wildcard upper none

mutual
/-- Replace the variables of a type by their values. -/
def replace (map : Substitution) : Ty → Ty
  | .named head => .named head
  | .var param => (map.lookup param).getD (.var param)
  | .applied owner raw args =>
      let owner' := replaceOption map owner
      let args' := replaceList map args
      if owner' == owner && args' == args then .applied owner raw args
      else .applied owner' raw args'
  | .array component =>
      let component' := replace map component
      if component' == component then .array component else .array component'
  | .wildcard _ (some lower) => superOf (replace map lower)
  | .wildcard upper none => extendsOf (replace map upper)

/-- Replace the variables of an optional type by their values. -/
def replaceOption (map : Substitution) : Option Ty → Option Ty
  | none => none
  | some t => some (replace map t)

/-- Replace the variables of several types by their values. -/
def replaceList (map : Substitution) : List Ty → List Ty
  | [] => []
  | first :: rest => replace map first :: replaceList map rest
end

/-- Apply a substitution to a type. The empty substitution leaves it alone. -/
def substitute (t : Ty) (map : Substitution) : Ty :=
  if map.isEmpty then t else t.replace map

end Ty

end Nominal
