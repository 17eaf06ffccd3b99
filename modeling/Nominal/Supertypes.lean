import Nominal.Erasure
import Nominal.Substitution

/-!
# Supertypes

`directSupertypes` lists the supertypes that one declaration gives, in order and without
repetition. `supertypes` is the closure: it starts with the type itself, and each type in it is
followed up in turn, its direct supertypes coming last unless equal types are there. So what can be
reached is listed in breadth-first order, each type once. With memoization the closure of a type is
computed once per trail, for the first of equal types that asks.
-/

namespace Nominal

/-- A type without declared supertypes lies below the universal supertype. -/
def orTop (types : List Ty) : List Ty := if types.isEmpty then [.top] else types

namespace Context

/-- The declaration of a name. A missing one is reported. -/
def declaration? (context : Context) (head : Named) : Query (Option Declaration) := do
  match context.env.find? head.name with
  | some declaration => return some declaration
  | none =>
      Query.report (.gap head.name)
      return none

/-- The direct supertypes of a name. A raw use of a generic declaration has raw supertypes. -/
def namedSupertypes (context : Context) (fuel : Nat) (head : Named) : Query (List Ty) := do
  if head.isTop || head.isPrimitive then return []
  match ← context.declaration? head with
  | none => return []
  | some declaration =>
      if declaration.params.isEmpty then return orTop (Ty.distinct declaration.supertypes)
      else
        return orTop (Ty.distinct (← declaration.supertypes.mapM (erase context.heap fuel)))

/-- The values of the parameters that the supertypes of an applied type may mention: those of its
own declaration and those of the type that encloses it. -/
def argumentsOf (context : Context) (declaration : Declaration) (owner : Option Ty)
    (args : List Ty) : Substitution :=
  let own := Substitution.ofArgs declaration args
  match owner with
  | some (.applied _ ownerRaw ownerArgs) =>
      match context.env.find? ownerRaw.name with
      | some enclosing =>
          (Substitution.ofArgs enclosing ownerArgs).foldl
            (fun map pair => map.insertNew pair.1 pair.2) own
      | none => own
  | _ => own

/-- The direct supertypes of an applied type. -/
def appliedSupertypes (context : Context) (owner : Option Ty) (raw : ClassName) (args : List Ty) :
    Query (List Ty) := do
  match ← context.declaration? raw with
  | none => return []
  | some declaration =>
      let map := context.argumentsOf declaration owner args
      let types := Ty.distinct (declaration.supertypes.map (fun t => t.substitute map))
      return if raw.isTop then types else orTop types

/-- The supertypes that all arrays have. -/
def arraySupertypes (context : Context) : List Ty :=
  Ty.distinct [.top, .named context.env.cloneable, .named context.env.serializable]

/-- The supertypes of a type that are reached in one step. Arrays follow their components, beside
the supertypes of all arrays, which are names; wildcards answer for their upper bound. -/
def directSupertypes (context : Context) (fuel : Nat) : Ty → Query (List Ty)
  | .named head => context.namedSupertypes fuel head
  | .applied owner raw args => context.appliedSupertypes owner raw args
  | .array component => do
      let types ← directSupertypes context fuel component
      return types.map Ty.array ++ context.arraySupertypes
  | .var param => return Ty.distinct (← Query.bounds context.heap param)
  | .wildcard upper _ => directSupertypes context fuel upper

/-- Add the direct supertypes of each type found so far, from the given position on, as long as
there are types at that position. -/
def closureFrom (context : Context) : Nat → TypeSet → Nat → Query TypeSet
  | 0, _, _ => .exhausted
  | fuel + 1, found, position =>
      match found.entries[position]? with
      | none => return found
      | some (t, _) => do
          let types ← context.directSupertypes fuel t
          closureFrom context fuel (found.insertAll types) (position + 1)

/-- The closure of a type under direct supertypes. -/
def closure (context : Context) (fuel : Nat) (t : Ty) : Query (List Ty) :=
  return (← context.closureFrom fuel (TypeSet.insert .empty t) 0).members

/-- The supertypes of a type, itself first, from the memo where it has them. -/
def supertypes (context : Context) (fuel : Nat) (t : Ty) : Query (List Ty) := do
  if context.memoize then
    match ← Query.memoized? t with
    | some members => return members
    | none =>
        let members ← context.closure fuel t
        Query.remember t members
        return members
  else context.closure fuel t

/-- Whether one type is among the supertypes of another. -/
def isSupertype (context : Context) (fuel : Nat) (above below : Ty) : Query Bool :=
  return (← context.supertypes fuel below).contains above

end Context

end Nominal
