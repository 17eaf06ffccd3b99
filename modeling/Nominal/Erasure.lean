import Nominal.Query

/-!
# Erasure

Erasing drops type arguments and replaces variables and wildcards by the erasure of their first
upper bound. A variable that leads back to itself through variables erases to the universal
supertype.
-/

namespace Nominal

/-- The erasure of a type that was reached through the variables in `seen`. -/
def eraseAlong (heap : Heap) : Nat → List TypeVar → Ty → Query Ty
  | 0, _, _ => .exhausted
  | _ + 1, _, .named head => return .named head
  | _ + 1, _, .applied _ raw _ => return .named raw
  | fuel + 1, _, .array component => return .array (← eraseAlong heap fuel [] component)
  | fuel + 1, _, .wildcard upper _ => eraseAlong heap fuel [] upper
  | fuel + 1, seen, .var param =>
      if seen.contains param then return .top
      else do
        match (← Query.bounds heap param).head? with
        | some bound => eraseAlong heap fuel (param :: seen) bound
        | none => return .top

/-- The erasure of a type. -/
def erase (heap : Heap) (fuel : Nat) (t : Ty) : Query Ty := eraseAlong heap fuel [] t

/-- The class, interface or primitive that a type erases to, if it erases to one. -/
def erasedNamed? (heap : Heap) (fuel : Nat) (t : Ty) : Query (Option Named) :=
  return (← erase heap fuel t).asNamed?

/-- Whether a type erases to an interface. -/
def isInterfaceLike (heap : Heap) (fuel : Nat) (t : Ty) : Query Bool :=
  return (← erasedNamed? heap fuel t).any Named.isInterface

end Nominal
