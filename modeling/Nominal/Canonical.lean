import Nominal.Hierarchy.Declaration
import Nominal.Type.Formation

/-!
# Canonical forms

A generic name without arguments stands for the name applied to the parameters of its declaration.
A type is raw when its canonical form differs from it.
-/

namespace Nominal

namespace Env

/-- The canonical form of a name. -/
def canonicalNamed (env : Env) (head : Named) : Ty :=
  if head.isPrimitive then .named head
  else
    match env.find? head.name with
    | none => .named head
    | some declaration =>
        if declaration.params.isEmpty then .named head
        else
          (Ty.applied? none declaration.head (declaration.params.map Ty.var)).toOption.getD
            (.named head)

/-- The canonical form of a type. Types other than names and arrays of them are canonical. -/
def canonical (env : Env) : Ty → Ty
  | .named head => env.canonicalNamed head
  | .array component =>
      let component' := canonical env component
      if component' == component then .array component else .array component'
  | t => t

/-- Whether a type is a raw use of a generic declaration. -/
def isRaw (env : Env) (t : Ty) : Bool := env.canonical t != t

end Env

end Nominal
