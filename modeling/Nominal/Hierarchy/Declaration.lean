import Nominal.Type.Basic

/-!
# Declarations and environments

A declaration gives the type parameters and the declared supertypes of a class or interface. An
environment finds declarations by qualified name and names the two interfaces of all arrays. The
class of a type is taken to be the declaration of its name, whatever kind and arity the type gives.
A name without a declaration is a gap, not an error.
-/

namespace Nominal

/-- The declaration of a class or interface. Its supertypes may mention its own parameters. -/
structure Declaration where
  head : Named
  params : List TypeVar
  superclass : Option Ty
  interfaces : List Ty

namespace Declaration

/-- The declared superclass followed by the declared interfaces. -/
def supertypes (declaration : Declaration) : List Ty :=
  declaration.superclass.toList ++ declaration.interfaces

/-- The types that the declaration holds. -/
def types (declaration : Declaration) : List Ty :=
  declaration.params.map Ty.var ++ declaration.supertypes

end Declaration

/-- The interface of all arrays that can be copied. -/
def Named.cloneable : Named := ⟨"java.lang.Cloneable", .interfaceType, 0⟩

/-- The interface of all arrays that can be stored. -/
def Named.serializable : Named := ⟨"java.io.Serializable", .interfaceType, 0⟩

/-- The declarations that are known by name, and the interfaces of arrays. There is no other way
from a type to its class than by the name of the type. -/
structure Env where
  find? : String → Option Declaration
  cloneable : Named
  serializable : Named

end Nominal
