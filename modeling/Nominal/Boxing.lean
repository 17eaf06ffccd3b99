import Nominal.Lookup
import Nominal.Type.Basic

/-!
# Boxing

A boxing table gives the reference types that stand for primitives. Boxing replaces a primitive
that the table knows and leaves every other type alone.
-/

namespace Nominal

/-- The reference types of primitives, by the name of the primitive. -/
structure Boxing where
  entries : List (String × Named)

namespace Boxing

/-- The table that boxes nothing. -/
def empty : Boxing := ⟨[]⟩

/-- Set the reference type of a primitive. -/
def insert (boxing : Boxing) (primitive : String) (reference : Named) : Boxing :=
  ⟨(primitive, reference) :: boxing.entries.filter (fun entry => entry.1 != primitive)⟩

/-- An insertion changes the entry of its own name and no other. -/
theorem lookup_insert (boxing : Boxing) (primitive name : String) (reference : Named) :
    (boxing.insert primitive reference).entries.lookup name =
      if name = primitive then some reference else boxing.entries.lookup name := by
  rw [insert, List.lookup_cons]
  by_cases hname : name = primitive
  · rw [if_pos hname, beq_iff_eq.2 hname]
  · rw [if_neg hname, beq_eq_false_iff_ne.2 hname]
    exact lookup_filter_key (· != primitive) boxing.entries (bne_iff_ne.2 hname)

/-- The primitives of the language and their reference types. -/
def wrappers : List (String × String) :=
  [("boolean", "java.lang.Boolean"), ("byte", "java.lang.Byte"), ("short", "java.lang.Short"),
    ("char", "java.lang.Character"), ("int", "java.lang.Integer"), ("long", "java.lang.Long"),
    ("float", "java.lang.Float"), ("double", "java.lang.Double"), ("void", "java.lang.Void")]

/-- The table of the language's own reference types. -/
def standard : Boxing :=
  wrappers.foldl (fun boxing pair => boxing.insert pair.1 ⟨pair.2, .classType, 0⟩) empty

/-- The reference type of a primitive. -/
def boxed? (boxing : Boxing) (named : Named) : Option Named :=
  if named.isPrimitive then boxing.entries.lookup named.name else none

/-- The reference type of a boxable primitive, and any other type itself. -/
def box (boxing : Boxing) : Ty → Ty
  | .named head => .named ((boxing.boxed? head).getD head)
  | t => t

end Boxing

end Nominal
