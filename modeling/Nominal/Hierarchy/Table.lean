import Nominal.Hierarchy.Declaration
import Nominal.Refusal

/-!
# Class tables

A class table lists declarations with distinct names in the order of their registration. A
replacement keeps the place of what it replaces, and a removal keeps the order of the rest.
-/

namespace Nominal

/-- Declarations in the order of their registration. -/
structure Table where
  entries : List Declaration

namespace Table

/-- The table of the universal supertype and the interfaces of arrays. -/
def base : Table :=
  ⟨[⟨.top, [], none, []⟩, ⟨.cloneable, [], none, []⟩, ⟨.serializable, [], none, []⟩]⟩

/-- The declaration of a name. -/
def find? (table : Table) (name : String) : Option Declaration :=
  table.entries.find? (fun entry => entry.head.name == name)

/-- Whether the table has a declaration of the name. -/
def contains (table : Table) (name : String) : Bool := (table.find? name).isSome

/-- The declared names in order. -/
def names (table : Table) : List String := table.entries.map (fun entry => entry.head.name)

/-- Replace the entry of the same name in place, or add the declaration at the end. -/
def put (declaration : Declaration) : List Declaration → List Declaration
  | [] => [declaration]
  | entry :: rest =>
      if entry.head.name == declaration.head.name then declaration :: rest
      else entry :: put declaration rest

/-- After a declaration is put, its name finds it and every other name finds what it found. -/
theorem find?_put (declaration : Declaration) (entries : List Declaration) (name : String) :
    (put declaration entries).find? (fun entry => entry.head.name == name) =
      if declaration.head.name = name then some declaration
      else entries.find? (fun entry => entry.head.name == name) := by
  induction entries with
  | nil => by_cases h : declaration.head.name = name <;> simp [put, h]
  | cons entry rest ih =>
      by_cases h : entry.head.name = declaration.head.name
      · by_cases hname : declaration.head.name = name <;> simp [put, h, hname]
      · by_cases hname : entry.head.name = name
        · subst hname
          simp [put, h, Ne.symm h]
        · simp [put, h, hname, ih]

/-- Register a declaration, replacing one of the same name. -/
def upsert (table : Table) (declaration : Declaration) : Except Refusal Table :=
  if declaration.params.length ≠ declaration.head.arity then
    .error (.arityMismatch declaration.head.name declaration.head.arity declaration.params.length)
  else .ok ⟨put declaration table.entries⟩

/-- Register a declaration whose name is new. -/
def add (table : Table) (declaration : Declaration) : Except Refusal Table :=
  if table.contains declaration.head.name then .error (.duplicateClass declaration.head.name)
  else table.upsert declaration

/-- Remove the declaration of a name and return it. -/
def remove (table : Table) (name : String) : Except Refusal (Declaration × Table) :=
  match table.find? name with
  | none => .error (.unknownClass name)
  | some declaration =>
      .ok (declaration, ⟨table.entries.eraseP (fun entry => entry.head.name == name)⟩)

/-- The environment that a table describes. -/
def env (table : Table) : Env := ⟨table.find?, .cloneable, .serializable⟩

/-- The types that the table holds. -/
def types (table : Table) : List Ty := table.entries.flatMap Declaration.types

end Table

end Nominal
