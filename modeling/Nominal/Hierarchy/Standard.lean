import Nominal.Bounds.Heap
import Nominal.Hierarchy.Table

/-!
# The standard declarations

A small part of the language's own library: the reference types of primitives, strings, comparable
and enumerated types, and the core collections. Each entry describes a declaration as a function
of its type parameters; `Library.standard` installs the entries in order, none of which is refused
(`installAll_standard`). Apart from the parameter of enumerated types, which is bounded by its own
declaration, all parameters are left unbound.
-/

namespace Nominal

/-- Declarations together with the cells of their type parameters. -/
structure Library where
  heap : Heap
  table : Table

/-- A declaration as a function of its type parameters. -/
structure Library.Entry where
  name : String
  kind : Kind
  params : List String := []
  superclass : List Ty → Option Ty := fun _ => none
  interfaces : List Ty → List Ty := fun _ => []
  bounds : List Ty → List (List Ty) := fun _ => []

namespace Library

/-- A computation in two steps that succeeds succeeds in both. -/
theorem bind_eq_ok {α β : Type} {first : Except Refusal α} {second : α → Except Refusal β}
    {result : β} (h : first >>= second = .ok result) :
    ∃ value, first = .ok value ∧ second value = .ok result := by
  cases first with
  | error refusal => cases h
  | ok value => exact ⟨value, rfl, h⟩

/-- Declare the parameters of an entry, bind those that have bounds and register it. -/
def install (library : Library) (entry : Entry) : Except Refusal Library := do
  let (params, heap) := library.heap.declareAll entry.name entry.params
  let vars := params.map Ty.var
  let heap ← (params.zip (entry.bounds vars)).foldlM (fun heap pair => heap.bind pair.1 pair.2) heap
  let head : Named := ⟨entry.name, entry.kind, entry.params.length⟩
  let table ← library.table.add ⟨head, params, entry.superclass vars, entry.interfaces vars⟩
  return ⟨heap, table⟩

/-- Install entries in order. -/
def installAll (library : Library) (entries : List Entry) : Except Refusal Library :=
  entries.foldlM install library

/-- The library of the base table. -/
def base : Library := ⟨.empty, .base⟩

/-- A class without type parameters. -/
def plain (name : String) : Ty := .named ⟨name, .classType, 0⟩

/-- An interface of the library applied to arguments. -/
def interface (name : String) (args : List Ty) : Ty :=
  .applied none ⟨⟨name, .interfaceType, args.length⟩, rfl⟩ args

/-- A class of the library applied to arguments. -/
def generic (name : String) (args : List Ty) : Ty :=
  .applied none ⟨⟨name, .classType, args.length⟩, rfl⟩ args

/-- Values of the type are ordered among themselves. -/
def comparableTo (t : Ty) : Ty := interface "java.lang.Comparable" [t]

/-- The interface of all arrays that can be copied. -/
def cloneable : Ty := .named .cloneable

/-- The interface of all arrays that can be stored. -/
def serializable : Ty := .named .serializable

/-- A reference type for numbers. -/
def numeric (name : String) : Entry :=
  { name, kind := .classType
    superclass := fun _ => some (plain "java.lang.Number")
    interfaces := fun _ => [comparableTo (plain name)] }

/-- A reference type for values that are not numbers. -/
def scalar (name : String) : Entry :=
  { name, kind := .classType
    superclass := fun _ => some .top
    interfaces := fun _ => [serializable, comparableTo (plain name)] }

/-- The entries for scalars, strings and enumerated types. -/
def scalars : List Entry :=
  [{ name := "java.lang.Comparable", kind := .interfaceType, params := ["T"] },
    { name := "java.lang.CharSequence", kind := .interfaceType },
    { name := "java.lang.Runnable", kind := .interfaceType },
    { name := "java.lang.String", kind := .classType
      superclass := fun _ => some .top
      interfaces := fun _ =>
        [serializable, comparableTo (plain "java.lang.String"),
          .named ⟨"java.lang.CharSequence", .interfaceType, 0⟩] },
    { name := "java.lang.Number", kind := .classType
      superclass := fun _ => some .top
      interfaces := fun _ => [serializable] },
    numeric "java.lang.Byte", numeric "java.lang.Short", numeric "java.lang.Integer",
    numeric "java.lang.Long", numeric "java.lang.Float", numeric "java.lang.Double",
    scalar "java.lang.Boolean", scalar "java.lang.Character",
    { name := "java.lang.Void", kind := .classType, superclass := fun _ => some .top },
    { name := "java.lang.Enum", kind := .classType, params := ["E"]
      superclass := fun _ => some .top
      interfaces := fun vars => vars.map comparableTo ++ [serializable]
      bounds := fun vars => [[generic "java.lang.Enum" vars]] }]

/-- The entries for collections. -/
def collections : List Entry :=
  [{ name := "java.lang.Iterable", kind := .interfaceType, params := ["T"] },
    { name := "java.util.Collection", kind := .interfaceType, params := ["E"]
      interfaces := fun vars => [interface "java.lang.Iterable" vars] },
    { name := "java.util.List", kind := .interfaceType, params := ["E"]
      interfaces := fun vars => [interface "java.util.Collection" vars] },
    { name := "java.util.Set", kind := .interfaceType, params := ["E"]
      interfaces := fun vars => [interface "java.util.Collection" vars] },
    { name := "java.util.AbstractCollection", kind := .classType, params := ["E"]
      superclass := fun _ => some .top
      interfaces := fun vars => [interface "java.util.Collection" vars] },
    { name := "java.util.AbstractList", kind := .classType, params := ["E"]
      superclass := fun vars => some (generic "java.util.AbstractCollection" vars)
      interfaces := fun vars => [interface "java.util.List" vars] },
    { name := "java.util.ArrayList", kind := .classType, params := ["E"]
      superclass := fun vars => some (generic "java.util.AbstractList" vars)
      interfaces := fun vars => [interface "java.util.List" vars, cloneable, serializable] },
    { name := "java.util.Map", kind := .interfaceType, params := ["K", "V"] },
    { name := "java.util.HashMap", kind := .classType, params := ["K", "V"]
      superclass := fun _ => some .top
      interfaces := fun vars => [interface "java.util.Map" vars, cloneable, serializable] }]

/-- Every entry of the standard library can be installed after those before it. -/
theorem isSome_installAll : (base.installAll (scalars ++ collections)).toOption.isSome = true := by
  decide +kernel

/-- The standard library. -/
def standard : Library :=
  (base.installAll (scalars ++ collections)).toOption.get isSome_installAll

/-- The standard library comes about without a refusal. -/
theorem installAll_standard : base.installAll (scalars ++ collections) = .ok standard := by
  have hget (result : Except Refusal Library) (h : result.toOption.isSome = true) :
      result = .ok (result.toOption.get h) := by
    cases result with
    | error refusal => cases h
    | ok library => rfl
  exact hget _ isSome_installAll

/-- What is installed is registered under a new name. -/
theorem install_add {library next : Library} {entry : Entry}
    (h : library.install entry = .ok next) :
    ∃ declaration, library.table.add declaration = .ok next.table := by
  simp only [install] at h
  obtain ⟨heap, _, h⟩ := bind_eq_ok h
  obtain ⟨table, htable, h⟩ := bind_eq_ok h
  cases h
  exact ⟨_, htable⟩

/-- A property of tables that registration under new names keeps is kept by installing entries. -/
theorem installAll_table (holds : Table → Prop)
    (hadd : ∀ {table table' : Table} {declaration : Declaration},
      table.add declaration = .ok table' → holds table → holds table')
    {entries : List Entry} {library library' : Library}
    (h : library.installAll entries = .ok library') (hstart : holds library.table) :
    holds library'.table := by
  induction entries generalizing library with
  | nil =>
      cases h
      exact hstart
  | cons entry rest ih =>
      rw [installAll, List.foldlM_cons] at h
      obtain ⟨next, hnext, h⟩ := bind_eq_ok h
      obtain ⟨declaration, hregistered⟩ := install_add hnext
      exact ih h (hadd hregistered hstart)

end Library

end Nominal
