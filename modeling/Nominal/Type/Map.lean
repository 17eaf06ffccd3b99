import Nominal.Buckets
import Nominal.Type.Sketch

/-!
# Maps and sets of types

A `TypeMap` keeps values under types, in the order in which they came in. Equal types are one key,
and the first of them stays. Sketches lead to the entries, so that looking up a type does not
compare it with all others; `TypeMap.get?_eq_lookup` says that this finds what a search through all
entries finds.
-/

namespace Nominal

/-- How many binary digits of a sketch lead to an entry. -/
def TypeMap.height : Nat := 12

/-- Values under types, in order. -/
structure TypeMap (α : Type) where
  entries : Array (Ty × α)
  index : Buckets (Ty × α) TypeMap.height
  /-- The index finds what a search finds. -/
  lookup_index : ∀ t, (index.get t.sketch).lookup t = entries.toList.lookup t

namespace TypeMap

variable {α : Type}

/-- The map without entries. -/
def empty : TypeMap α := ⟨#[], .empty _, fun _ => by rw [Buckets.get_empty]⟩

/-- The entries in order. -/
def toList (map : TypeMap α) : List (Ty × α) := map.entries.toList

/-- The number of entries. -/
def size (map : TypeMap α) : Nat := map.entries.size

/-- The value under a type. -/
def get? (map : TypeMap α) (t : Ty) : Option α := (map.index.get t.sketch).lookup t

/-- Whether there is a value under a type. -/
def contains (map : TypeMap α) (t : Ty) : Bool := (map.get? t).isSome

/-- Equal types lead to the same value. -/
theorem lookup_congr {s t : Ty} (h : s == t) (entries : List (Ty × α)) :
    entries.lookup s = entries.lookup t := by
  induction entries with
  | nil => rfl
  | cons entry rest ih => rw [List.lookup_cons, List.lookup_cons, ih, BEq.congr_left h]

/-- A value under a new type is found under equal types and changes nothing under others. -/
theorem lookup_index_add (map : TypeMap α) (key : Ty) (value : α) (absent : map.get? key = none)
    (t : Ty) : ((map.index.add (key, value) key.sketch).get t.sketch).lookup t =
      (map.entries.push (key, value)).toList.lookup t := by
  rw [Array.toList_push, List.lookup_append, ← map.lookup_index t]
  by_cases h : t == key
  · rw [Ty.sketch_congr h, Buckets.get_add_self, lookup_congr h (map.index.get _)]
    rw [get?] at absent
    simp [absent, List.lookup_cons, h]
  · rcases map.index.get_add (key, value) key.sketch t.sketch with eq | eq <;>
      simp [eq, List.lookup_cons, h]

/-- Put a value under a type unless there is one. -/
def insertNew (map : TypeMap α) (key : Ty) (value : α) : TypeMap α :=
  match absent : map.get? key with
  | some _ => map
  | none =>
      ⟨map.entries.push (key, value), map.index.add (key, value) key.sketch,
        lookup_index_add map key value absent⟩

/-- Looking up a type finds the first entry under an equal type. -/
theorem get?_eq_lookup (map : TypeMap α) (t : Ty) : map.get? t = map.toList.lookup t :=
  map.lookup_index t

/-- There is a value under a type if an equal type is among the keys. -/
theorem contains_eq (map : TypeMap α) (t : Ty) :
    map.contains t = (map.toList.map Prod.fst).contains t := by
  rw [contains, get?_eq_lookup]
  induction map.toList with
  | nil => rfl
  | cons entry rest ih =>
      rw [List.lookup_cons, List.map_cons, List.contains_cons]
      cases h : t == entry.1 <;> simp [ih]

/-- A new entry comes last. -/
theorem toList_insertNew (map : TypeMap α) (key : Ty) (value : α) :
    (map.insertNew key value).toList =
      if map.contains key then map.toList else map.toList ++ [(key, value)] := by
  rw [insertNew, contains]
  split <;> simp [*, toList]

end TypeMap

/-- Types in order, equal ones once. -/
abbrev TypeSet := TypeMap Unit

namespace TypeSet

/-- The members in order. -/
def members (set : TypeSet) : List Ty := set.toList.map Prod.fst

/-- Add a type unless an equal one is there. -/
def insert (set : TypeSet) (t : Ty) : TypeSet := set.insertNew t ()

/-- Add several types in order. -/
def insertAll (set : TypeSet) (types : List Ty) : TypeSet := types.foldl insert set

/-- Membership is membership in the list. -/
theorem contains_eq (set : TypeSet) (t : Ty) : TypeMap.contains set t = set.members.contains t :=
  TypeMap.contains_eq set t

/-- A new member comes last. -/
theorem members_insert (set : TypeSet) (t : Ty) :
    (set.insert t).members =
      if set.members.contains t then set.members else set.members ++ [t] := by
  rw [← contains_eq, insert, members, TypeMap.toList_insertNew]
  split <;> simp [members]

/-- Members are added one after another, each if it is new. -/
theorem members_insertAll (set : TypeSet) (types : List Ty) :
    (set.insertAll types).members =
      types.foldl (fun kept t => if kept.contains t then kept else kept ++ [t]) set.members := by
  induction types generalizing set with
  | nil => rfl
  | cons first rest ih =>
      rw [insertAll, List.foldl_cons, List.foldl_cons, ← members_insert]
      exact ih _

end TypeSet

end Nominal
