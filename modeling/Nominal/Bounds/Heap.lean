import Nominal.Type.Formation

/-!
# Bounds of type variables

The bounds of a variable stand in a cell that is written once. Declaring a variable makes a new
cell, binding fills it, and reading an unfilled cell settles it on the universal supertype. While a
variable is unfilled, bounds that mention it hold it by a back reference, which does not keep its
cell alive; every cycle through bounds passes through such a reference. A cell that has been
released reads as the universal supertype and cannot be bound. Only cells that back references refer
to can be met again after their owners are gone, so the heap lists them.
-/

namespace Nominal

namespace Ty

mutual
/-- The cells that a type owns, at any depth. -/
def owned : Ty → List CellId
  | .named _ => []
  | .applied owner _ args => ownedOption owner ++ ownedList args
  | .array component => owned component
  | .var ⟨_, _, .owning cell⟩ => [cell]
  | .var ⟨_, _, .back _⟩ => []
  | .wildcard upper lower => owned upper ++ ownedOption lower

/-- The cells that an optional type owns. -/
def ownedOption : Option Ty → List CellId
  | none => []
  | some t => owned t

/-- The cells that several types own. -/
def ownedList : List Ty → List CellId
  | [] => []
  | first :: rest => owned first ++ ownedList rest
end

end Ty

/-- The content of a bounds cell. -/
inductive Slot where
  /-- Neither bound nor read so far. -/
  | unbound
  /-- Bound, or settled by a reader. -/
  | bound (bounds : List Ty)
  /-- No owner is left. -/
  | released

/-- The bounds cells of a program, numbered in the order of their declaration. -/
structure Heap where
  slots : Array Slot
  /-- The unreleased cells that back references may refer to. -/
  backed : List CellId

namespace Heap

/-- The heap without cells. -/
def empty : Heap := ⟨#[], []⟩

/-- The content of a cell. -/
def slot (heap : Heap) (cell : CellId) : Slot := heap.slots[cell]?.getD .released

/-- Replace the content of a cell. -/
def set (heap : Heap) (cell : CellId) (content : Slot) : Heap :=
  { heap with slots := heap.slots.setIfInBounds cell content }

/-- Writing a cell changes that cell alone. -/
theorem slot_set (heap : Heap) (cell other : CellId) (content : Slot) :
    (heap.set cell content).slot other =
      if cell = other ∧ cell < heap.slots.size then content else heap.slot other := by
  simp only [slot, set, Array.getElem?_setIfInBounds]
  by_cases h : cell = other
  · subst h
    by_cases hsize : cell < heap.slots.size <;> simp [hsize]
  · simp [h]

/-- What a reader of the cell sees. -/
def boundsAt (heap : Heap) (cell : CellId) : List Ty :=
  match heap.slot cell with
  | .bound bounds => bounds
  | _ => [.top]

/-- What a reader of the variable's bounds sees. -/
def bounds (heap : Heap) (param : TypeVar) : List Ty := heap.boundsAt param.cell

/-- Reading a cell settles it when it is unbound. -/
def settle (heap : Heap) (cell : CellId) : Heap :=
  match heap.slot cell with
  | .unbound => heap.set cell (.bound [.top])
  | _ => heap

/-- Settling a cell does not change what readers see. -/
@[simp]
theorem boundsAt_settle (heap : Heap) (cell other : CellId) :
    (heap.settle cell).boundsAt other = heap.boundsAt other := by
  cases h : heap.slot cell with
  | unbound =>
      simp only [settle, h, boundsAt, slot_set]
      by_cases hcell : cell = other ∧ cell < heap.slots.size
      · obtain ⟨rfl, _⟩ := hcell
        simp [*]
      · rw [if_neg hcell]
  | bound | released => simp only [settle, h]

/-- Read several cells. -/
def settleAll (heap : Heap) (cells : List CellId) : Heap := cells.foldl settle heap

/-- Reading cells does not change what later readers see. -/
@[simp]
theorem boundsAt_settleAll (heap : Heap) (cells : List CellId) (other : CellId) :
    (heap.settleAll cells).boundsAt other = heap.boundsAt other := by
  induction cells generalizing heap with
  | nil => rfl
  | cons cell rest ih => exact (ih (heap.settle cell)).trans (boundsAt_settle heap cell other)

/-- A new variable, which owns a new unbound cell. -/
def declare (heap : Heap) (name declaration : String) : TypeVar × Heap :=
  (⟨name, declaration, .owning heap.slots.size⟩, { heap with slots := heap.slots.push .unbound })

/-- New variables of one declaration. -/
def declareAll (heap : Heap) (declaration : String) : List String → List TypeVar × Heap
  | [] => ([], heap)
  | name :: rest =>
      let (param, heap) := heap.declare name declaration
      let (params, heap) := declareAll heap declaration rest
      (param :: params, heap)

/-- The variable as it is mentioned inside bounds that are being stored: an owner of an unbound
cell becomes a back reference. -/
def weakenVar (heap : Heap) (param : TypeVar) : TypeVar :=
  match param.handle, heap.slot param.cell with
  | .owning cell, .unbound => { param with handle := .back cell }
  | _, _ => param

mutual
/-- Replace the owners of unbound cells in a type by back references. -/
def weaken (heap : Heap) : Ty → Ty
  | .named head => .named head
  | .applied owner raw args => .applied (weakenOption heap owner) raw (weakenList heap args)
  | .array component => .array (weaken heap component)
  | .var param => .var (heap.weakenVar param)
  | .wildcard upper lower => .wildcard (weaken heap upper) (weakenOption heap lower)

/-- Replace the owners of unbound cells in an optional type by back references. -/
def weakenOption (heap : Heap) : Option Ty → Option Ty
  | none => none
  | some t => some (weaken heap t)

/-- Replace the owners of unbound cells in several types by back references. -/
def weakenList (heap : Heap) : List Ty → List Ty
  | [] => []
  | first :: rest => weaken heap first :: weakenList heap rest
end

/-- Whether a cell is unbound. -/
def isUnbound (heap : Heap) (cell : CellId) : Bool :=
  match heap.slot cell with
  | .unbound => true
  | _ => false

/-- List the cells that become the targets of back references when the given bounds are stored. -/
def noteBacked (heap : Heap) (bounds : List Ty) : Heap :=
  let targets := (Ty.ownedList bounds).filter heap.isUnbound
  { heap with backed := targets.foldr List.insert heap.backed }

/-- Give a variable its bounds. The bounds are checked first; then the cell must be unbound. -/
def bind (heap : Heap) (param : TypeVar) (bounds : List Ty) : Except Refusal Heap := do
  let bounds ← checkBounds param.name bounds
  match heap.slot param.cell with
  | .unbound =>
      return (heap.noteBacked bounds).set param.cell (.bound (heap.weakenList bounds))
  | _ => throw (.alreadyBound param.name)

end Heap

end Nominal
