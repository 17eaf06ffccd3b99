import Nominal.Bounds.Heap
import Nominal.Type.Map

/-!
# The cells of types with shared parts

`Ty.gathered` finds the cells that types own. Where parts are shared, a type can be far larger than
the memory that holds it, so each applied type is looked into once; `Ty.mem_gathered` says that this
finds what `Ty.ownedList` lists.
-/

namespace Nominal

/-- Whether two variables have the same handle. -/
def TypeVar.sameHandle (first second : TypeVar) : Bool := first.handle == second.handle

/-- A variable has the handle that it has. -/
theorem TypeVar.sameHandle_self (param : TypeVar) : param.sameHandle param = true :=
  beq_self_eq_true param.handle

namespace Ty

mutual
/-- Types that agree down to the handles of their variables own the same cells. -/
theorem owned_eq_of_alike : (s t : Ty) → alike TypeVar.sameHandle s t = true → s.owned = t.owned
  | .named _, t, h => by
      cases t <;> simp only [alike, Bool.false_eq_true] at h
      simp only [owned]
  | .applied owner _ args, t, h => by
      cases t <;> simp only [alike, Bool.and_eq_true, Bool.false_eq_true] at h
      simp only [owned, ownedOption_eq_of_alike owner _ h.1.2, ownedList_eq_of_alike args _ h.2]
  | .array component, t, h => by
      cases t <;> simp only [alike, Bool.false_eq_true] at h
      simp only [owned, owned_eq_of_alike component _ h]
  | .var ⟨_, _, handle⟩, t, h => by
      cases t with
      | var param =>
          obtain ⟨_, _, handle'⟩ := param
          obtain rfl : handle = handle' := by simpa [alike, TypeVar.sameHandle] using h
          cases handle <;> simp only [owned]
      | _ => simp [alike] at h
  | .wildcard upper lower, t, h => by
      cases t <;> simp only [alike, Bool.and_eq_true, Bool.false_eq_true] at h
      simp only [owned, owned_eq_of_alike upper _ h.1, ownedOption_eq_of_alike lower _ h.2]

/-- Optional types that agree down to handles own the same cells. -/
theorem ownedOption_eq_of_alike : (s t : Option Ty) →
    alikeOption TypeVar.sameHandle s t = true → ownedOption s = ownedOption t
  | none, t, h => by cases t <;> simp_all [alikeOption]
  | some s, t, h => by
      cases t <;> simp only [alikeOption, Bool.false_eq_true] at h
      simp only [ownedOption, owned_eq_of_alike s _ h]

/-- Lists of types that agree down to handles own the same cells. -/
theorem ownedList_eq_of_alike : (s t : List Ty) →
    alikeList TypeVar.sameHandle s t = true → ownedList s = ownedList t
  | [], t, h => by cases t <;> simp_all [alikeList]
  | first :: rest, t, h => by
      cases t <;> simp only [alikeList, Bool.and_eq_true, Bool.false_eq_true] at h
      simp only [ownedList, owned_eq_of_alike first _ h.1, ownedList_eq_of_alike rest _ h.2]
end

/-- Cells found so far, with the applied types that were looked into. -/
structure Gathered where
  seen : Buckets Ty TypeMap.height
  cells : List CellId
  /-- All cells of the types that were looked into are found. -/
  sound : ∀ key, ∀ t ∈ seen.get key, ∀ cell ∈ t.owned, cell ∈ cells

namespace Gathered

/-- Nothing found so far. -/
def empty : Gathered := ⟨.empty _, [], by simp⟩

/-- Whether a type was looked into. -/
def knows (state : Gathered) (t : Ty) : Bool :=
  (state.seen.get t.sketch).any
    (fun known => (decideAlike TypeVar.sameHandle TypeVar.sameHandle_self known t).1)

/-- The cells of a type that was looked into are found. -/
theorem mem_of_knows {state : Gathered} {t : Ty} (h : state.knows t = true) {cell : CellId}
    (member : cell ∈ t.owned) : cell ∈ state.cells := by
  obtain ⟨known, seen, alike⟩ := List.any_eq_true.1 h
  rw [(decideAlike TypeVar.sameHandle TypeVar.sameHandle_self known t).2] at alike
  exact state.sound _ known seen cell (owned_eq_of_alike known t alike ▸ member)

/-- Find a cell. -/
def addCell (state : Gathered) (cell : CellId) : Gathered where
  seen := state.seen
  cells := cell :: state.cells
  sound key t seen cell' member := List.mem_cons_of_mem _ (state.sound key t seen cell' member)

/-- Note that a type was looked into. -/
def note (state : Gathered) (t : Ty) (found : ∀ cell ∈ t.owned, cell ∈ state.cells) :
    Gathered where
  seen := state.seen.add t t.sketch
  cells := state.cells
  sound key u member := by
    rcases state.seen.get_add t t.sketch key with eq | eq
    · rw [eq, List.mem_cons] at member
      rcases member with rfl | member
      · exact found
      · exact state.sound key u member
    · exact state.sound key u (eq ▸ member)

/-- One state has the cells of another one and those of the given list. -/
def Adds (before after : Gathered) (cells : List CellId) : Prop :=
  ∀ cell, cell ∈ after.cells ↔ cell ∈ before.cells ∨ cell ∈ cells

/-- Finding nothing. -/
theorem Adds.nil (state : Gathered) : Adds state state [] := by simp [Adds]

/-- Finding one list after another. -/
theorem Adds.append {first second third : Gathered} {cells cells' : List CellId}
    (h : Adds first second cells) (h' : Adds second third cells') :
    Adds first third (cells ++ cells') := fun cell => by
  rw [h' cell, h cell, List.mem_append, or_assoc]

end Gathered

mutual
/-- Find the cells of a type. -/
def gather (state : Gathered) (t : Ty) : { after : Gathered // state.Adds after t.owned } :=
  match t with
  | .named _ => ⟨state, by simpa only [owned] using .nil state⟩
  | .applied owner raw args =>
      if known : state.knows (.applied owner raw args) then
        ⟨state, fun _ => ⟨.inl, fun h => h.elim id (Gathered.mem_of_knows known)⟩⟩
      else
        let owners := gatherOption state owner
        let all := gatherList owners.1 args
        ⟨all.1.note (.applied owner raw args) (by
            intro cell member
            simp only [owned] at member
            exact ((owners.2.append all.2) cell).2 (.inr member)),
          by simp only [owned]; exact owners.2.append all.2⟩
  | .array component =>
      let inner := gather state component
      ⟨inner.1, by simpa only [owned] using inner.2⟩
  | .var ⟨_, _, .owning cell⟩ =>
      ⟨state.addCell cell, fun _ => by simp only [owned, Gathered.addCell, List.mem_cons]; grind⟩
  | .var ⟨_, _, .back _⟩ => ⟨state, by simpa only [owned] using .nil state⟩
  | .wildcard upper lower =>
      let above := gather state upper
      let all := gatherOption above.1 lower
      ⟨all.1, by simpa only [owned] using above.2.append all.2⟩

/-- Find the cells of an optional type. -/
def gatherOption (state : Gathered) (t : Option Ty) :
    { after : Gathered // state.Adds after (ownedOption t) } :=
  match t with
  | none => ⟨state, by simpa only [ownedOption] using .nil state⟩
  | some t =>
      let inner := gather state t
      ⟨inner.1, by simpa only [ownedOption] using inner.2⟩

/-- Find the cells of several types. -/
def gatherList (state : Gathered) (types : List Ty) :
    { after : Gathered // state.Adds after (ownedList types) } :=
  match types with
  | [] => ⟨state, by simpa only [ownedList] using .nil state⟩
  | first :: rest =>
      let head := gather state first
      let all := gatherList head.1 rest
      ⟨all.1, by simpa only [ownedList] using head.2.append all.2⟩
end

/-- The cells that types own. -/
def gathered (types : List Ty) : List CellId := (gatherList .empty types).1.cells

/-- Gathering finds the cells that the types own. -/
theorem mem_gathered (types : List Ty) (cell : CellId) :
    cell ∈ gathered types ↔ cell ∈ ownedList types := by
  rw [gathered, (gatherList .empty types).2 cell]
  simp [Gathered.empty]

end Ty

end Nominal
