import Nominal.Bounds.Release
import Nominal.Proofs.Equality
import Nominal.Supertypes

/-!
# Bounds are well formed

Bounds are checked before they are stored. So in every heap that the operations on heaps make, what
a reader sees as the bounds of a variable is a list of reference types in which a variable stands
alone. `Heap.Made` collects those heaps and `Heap.Formed` is the invariant.
-/

namespace Nominal

/-- Bounds are neither primitives nor wildcards, and a variable among them stands alone. -/
structure FormedBounds (bounds : List Ty) : Prop where
  reference : ∀ bound ∈ bounds, bound.isPrimitive = false ∧ bound.isWildcard = false
  alone : ∀ bound ∈ bounds, bound.isVar = true → bounds = [bound]

/-- The universal supertype is a well formed bound. -/
theorem formedBounds_top : FormedBounds [.top] where
  reference bound h := by
    cases List.mem_singleton.1 h
    exact ⟨rfl, rfl⟩
  alone bound h hvar := by
    cases List.mem_singleton.1 h
    cases hvar

/-- A bound passes the check if it is neither a primitive nor a wildcard. -/
theorem checkBound_iff {bound : Ty} :
    checkBound bound = .ok () ↔ bound.isPrimitive = false ∧ bound.isWildcard = false := by
  rw [checkBound, ← Bool.or_eq_false_iff]
  cases bound.isPrimitive || bound.isWildcard <;> simp

/-- Bounds pass the check one by one if none is a primitive or a wildcard. -/
theorem forM_checkBound_iff {bounds : List Ty} : bounds.forM checkBound = .ok () ↔
    ∀ bound ∈ bounds, bound.isPrimitive = false ∧ bound.isWildcard = false := by
  induction bounds with
  | nil => exact ⟨fun _ => List.forall_mem_nil _, fun _ => rfl⟩
  | cons bound rest ih =>
      rw [List.forall_mem_cons, ← ih, ← checkBound_iff]
      change (checkBound bound >>= fun _ => rest.forM checkBound) = .ok () ↔ _
      cases checkBound bound with
      | error refusal => exact ⟨nofun, nofun⟩
      | ok _ => exact ⟨fun h => ⟨rfl, h⟩, And.right⟩

/-- Bounds pass the check exactly if they are well formed. Then they are kept, or the universal
supertype stands for none. -/
theorem checkBounds_iff {name : String} {bounds checked : List Ty} :
    checkBounds name bounds = .ok checked ↔ FormedBounds bounds ∧ checked = orTop bounds := by
  cases hempty : bounds.isEmpty with
  | true =>
      cases List.isEmpty_iff.1 hempty
      change Except.ok [.top] = Except.ok checked ↔ _
      exact ⟨fun h => ⟨⟨nofun, nofun⟩, (Except.ok.inj h).symm⟩, fun h => h.2 ▸ rfl⟩
  | false =>
      have halone : (∀ bound ∈ bounds, bound.isVar = true → bounds = [bound]) ↔
          (decide (1 < bounds.length) && bounds.any Ty.isVar) = false := by
        match bounds with
        | [] => simp
        | [bound] => simp
        | first :: second :: rest => simp
      rw [checkBounds, orTop, hempty]
      change (bounds.forM checkBound >>= fun _ =>
        if 1 < bounds.length && bounds.any Ty.isVar then Except.error (.mixedBounds name)
        else Except.ok bounds) = .ok checked ↔ FormedBounds bounds ∧ checked = bounds
      cases hall : bounds.forM checkBound with
      | error refusal =>
          refine ⟨nofun, fun ⟨hformed, _⟩ => ?_⟩
          cases hall.symm.trans (forM_checkBound_iff.2 hformed.reference)
      | ok _ =>
          change (if _ then _ else _) = _ ↔ _
          split
          · rename_i hmixed
            refine ⟨nofun, fun ⟨hformed, _⟩ => ?_⟩
            cases hmixed.symm.trans (halone.1 hformed.alone)
          · rename_i hmixed
            refine ⟨fun h => ⟨⟨forM_checkBound_iff.1 hall, halone.2 ?_⟩, (Except.ok.inj h).symm⟩,
              fun ⟨_, h⟩ => h ▸ rfl⟩
            exact Bool.eq_false_iff.2 hmixed

/-- Bounds stay well formed when the universal supertype stands for none. -/
theorem formedBounds_orTop {bounds : List Ty} (h : FormedBounds bounds) :
    FormedBounds (orTop bounds) := by
  rw [orTop]
  split
  · exact formedBounds_top
  · exact h

namespace Heap

/-- Owners and back references are variables alike, and all else keeps its shape. -/
theorem weaken_shape (heap : Heap) (t : Ty) :
    (heap.weaken t).isPrimitive = t.isPrimitive ∧ (heap.weaken t).isWildcard = t.isWildcard ∧
      (heap.weaken t).isVar = t.isVar := by
  cases t <;> exact ⟨rfl, rfl, rfl⟩

/-- Replacing owners by back references in a list. -/
theorem weakenList_eq (heap : Heap) (types : List Ty) :
    heap.weakenList types = types.map heap.weaken := by
  induction types with
  | nil => rfl
  | cons first rest ih => rw [weakenList, ih, List.map_cons]

/-- Replacing owners by back references keeps bounds well formed. -/
theorem weakenList_formed (heap : Heap) {bounds : List Ty} (h : FormedBounds bounds) :
    FormedBounds (heap.weakenList bounds) := by
  rw [weakenList_eq]
  constructor
  · intro bound hbound
    obtain ⟨t, ht, rfl⟩ := List.mem_map.1 hbound
    obtain ⟨hprimitive, hwild, _⟩ := heap.weaken_shape t
    rw [hprimitive, hwild]
    exact h.reference t ht
  · intro bound hbound hvar
    obtain ⟨t, ht, rfl⟩ := List.mem_map.1 hbound
    rw [(heap.weaken_shape t).2.2] at hvar
    rw [h.alone t ht hvar, List.map_singleton]

/-- Readers of every cell see well formed bounds. -/
def Formed (heap : Heap) : Prop := ∀ cell, FormedBounds (heap.boundsAt cell)

/-- A heap is well formed when its filled cells hold well formed bounds. -/
theorem formed_of_slot {heap : Heap}
    (h : ∀ cell bounds, heap.slot cell = .bound bounds → FormedBounds bounds) : heap.Formed := by
  intro cell
  rw [boundsAt]
  cases hslot : heap.slot cell with
  | bound bounds => exact h cell bounds hslot
  | unbound => exact formedBounds_top
  | released => exact formedBounds_top

/-- The filled cells of a well formed heap hold well formed bounds. -/
theorem Formed.slot {heap : Heap} (h : heap.Formed) {cell : CellId} {bounds : List Ty}
    (hslot : heap.slot cell = .bound bounds) : FormedBounds bounds := by
  have hcell := h cell
  rw [boundsAt, hslot] at hcell
  exact hcell

/-- The heap without cells is well formed. -/
theorem formed_empty : Heap.empty.Formed := formed_of_slot fun _ _ h => by cases h

/-- Declaring a variable keeps a heap well formed. -/
theorem Formed.declare {heap : Heap} (h : heap.Formed) (name declaration : String) :
    (heap.declare name declaration).2.Formed := by
  refine formed_of_slot fun cell bounds hslot => ?_
  rw [Heap.slot, Heap.declare] at hslot
  dsimp only at hslot
  rw [Array.getElem?_push] at hslot
  split at hslot
  · cases hslot
  · exact h.slot hslot

/-- Binding a variable succeeds exactly if the bounds are well formed and its cell is unbound, and
then fills the cell. -/
theorem bind_iff {heap after : Heap} {param : TypeVar} {bounds : List Ty} :
    heap.bind param bounds = .ok after ↔
      FormedBounds bounds ∧ heap.slot param.cell = .unbound ∧
        after = (heap.noteBacked (orTop bounds)).set param.cell
          (.bound (heap.weakenList (orTop bounds))) := by
  rw [bind]
  cases hcheck : checkBounds param.name bounds with
  | error refusal =>
      refine ⟨nofun, fun ⟨hformed, _⟩ => ?_⟩
      cases hcheck.symm.trans (checkBounds_iff.2 ⟨hformed, rfl⟩)
  | ok checked =>
      obtain ⟨hformed, rfl⟩ := checkBounds_iff.1 hcheck
      cases heap.slot param.cell with
      | unbound =>
          exact ⟨fun h => ⟨hformed, rfl, (Except.ok.inj h).symm⟩, fun ⟨_, _, h⟩ => h ▸ rfl⟩
      | bound | released => exact ⟨nofun, fun ⟨_, h, _⟩ => by cases h⟩

/-- Binding a variable keeps a heap well formed. -/
theorem Formed.bind {heap after : Heap} (h : heap.Formed) {param : TypeVar} {bounds : List Ty}
    (hbind : heap.bind param bounds = .ok after) : after.Formed := by
  obtain ⟨hformed, _, rfl⟩ := bind_iff.1 hbind
  refine formed_of_slot fun cell stored hslot => ?_
  rw [slot_set] at hslot
  split at hslot
  · cases hslot
    exact heap.weakenList_formed (formedBounds_orTop hformed)
  · exact h.slot hslot

/-- Reading cells keeps a heap well formed. -/
theorem Formed.settleAll {heap : Heap} (h : heap.Formed) (cells : List CellId) :
    (heap.settleAll cells).Formed := by
  intro cell
  rw [boundsAt_settleAll]
  exact h cell

/-- What is in a cell after several were released was there before, unless it was released. -/
theorem slot_release {heap : Heap} {cells : List CellId} {cell : CellId} {bounds : List Ty}
    (h : (heap.release cells).slot cell = .bound bounds) : heap.slot cell = .bound bounds := by
  obtain ⟨slots, backed⟩ := heap
  change (cells.foldl (fun slots cell => slots.setIfInBounds cell .released) slots)[cell]?.getD
    .released = _ at h
  change slots[cell]?.getD .released = _
  induction cells generalizing slots with
  | nil => exact h
  | cons first rest ih =>
      have hset := ih _ h
      rw [Array.getElem?_setIfInBounds] at hset
      split at hset
      · split at hset <;> cases hset
      · exact hset

/-- Releasing cells keeps a heap well formed. -/
theorem Formed.release {heap : Heap} (h : heap.Formed) (cells : List CellId) :
    (heap.release cells).Formed :=
  formed_of_slot fun _ _ hslot => h.slot (slot_release hslot)

/-- The heaps that operations make from the heap without cells. -/
inductive Made : Heap → Prop where
  | empty : Made .empty
  | declare {heap : Heap} (name declaration : String) :
      Made heap → Made (heap.declare name declaration).2
  | bind {heap after : Heap} {param : TypeVar} {bounds : List Ty} :
      Made heap → heap.bind param bounds = .ok after → Made after
  | settleAll {heap : Heap} (cells : List CellId) : Made heap → Made (heap.settleAll cells)
  | release {heap : Heap} (cells : List CellId) : Made heap → Made (heap.release cells)

/-- In every heap that operations make, bounds are well formed. -/
theorem Made.formed {heap : Heap} (h : heap.Made) : heap.Formed := by
  induction h with
  | empty => exact formed_empty
  | declare name declaration _ ih => exact ih.declare name declaration
  | bind _ hbind ih => exact ih.bind hbind
  | settleAll cells _ ih => exact ih.settleAll cells
  | release cells _ ih => exact ih.release cells

end Heap

end Nominal
