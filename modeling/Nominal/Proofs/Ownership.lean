import Mathlib.Logic.Relation
import Nominal.Proofs.Equality
import Nominal.Proofs.FormedBounds

/-!
# Who owns bounds cells

Bounds own the cells of which they have an owning handle, at any depth. A program holds types and
bounds that it read, and goes on by steps: it declares, binds and reads variables, puts types
together, drops what it has, and cells are released. `Holding.Sound` is the invariant of these
steps. It says that no stored bounds own an unbound cell and that cells can be ranked by the time of
their binding, so that bounds own cells of lower rank only.
-/

namespace Nominal

namespace Ty

/-- A type has an owning handle of a cell, itself or in one of its parts. -/
inductive HasHandle (cell : CellId) : Ty → Prop where
  | self (name declaration : String) : HasHandle cell (.var ⟨name, declaration, .owning cell⟩)
  | part {t part : Ty} : part ∈ t.parts → HasHandle cell part → HasHandle cell t

/-- The cells that several types own. -/
theorem mem_ownedList {types : List Ty} {cell : CellId} :
    cell ∈ ownedList types ↔ ∃ t ∈ types, cell ∈ t.owned := by
  induction types with
  | nil => simp [ownedList]
  | cons first rest ih => simp [ownedList, ih]

/-- The universal supertype owns nothing. -/
theorem ownedList_orTop (types : List Ty) : ownedList (orTop types) = ownedList types := by
  cases types <;> rfl

/-- A type that is no variable owns what its parts own. -/
theorem mem_owned_iff {t : Ty} (hvar : t.isVar = false) {cell : CellId} :
    cell ∈ t.owned ↔ ∃ part ∈ t.parts, cell ∈ part.owned := by
  have hoption (inner : Option Ty) : ownedOption inner = ownedList inner.toList := by
    cases inner <;> simp [ownedOption, ownedList]
  rw [← mem_ownedList]
  cases t with
  | named head => simp [owned, parts, ownedList]
  | applied owner raw args =>
      simp only [owned, parts, hoption, List.mem_append, mem_ownedList]
      grind
  | array component => simp [owned, parts, ownedList]
  | var param => cases hvar
  | wildcard upper lower => simp [owned, parts, hoption, ownedList]

/-- A type owns the cells of which it has an owning handle. -/
theorem hasHandle_iff {t : Ty} {cell : CellId} : t.HasHandle cell ↔ cell ∈ t.owned := by
  constructor
  · intro h
    induction h with
    | self => exact List.mem_singleton.2 rfl
    | @part t part hpart _ ih =>
        cases hvar : t.isVar with
        | false => exact (mem_owned_iff hvar).2 ⟨part, hpart, ih⟩
        | true =>
            obtain ⟨param, rfl⟩ := eq_var hvar
            cases hpart
  · intro h
    induction t using parts_induction with
    | step t ih =>
        cases hvar : t.isVar with
        | false =>
            obtain ⟨part, hpart, hcell⟩ := (mem_owned_iff hvar).1 h
            exact .part hpart (ih part hpart hcell)
        | true =>
            obtain ⟨⟨name, declaration, handle⟩, rfl⟩ := eq_var hvar
            cases handle with
            | owning other =>
                cases List.mem_singleton.1 h
                exact .self name declaration
            | back other => cases h

end Ty

namespace Heap

/-- The bounds that are stored in one cell have an owning handle of another one. -/
def Owns (heap : Heap) (cell other : CellId) : Prop :=
  ∃ bounds, heap.slot cell = .bound bounds ∧ ∃ bound ∈ bounds, bound.HasHandle other

/-- The cells that a cell owns are computed by `owns`. -/
theorem owns_iff {heap : Heap} {cell other : CellId} :
    heap.Owns cell other ↔ other ∈ heap.owns cell := by
  rw [Owns, owns]
  cases heap.slot cell with
  | bound bounds => simp [Ty.mem_ownedList, Ty.hasHandle_iff]
  | unbound => simp
  | released => simp

/-- There is nothing behind the last cell. -/
theorem slot_of_size_le {heap : Heap} {cell : CellId} (h : heap.slots.size ≤ cell) :
    heap.slot cell = .released := by
  rw [slot, Array.getElem?_eq_none h, Option.getD_none]

/-- A cell that is not released is there. -/
theorem lt_size_of_slot {heap : Heap} {cell : CellId} (h : heap.slot cell ≠ .released) :
    cell < heap.slots.size :=
  Nat.lt_of_not_le fun hle => h (slot_of_size_le hle)

/-- What `isUnbound` says of a cell. -/
theorem slot_of_isUnbound {heap : Heap} {cell : CellId} (h : heap.isUnbound cell = true) :
    heap.slot cell = .unbound := by
  rw [isUnbound] at h
  split at h
  · assumption
  · cases h

/-- Cells with the same content own the same. -/
theorem owns_congr {heap heap' : Heap} {cell : CellId} (h : heap.slot cell = heap'.slot cell) :
    heap.owns cell = heap'.owns cell := by
  rw [owns, owns, h]

/-! ## What the operations change -/

/-- Replacing owners by back references goes through all parts. -/
theorem parts_weaken (heap : Heap) (t : Ty) :
    (heap.weaken t).parts = t.parts.map heap.weaken := by
  have hoption (inner : Option Ty) : heap.weakenOption inner = inner.map heap.weaken := by
    cases inner <;> rfl
  cases t with
  | named | array | var => rfl
  | applied owner raw args =>
      simp only [weaken, Ty.parts, hoption, weakenList_eq, Option.toList_map, List.map_append]
  | wildcard upper lower =>
      simp only [weaken, Ty.parts, hoption, Option.toList_map, List.map_cons]

/-- What is left after owners of unbound cells have been replaced are the owners of other cells. -/
theorem mem_owned_weaken {heap : Heap} {t : Ty} {cell : CellId} :
    cell ∈ (heap.weaken t).owned ↔ cell ∈ t.owned ∧ heap.slot cell ≠ .unbound := by
  induction t using Ty.parts_induction with
  | step t ih =>
      cases hvar : t.isVar with
      | false =>
          have hvar' : (heap.weaken t).isVar = false := (heap.weaken_shape t).2.2.trans hvar
          rw [Ty.mem_owned_iff hvar, Ty.mem_owned_iff hvar', parts_weaken]
          constructor
          · rintro ⟨part', hpart', hcell⟩
            obtain ⟨part, hpart, rfl⟩ := List.mem_map.1 hpart'
            obtain ⟨howned, hslot⟩ := (ih part hpart).1 hcell
            exact ⟨⟨part, hpart, howned⟩, hslot⟩
          · rintro ⟨⟨part, hpart, howned⟩, hslot⟩
            exact ⟨_, List.mem_map_of_mem hpart, (ih part hpart).2 ⟨howned, hslot⟩⟩
      | true =>
          obtain ⟨⟨name, declaration, handle⟩, rfl⟩ := Ty.eq_var hvar
          cases handle with
          | back other => exact ⟨(by cases ·), fun h => by cases h.1⟩
          | owning other =>
              show cell ∈ (Ty.var (heap.weakenVar ⟨name, declaration, .owning other⟩)).owned ↔
                cell ∈ [other] ∧ _
              have hcell : (⟨name, declaration, .owning other⟩ : TypeVar).cell = other := rfl
              cases hslot : heap.slot other with
              | unbound =>
                  rw [weakenVar, hcell, hslot]
                  refine ⟨(by cases ·), fun ⟨h, hbound⟩ => ?_⟩
                  cases List.mem_singleton.1 h
                  exact absurd hslot hbound
              | bound | released =>
                  rw [weakenVar, hcell, hslot]
                  refine ⟨fun h => ⟨h, ?_⟩, And.left⟩
                  cases List.mem_singleton.1 h
                  rw [hslot]
                  exact nofun

/-- A new variable has a new cell, which is unbound. -/
theorem slot_declare (heap : Heap) (name declaration : String) (cell : CellId) :
    (heap.declare name declaration).2.slot cell =
      if cell = heap.slots.size then .unbound else heap.slot cell := by
  rw [declare, slot, slot, Array.getElem?_push]
  split <;> rfl

/-- A new cell owns nothing. -/
theorem owns_declare (heap : Heap) (name declaration : String) (cell : CellId) :
    (heap.declare name declaration).2.owns cell = heap.owns cell := by
  by_cases hcell : cell = heap.slots.size
  · rw [owns, owns, slot_declare, if_pos hcell, slot_of_size_le (Nat.le_of_eq hcell.symm)]
  · exact owns_congr (by rw [slot_declare, if_neg hcell])

/-- Reading a cell changes it only if it is unbound. -/
theorem slot_settle (heap : Heap) (cell other : CellId) :
    (heap.settle cell).slot other = heap.slot other ∨
      heap.slot other = .unbound ∧ (heap.settle cell).slot other = .bound [.top] := by
  rw [settle]
  cases hslot : heap.slot cell with
  | unbound =>
      dsimp only
      rw [slot_set]
      split
      · rename_i hsame
        exact .inr ⟨hsame.1 ▸ hslot, rfl⟩
      · exact .inl rfl
  | bound | released => exact .inl rfl

/-- Reading a cell gives it nothing to own. -/
theorem owns_settle (heap : Heap) (cell other : CellId) :
    (heap.settle cell).owns other = heap.owns other := by
  rcases slot_settle heap cell other with hsame | ⟨hunbound, hbound⟩
  · exact owns_congr hsame
  · rw [owns, owns, hunbound, hbound]
    rfl

/-- Reading a cell makes no cell and drops none. -/
theorem size_settle (heap : Heap) (cell : CellId) :
    (heap.settle cell).slots.size = heap.slots.size := by
  rw [settle]
  split
  · exact Array.size_setIfInBounds
  · rfl

/-- Released cells are released, and the others are as before. -/
theorem slot_release_eq (heap : Heap) (cells : List CellId) (cell : CellId) :
    (heap.release cells).slot cell = if cell ∈ cells then .released else heap.slot cell := by
  obtain ⟨slots, backed⟩ := heap
  change (cells.foldl (fun slots cell => slots.setIfInBounds cell .released) slots)[cell]?.getD
    .released = if cell ∈ cells then .released else slots[cell]?.getD .released
  induction cells generalizing slots with
  | nil => rfl
  | cons first rest ih =>
      rw [List.foldl_cons, ih, Array.getElem?_setIfInBounds]
      by_cases hfirst : first = cell
      · rw [if_pos (show cell ∈ first :: rest from hfirst ▸ List.mem_cons_self), if_pos hfirst]
        split
        · rfl
        · split <;> rfl
      · simp only [if_neg hfirst, List.mem_cons, Ne.symm hfirst, false_or]

/-- Releasing cells drops what they own. -/
theorem owns_release (heap : Heap) (cells : List CellId) (cell : CellId) :
    (heap.release cells).owns cell = if cell ∈ cells then [] else heap.owns cell := by
  split
  · rename_i hcell
    rw [owns, slot_release_eq, if_pos hcell]
  · rename_i hcell
    exact owns_congr (by rw [slot_release_eq, if_neg hcell])

/-- Releasing cells keeps their numbers. -/
theorem size_release (heap : Heap) (cells : List CellId) :
    (heap.release cells).slots.size = heap.slots.size := by
  obtain ⟨slots, backed⟩ := heap
  change (cells.foldl (fun slots cell => slots.setIfInBounds cell .released) slots).size = _
  induction cells generalizing slots with
  | nil => rfl
  | cons first rest ih => rw [List.foldl_cons, ih, Array.size_setIfInBounds]

/-- After binding a variable its cell owns what its bounds own outside unbound cells. -/
theorem owns_bind {heap : Heap} {param : TypeVar} (hslot : heap.slot param.cell = .unbound)
    (checked : List Ty) (cell : CellId) :
    ((heap.noteBacked checked).set param.cell (.bound (heap.weakenList checked))).owns cell =
      if param.cell = cell then Ty.ownedList (heap.weakenList checked) else heap.owns cell := by
  have hlt : param.cell < heap.slots.size := lt_size_of_slot (by rw [hslot]; exact nofun)
  split
  · rename_i hcell
    rw [owns, slot_set, if_pos ⟨hcell, hlt⟩]
  · rename_i hcell
    exact owns_congr (by rw [slot_set, if_neg (fun h => hcell h.1)]; rfl)

/-- Bounds that are stored own cells that are not unbound. -/
theorem mem_owned_weakenList {heap : Heap} {types : List Ty} {cell : CellId} :
    cell ∈ Ty.ownedList (heap.weakenList types) ↔
      cell ∈ Ty.ownedList types ∧ heap.slot cell ≠ .unbound := by
  rw [weakenList_eq, Ty.mem_ownedList, Ty.mem_ownedList]
  constructor
  · rintro ⟨t', ht', hcell⟩
    obtain ⟨t, ht, rfl⟩ := List.mem_map.1 ht'
    obtain ⟨howned, hslot⟩ := mem_owned_weaken.1 hcell
    exact ⟨⟨t, ht, howned⟩, hslot⟩
  · rintro ⟨⟨t, ht, howned⟩, hslot⟩
    exact ⟨_, List.mem_map_of_mem ht, mem_owned_weaken.2 ⟨howned, hslot⟩⟩

end Heap

/-! ## Programs -/

/-- What a program has: bounds cells, types, and bounds that it read. -/
structure Holding where
  heap : Heap
  types : List Ty
  /-- The cells whose bounds were read and are still held. -/
  readers : List CellId

namespace Holding

/-- A program that has nothing. -/
def start : Holding := ⟨.empty, [], []⟩

/-- The cells of which the program has owning handles. -/
def outside (state : Holding) : List CellId := Ty.ownedList state.types ++ state.readers

/-- One step of a program. -/
inductive Step : Holding → Holding → Prop where
  /-- A variable is declared. -/
  | declare {state : Holding} (name declaration : String) :
      Step state ⟨(state.heap.declare name declaration).2,
        .var (state.heap.declare name declaration).1 :: state.types, state.readers⟩
  /-- A variable is given bounds. -/
  | bind {state : Holding} {param : TypeVar} {bounds : List Ty} {after : Heap} :
      .var param ∈ state.types → bounds ⊆ state.types → state.heap.bind param bounds = .ok after →
      Step state { state with heap := after }
  /-- Bounds are refused. -/
  | refuse {state : Holding} {param : TypeVar} {bounds : List Ty} {refusal : Refusal} :
      .var param ∈ state.types → bounds ⊆ state.types →
      state.heap.bind param bounds = .error refusal → Step state state
  /-- The bounds of a variable are read, and kept together with their cell. -/
  | read {state : Holding} {param : TypeVar} :
      .var param ∈ state.types →
      Step state ⟨state.heap.settle param.cell, state.heap.bounds param ++ state.types,
        param.cell :: state.readers⟩
  /-- A type is put together. Its owning handles are copies of such as there are. -/
  | make {state : Holding} {t : Ty} :
      (∀ cell ∈ t.owned, cell ∈ Ty.ownedList state.types) →
      Step state { state with types := t :: state.types }
  /-- Types and bounds are dropped. -/
  | drop {state : Holding} {types : List Ty} {readers : List CellId} :
      types ⊆ state.types → readers ⊆ state.readers → Step state ⟨state.heap, types, readers⟩
  /-- Cells are released, whichever they are. -/
  | release {state : Holding} (cells : List CellId) :
      Step state { state with heap := state.heap.release cells }

/-- What a program may have after any number of steps. -/
def Possible (state : Holding) : Prop := Relation.ReflTransGen Step start state

/-- What stays true of a program. Types that it has own cells that are there; stored bounds own
cells that are there and not unbound; cells behind back references are not released; and cells have
ranks that fall along ownership. -/
structure Sound (state : Holding) : Prop where
  held : ∀ cell ∈ Ty.ownedList state.types, cell < state.heap.slots.size
  stored : ∀ {cell other}, other ∈ state.heap.owns cell →
    other < state.heap.slots.size ∧ state.heap.slot other ≠ .unbound
  backed : ∀ cell ∈ state.heap.backed, state.heap.slot cell ≠ .released
  ranked : ∃ rank : CellId → Nat, ∀ {cell other}, other ∈ state.heap.owns cell →
    rank other < rank cell

variable {state : Holding}

/-- A program that has nothing is sound. -/
theorem sound_start : start.Sound where
  held _ h := by cases h
  stored h := by cases h
  backed _ h := by cases h
  ranked := ⟨fun _ => 0, fun h => by cases h⟩

/-- Declaring a variable keeps a program sound. -/
theorem Sound.declare (h : state.Sound) (name declaration : String) :
    Sound ⟨(state.heap.declare name declaration).2,
      .var (state.heap.declare name declaration).1 :: state.types, state.readers⟩ := by
  have hsize : (state.heap.declare name declaration).2.slots.size = state.heap.slots.size + 1 :=
    Array.size_push _
  constructor
  case held =>
      intro cell hcell
      show cell < (state.heap.declare name declaration).2.slots.size
      rw [hsize]
      rcases List.mem_append.1 hcell with hnew | hold
      · cases List.mem_singleton.1 hnew
        exact Nat.lt_succ_self _
      · exact Nat.lt_succ_of_lt (h.held cell hold)
  case stored =>
      intro cell other hother
      rw [Heap.owns_declare] at hother
      obtain ⟨hlt, hslot⟩ := h.stored hother
      refine ⟨hsize ▸ Nat.lt_succ_of_lt hlt, ?_⟩
      rw [Heap.slot_declare, if_neg (Nat.ne_of_lt hlt)]
      exact hslot
  case backed =>
      intro cell hcell
      rw [Heap.slot_declare]
      split
      · exact nofun
      · exact h.backed cell hcell
  case ranked =>
      obtain ⟨rank, hrank⟩ := h.ranked
      refine ⟨rank, fun hother => ?_⟩
      rw [Heap.owns_declare] at hother
      exact hrank hother

/-- Binding a variable keeps a program sound. -/
theorem Sound.bind (h : state.Sound) {param : TypeVar} {bounds : List Ty} {after : Heap}
    (hbounds : bounds ⊆ state.types) (hbind : state.heap.bind param bounds = .ok after) :
    Sound { state with heap := after } := by
  obtain ⟨_, hslot, hafter⟩ := Heap.bind_iff.1 hbind
  generalize hchecked : orTop bounds = checked at hafter
  subst hafter
  have hlt : param.cell < state.heap.slots.size :=
    Heap.lt_size_of_slot (by rw [hslot]; exact nofun)
  have hsize : ((state.heap.noteBacked checked).set param.cell
      (.bound (state.heap.weakenList checked))).slots.size = state.heap.slots.size :=
    Array.size_setIfInBounds
  have howns := Heap.owns_bind hslot checked
  -- the new bounds own nothing unbound, and in particular not the cell itself
  have hnew {cell : CellId} (hcell : cell ∈ Ty.ownedList (state.heap.weakenList checked)) :
      cell < state.heap.slots.size ∧ state.heap.slot cell ≠ .unbound := by
    obtain ⟨howned, hbound⟩ := Heap.mem_owned_weakenList.1 hcell
    refine ⟨h.held cell ?_, hbound⟩
    rw [← hchecked, Ty.ownedList_orTop] at howned
    obtain ⟨t, ht, hcell⟩ := Ty.mem_ownedList.1 howned
    exact Ty.mem_ownedList.2 ⟨t, hbounds ht, hcell⟩
  have hstored {cell other : CellId} (hother : other ∈ ((state.heap.noteBacked checked).set
      param.cell (.bound (state.heap.weakenList checked))).owns cell) :
      other < state.heap.slots.size ∧ state.heap.slot other ≠ .unbound := by
    rw [howns] at hother
    split at hother
    · exact hnew hother
    · exact h.stored hother
  constructor
  case held => exact fun cell hcell => hsize ▸ h.held cell hcell
  case stored =>
      intro cell other hother
      obtain ⟨hother, hbound⟩ := hstored hother
      refine ⟨hsize ▸ hother, ?_⟩
      rw [Heap.slot_set]
      split
      · exact nofun
      · exact hbound
  case backed =>
      intro cell hcell
      rw [Heap.slot_set]
      split
      · exact nofun
      · show state.heap.slot cell ≠ .released
        rcases List.mem_union_iff.1 hcell with hunbound | hold
        · exact Heap.slot_of_isUnbound (List.mem_filter.1 hunbound).2 ▸ nofun
        · exact h.backed cell hold
  case ranked =>
      obtain ⟨rank, hrank⟩ := h.ranked
      -- the cell gets a rank above all that its bounds own; nothing owned it so far
      let rank' (cell : CellId) : Nat :=
        if cell = param.cell then
          ((Ty.ownedList (state.heap.weakenList checked)).map rank).max?.getD 0 + 1
        else rank cell
      refine ⟨rank', fun {cell other} hother => ?_⟩
      have hne : other ≠ param.cell := by
        rintro rfl
        exact (hstored hother).2 hslot
      show rank' other < rank' cell
      rw [howns] at hother
      simp only [rank', if_neg hne]
      split at hother
      · rename_i hcell
        rw [if_pos hcell.symm]
        exact Nat.lt_succ_of_le (List.le_max?_getD_of_mem (List.mem_map_of_mem hother))
      · rename_i hcell
        rw [if_neg (Ne.symm hcell)]
        exact hrank hother

/-- Reading the bounds of a variable keeps a program sound. -/
theorem Sound.read (h : state.Sound) (param : TypeVar) :
    Sound ⟨state.heap.settle param.cell, state.heap.bounds param ++ state.types,
      param.cell :: state.readers⟩ := by
  have hsize := state.heap.size_settle param.cell
  have hkeeps {cell : CellId} {content : Slot} (hcontent : ∀ bounds, content ≠ .bound bounds)
      (hslot : state.heap.slot cell ≠ content) :
      (state.heap.settle param.cell).slot cell ≠ content := by
    rcases state.heap.slot_settle param.cell cell with hsame | ⟨_, hbound⟩
    · exact hsame ▸ hslot
    · exact hbound ▸ (hcontent _).symm
  constructor
  case held =>
      intro cell hcell
      show cell < (state.heap.settle param.cell).slots.size
      rw [hsize]
      obtain ⟨t, ht, howned⟩ := Ty.mem_ownedList.1 hcell
      rcases List.mem_append.1 ht with hbound | hold
      · -- what is handed out was stored, or is the universal supertype
        rw [Heap.bounds, Heap.boundsAt] at hbound
        split at hbound
        · rename_i bounds hslot
          have hstored : cell ∈ state.heap.owns param.cell := by
            rw [Heap.owns, hslot]
            exact Ty.mem_ownedList.2 ⟨t, hbound, howned⟩
          exact (h.stored hstored).1
        · cases List.mem_singleton.1 hbound
          cases howned
      · exact h.held cell (Ty.mem_ownedList.2 ⟨t, hold, howned⟩)
  case stored =>
      intro cell other hother
      rw [Heap.owns_settle] at hother
      obtain ⟨hlt, hslot⟩ := h.stored hother
      exact ⟨hsize ▸ hlt, hkeeps (by simp) hslot⟩
  case backed =>
      have hbacked : (state.heap.settle param.cell).backed = state.heap.backed := by
        rw [Heap.settle]
        split <;> rfl
      intro cell hcell
      exact hkeeps (by simp) (h.backed cell (hbacked ▸ hcell))
  case ranked =>
      obtain ⟨rank, hrank⟩ := h.ranked
      refine ⟨rank, fun hother => ?_⟩
      rw [Heap.owns_settle] at hother
      exact hrank hother

/-- Releasing cells keeps a program sound. -/
theorem Sound.release (h : state.Sound) (cells : List CellId) :
    Sound { state with heap := state.heap.release cells } := by
  have hsize := state.heap.size_release cells
  have howns {cell other : CellId} (hother : other ∈ (state.heap.release cells).owns cell) :
      other ∈ state.heap.owns cell := by
    rw [Heap.owns_release] at hother
    split at hother
    · cases hother
    · exact hother
  constructor
  case held => exact fun cell hcell => hsize ▸ h.held cell hcell
  case stored =>
      intro cell other hother
      obtain ⟨hlt, hslot⟩ := h.stored (howns hother)
      refine ⟨hsize ▸ hlt, ?_⟩
      rw [Heap.slot_release_eq]
      split
      · exact nofun
      · exact hslot
  case backed =>
      intro cell hcell
      obtain ⟨hbacked, hkept⟩ := List.mem_filter.1 hcell
      rw [Heap.slot_release_eq, if_neg (by simpa using hkept)]
      exact h.backed cell hbacked
  case ranked =>
      obtain ⟨rank, hrank⟩ := h.ranked
      exact ⟨rank, fun hother => hrank (howns hother)⟩

/-- Each step keeps a program sound. -/
theorem Sound.step {after : Holding} (h : state.Sound) (hstep : Step state after) :
    after.Sound := by
  cases hstep with
  | declare name declaration => exact h.declare name declaration
  | bind _ hbounds hbind => exact h.bind hbounds hbind
  | refuse => exact h
  | @read param _ => exact h.read param
  | @make t ht =>
      refine ⟨fun cell hcell => ?_, h.stored, h.backed, h.ranked⟩
      rcases List.mem_append.1 hcell with hnew | hold
      · exact h.held cell (ht cell hnew)
      · exact h.held cell hold
  | drop htypes _ =>
      refine ⟨fun cell hcell => ?_, h.stored, h.backed, h.ranked⟩
      obtain ⟨t, ht, howned⟩ := Ty.mem_ownedList.1 hcell
      exact h.held cell (Ty.mem_ownedList.2 ⟨t, htypes ht, howned⟩)
  | release cells => exact h.release cells

/-- A program is sound after any number of steps. -/
theorem Possible.sound (h : state.Possible) : state.Sound := by
  induction h with
  | refl => exact sound_start
  | tail _ hstep ih => exact ih.step hstep

/-- No cell of a sound program owns itself, directly or through others. -/
theorem Sound.acyclic (h : state.Sound) (cell : CellId) :
    ¬ Relation.TransGen state.heap.Owns cell cell := by
  obtain ⟨rank, hrank⟩ := h.ranked
  have hfalls {first last : CellId} (howns : Relation.TransGen state.heap.Owns first last) :
      rank last < rank first := by
    induction howns with
    | single hone => exact hrank (Heap.owns_iff.1 hone)
    | tail _ hone ih => exact Nat.lt_trans (hrank (Heap.owns_iff.1 hone)) ih
  exact fun howns => Nat.lt_irrefl _ (hfalls howns)

end Holding

end Nominal
