import Nominal.Proofs.Lifetime

/-!
# Handles that a program has

A program has the variables in the types that it holds, and those in the bounds of living cells,
since it can read these. An owning handle among them keeps its cell alive, a back reference need
not. `Holding.UpToDate` says that the heap agrees with that: living cells are not released, and a
back reference to a cell that does not live finds it released. Every operation keeps this, if what
is stranded is released whenever something is dropped.
-/

namespace Nominal

namespace Ty

/-- A variable stands somewhere in a type. -/
inductive Mentions (param : TypeVar) : Ty → Prop where
  | self : Mentions param (.var param)
  | part {t part : Ty} : part ∈ t.parts → Mentions param part → Mentions param t

/-- A variable mentions itself only. -/
theorem mentions_var {param other : TypeVar} : (Ty.var other).Mentions param ↔ param = other := by
  constructor
  · intro h
    cases h with
    | self => rfl
    | part hpart _ => cases hpart
  · rintro rfl
    exact .self

/-- A type that is no variable mentions what its parts mention. -/
theorem mentions_iff {t : Ty} (hvar : t.isVar = false) {param : TypeVar} :
    t.Mentions param ↔ ∃ part ∈ t.parts, part.Mentions param := by
  constructor
  · intro h
    cases h with
    | self => cases hvar
    | part hpart h => exact ⟨_, hpart, h⟩
  · rintro ⟨part, hpart, h⟩
    exact .part hpart h

/-- The universal supertype mentions no variable. -/
theorem not_mentions_top {param : TypeVar} : ¬ Ty.top.Mentions param := by
  intro h
  obtain ⟨_, hpart, _⟩ := (mentions_iff rfl).1 h
  cases hpart

/-- A type owns the cells of the owning variables that it mentions. -/
theorem mem_owned_iff_mentions {t : Ty} {cell : CellId} :
    cell ∈ t.owned ↔ ∃ param, t.Mentions param ∧ param.handle = .owning cell := by
  rw [← hasHandle_iff]
  constructor
  · intro h
    induction h with
    | self name declaration => exact ⟨_, .self, rfl⟩
    | part hpart _ ih =>
        obtain ⟨param, hmentions, hhandle⟩ := ih
        exact ⟨param, .part hpart hmentions, hhandle⟩
  · rintro ⟨⟨name, declaration, handle⟩, hmentions, hhandle⟩
    cases hhandle
    induction hmentions with
    | self => exact .self name declaration
    | part hpart _ ih => exact .part hpart ih

end Ty

/-- What is in a cell after it was read. -/
def Slot.settled : Slot → Slot
  | .unbound => .bound [.top]
  | .bound bounds => .bound bounds
  | .released => .released

namespace Heap

/-- What is reached has every property that the cells have and that is handed on by owners. -/
theorem Reaches.induct {heap : Heap} {cells : List CellId} (holds : CellId → Prop)
    (hroots : ∀ root ∈ cells, holds root)
    (hnext : ∀ {owner other}, heap.Reaches cells owner → holds owner → other ∈ heap.owns owner →
      holds other) {cell : CellId} (h : heap.Reaches cells cell) : holds cell := by
  obtain ⟨root, hroot, hpath⟩ := h
  induction hpath with
  | refl => exact hroots root hroot
  | tail hpath howns ih => exact hnext ⟨root, hroot, hpath⟩ ih (owns_iff.1 howns)

/-- Bounds that are stored mention the variables of the bounds that were given, and back references
to cells that are unbound. -/
theorem mentions_weaken {heap : Heap} {t : Ty} {param : TypeVar}
    (h : (heap.weaken t).Mentions param) :
    t.Mentions param ∨ ∃ cell ∈ t.owned, heap.slot cell = .unbound ∧ param.handle = .back cell := by
  induction t using Ty.parts_induction with
  | step t ih =>
      cases hvar : t.isVar with
      | false =>
          have hvar' : (heap.weaken t).isVar = false := (heap.weaken_shape t).2.2.trans hvar
          obtain ⟨part', hpart', h⟩ := (Ty.mentions_iff hvar').1 h
          rw [parts_weaken] at hpart'
          obtain ⟨part, hpart, rfl⟩ := List.mem_map.1 hpart'
          refine (ih part hpart h).imp (.part hpart) fun ⟨cell, hcell, hback⟩ => ?_
          exact ⟨cell, (Ty.mem_owned_iff hvar).2 ⟨part, hpart, hcell⟩, hback⟩
      | true =>
          obtain ⟨⟨name, declaration, handle⟩, rfl⟩ := Ty.eq_var hvar
          obtain rfl := Ty.mentions_var.1 h
          cases handle with
          | back other => exact .inl .self
          | owning other =>
              have hcell : (⟨name, declaration, .owning other⟩ : TypeVar).cell = other := rfl
              rw [weakenVar, hcell]
              cases hslot : heap.slot other with
              | unbound => exact .inr ⟨other, List.mem_singleton.2 rfl, hslot, rfl⟩
              | bound | released => exact .inl .self

/-! ## Reading several cells -/

/-- Reading a cell settles it and leaves the others alone. -/
theorem slot_settle_eq (heap : Heap) (cell other : CellId) :
    (heap.settle cell).slot other =
      if cell = other then (heap.slot other).settled else heap.slot other := by
  by_cases hcell : cell = other
  · subst hcell
    rw [if_pos rfl, settle]
    cases hslot : heap.slot cell with
    | unbound =>
        have hlt : cell < heap.slots.size := lt_size_of_slot (by simp [hslot])
        dsimp only
        rw [slot_set, if_pos ⟨rfl, hlt⟩]
        rfl
    | bound | released => exact hslot
  · rw [if_neg hcell, settle]
    cases heap.slot cell with
    | unbound =>
        dsimp only
        rw [slot_set, if_neg fun h => hcell h.1]
    | bound | released => rfl

/-- Reading cells settles them and leaves the others alone. -/
theorem slot_settleAll (heap : Heap) (cells : List CellId) (other : CellId) :
    (heap.settleAll cells).slot other =
      if other ∈ cells then (heap.slot other).settled else heap.slot other := by
  have htwice (content : Slot) : content.settled.settled = content.settled := by
    cases content <;> rfl
  induction cells generalizing heap with
  | nil => rfl
  | cons cell rest ih =>
      show ((heap.settle cell).settleAll rest).slot other = _
      rw [ih, slot_settle_eq]
      by_cases hcell : cell = other
      · simp [hcell, htwice]
      · simp [hcell, Ne.symm hcell]

/-- Reading cells makes no cell and drops none. -/
theorem size_settleAll (heap : Heap) (cells : List CellId) :
    (heap.settleAll cells).slots.size = heap.slots.size := by
  induction cells generalizing heap with
  | nil => rfl
  | cons cell rest ih => exact (ih (heap.settle cell)).trans (size_settle heap cell)

/-- Reading cells gives them nothing to own. -/
theorem owns_settleAll (heap : Heap) (cells : List CellId) (other : CellId) :
    (heap.settleAll cells).owns other = heap.owns other := by
  induction cells generalizing heap with
  | nil => rfl
  | cons cell rest ih => exact (ih (heap.settle cell)).trans (owns_settle heap cell other)

/-- Reading cells refers back to none. -/
theorem backed_settleAll (heap : Heap) (cells : List CellId) :
    (heap.settleAll cells).backed = heap.backed := by
  induction cells generalizing heap with
  | nil => rfl
  | cons cell rest ih =>
      refine (ih (heap.settle cell)).trans ?_
      rw [settle]
      split <;> rfl

/-! ## Storing bounds -/

/-- What binding a variable does to the cells. -/
structure Stores (heap : Heap) (param : TypeVar) (bounds : List Ty) (after : Heap) : Prop where
  unbound : heap.slot param.cell = .unbound
  slot : ∀ cell, after.slot cell =
    if param.cell = cell then .bound (heap.weakenList (orTop bounds)) else heap.slot cell
  owns : ∀ cell, after.owns cell =
    if param.cell = cell then Ty.ownedList (heap.weakenList (orTop bounds)) else heap.owns cell
  size : after.slots.size = heap.slots.size
  backed : ∀ {cell}, cell ∈ after.backed ↔
    (cell ∈ Ty.ownedList bounds ∧ heap.slot cell = .unbound) ∨ cell ∈ heap.backed

/-- Bounds that are accepted are stored. -/
theorem stores_of_bind {heap after : Heap} {param : TypeVar} {bounds : List Ty}
    (h : heap.bind param bounds = .ok after) : Stores heap param bounds after := by
  obtain ⟨_, hslot, rfl⟩ := bind_iff.1 h
  have hlt : param.cell < heap.slots.size := lt_size_of_slot (by rw [hslot]; exact nofun)
  constructor
  case unbound => exact hslot
  case slot =>
      intro cell
      rw [slot_set]
      by_cases hcell : param.cell = cell
      · rw [if_pos hcell, if_pos ⟨hcell, hlt⟩]
      · rw [if_neg hcell, if_neg fun h => hcell h.1]
        rfl
  case owns => exact owns_bind hslot (orTop bounds)
  case size => exact Array.size_setIfInBounds
  case backed =>
      intro cell
      have hunbound : heap.isUnbound cell = true ↔ heap.slot cell = .unbound :=
        ⟨slot_of_isUnbound, fun h => by rw [isUnbound, h]⟩
      rw [← Ty.ownedList_orTop bounds, ← hunbound, ← List.mem_filter]
      exact List.mem_union_iff

end Heap

namespace Holding

variable {state : Holding} {cell : CellId}

/-! ## What operations leave -/

/-- The program after it has declared a variable. -/
def declared (state : Holding) (name declaration : String) : Holding :=
  ⟨(state.heap.declare name declaration).2,
    .var (state.heap.declare name declaration).1 :: state.types, state.readers⟩

/-- The program after cells were read. -/
def settled (state : Holding) (cells : List CellId) : Holding :=
  { state with heap := state.heap.settleAll cells }

/-- The program when it holds more types and bounds. -/
def gained (state : Holding) (types : List Ty) (readers : List CellId) : Holding :=
  ⟨state.heap, types ++ state.types, readers ++ state.readers⟩

/-- The program when it holds other types and bounds, and the cells that it stranded by that are
released. -/
def dropped (state : Holding) (types : List Ty) (readers : List CellId) : Holding :=
  let outside := Ty.ownedList types ++ readers
  ⟨state.heap.release (state.heap.stranded outside), types, readers⟩

/-- Dropping something releases the stranded cells and leaves the others alone. -/
theorem slot_dropped (state : Holding) (types : List Ty) (readers : List CellId) (cell : CellId) :
    (state.dropped types readers).heap.slot cell =
      if cell ∈ state.heap.stranded (Ty.ownedList types ++ readers) then .released
      else state.heap.slot cell :=
  Heap.slot_release_eq _ _ cell

/-- Reading cells keeps a program sound. -/
theorem Sound.settleAll (h : state.Sound) (cells : List CellId) :
    (state.settled cells).Sound := by
  induction cells generalizing state with
  | nil => exact h
  | cons cell rest ih =>
      have hread := h.read ⟨"", "", .owning cell⟩
      have hone : Sound { state with heap := state.heap.settle cell } := by
        refine ⟨fun other hother => ?_, hread.stored, hread.backed, hread.ranked⟩
        rw [Heap.size_settle]
        exact h.held other hother
      exact ih hone

/-! ## Cells that live -/

/-- Owning handles lead from outside to the cell. -/
def Alive (state : Holding) (cell : CellId) : Prop := state.heap.Reaches state.outside cell

/-- A variable in a type that is held keeps its cell alive, if it has an owning handle. -/
theorem alive_of_mem {t : Ty} (ht : t ∈ state.types) (hcell : cell ∈ t.owned) :
    state.Alive cell :=
  Heap.reaches_of_mem (List.mem_append_left _ (Ty.mem_ownedList.2 ⟨t, ht, hcell⟩))

/-- A new variable lives, and nothing else changes that. -/
theorem alive_declared {name declaration : String} :
    (state.declared name declaration).Alive cell ↔
      cell = state.heap.slots.size ∨ state.Alive cell := by
  have howns := state.heap.owns_declare name declaration
  constructor
  · refine Heap.Reaches.induct (fun cell => cell = state.heap.slots.size ∨ state.Alive cell)
      (fun root hroot => ?_) (fun _ howner hother => ?_)
    · rcases List.mem_cons.1 hroot with rfl | hroot
      · exact .inl rfl
      · exact .inr (Heap.reaches_of_mem hroot)
    · rw [declared, howns] at hother
      rcases howner with rfl | howner
      · rw [Heap.owns, Heap.slot_of_size_le (Nat.le_refl _)] at hother
        cases hother
      · exact .inr (Heap.Reaches.tail howner hother)
  · rintro (rfl | hcell)
    · exact Heap.reaches_of_mem List.mem_cons_self
    · refine Heap.Reaches.induct (state.declared name declaration).Alive
        (fun root hroot => Heap.reaches_of_mem (List.mem_cons_of_mem _ hroot))
        (fun _ howner hother => Heap.Reaches.tail howner ?_) hcell
      rw [declared, howns]
      exact hother

/-- Bounds that are held keep alive what lives anyway. -/
theorem alive_stored {param : TypeVar} {bounds : List Ty} {after : Heap}
    (hbounds : bounds ⊆ state.types) (hstores : state.heap.Stores param bounds after) :
    Alive { state with heap := after } cell ↔ state.Alive cell := by
  constructor
  · refine Heap.Reaches.induct state.Alive (fun root => Heap.reaches_of_mem)
      (fun {owner other} _ howner hother => ?_)
    rw [hstores.owns] at hother
    split at hother
    · have hgiven := (Heap.mem_owned_weakenList.1 hother).1
      rw [Ty.ownedList_orTop] at hgiven
      obtain ⟨t, ht, howned⟩ := Ty.mem_ownedList.1 hgiven
      exact alive_of_mem (hbounds ht) howned
    · exact Heap.Reaches.tail howner hother
  · refine Heap.Reaches.induct (Alive { state with heap := after })
      (fun root => Heap.reaches_of_mem) (fun {owner other} _ howner hother => ?_)
    have hne : param.cell ≠ owner := by
      rintro rfl
      rw [Heap.owns, hstores.unbound] at hother
      cases hother
    refine Heap.Reaches.tail howner ?_
    rw [hstores.owns, if_neg hne]
    exact hother

/-- Reading cells does not change what lives. -/
theorem alive_settled {cells : List CellId} :
    (state.settled cells).Alive cell ↔ state.Alive cell := by
  have howns := state.heap.owns_settleAll cells
  constructor
  · refine Heap.Reaches.induct state.Alive (fun root => Heap.reaches_of_mem)
      fun _ howner hother => Heap.Reaches.tail howner ?_
    rw [settled, howns] at hother
    exact hother
  · refine Heap.Reaches.induct (state.settled cells).Alive (fun root => Heap.reaches_of_mem)
      fun _ howner hother => Heap.Reaches.tail howner ?_
    rw [settled, howns]
    exact hother

/-- Holding more of what lives does not change what lives. -/
theorem alive_gained {types : List Ty} {readers : List CellId}
    (htypes : ∀ cell ∈ Ty.ownedList types, state.Alive cell)
    (hreaders : ∀ cell ∈ readers, state.Alive cell) :
    (state.gained types readers).Alive cell ↔ state.Alive cell := by
  have houtside {root : CellId} : root ∈ (state.gained types readers).outside ↔
      (root ∈ Ty.ownedList types ∨ root ∈ readers) ∨ root ∈ state.outside := by
    simp only [outside, gained, List.mem_append, Ty.mem_ownedList]
    grind
  constructor
  · refine Heap.Reaches.induct state.Alive (fun root hroot => ?_) (fun _ => Heap.Reaches.tail)
    rcases houtside.1 hroot with (hnew | hnew) | hold
    · exact htypes root hnew
    · exact hreaders root hnew
    · exact Heap.reaches_of_mem hold
  · exact Heap.Reaches.induct (state.gained types readers).Alive
      (fun root hroot => Heap.reaches_of_mem (houtside.2 (.inr hroot))) (fun _ => Heap.Reaches.tail)

/-- What lives after something was dropped has lived before. -/
theorem Alive.of_dropped {types : List Ty} {readers : List CellId} (htypes : types ⊆ state.types)
    (hreaders : readers ⊆ state.readers) (h : (state.dropped types readers).Alive cell) :
    state.Alive cell := by
  refine Heap.Reaches.induct state.Alive (fun root hroot => ?_)
    (fun {owner other} _ howner hother => Heap.Reaches.tail howner ?_) h
  · rcases List.mem_append.1 hroot with howned | hreader
    · obtain ⟨t, ht, howned⟩ := Ty.mem_ownedList.1 howned
      exact alive_of_mem (htypes ht) howned
    · exact Heap.reaches_of_mem (List.mem_append_right _ (hreaders hreader))
  · rw [dropped, Heap.owns_release] at hother
    split at hother
    · cases hother
    · exact hother

/-- Cells are stranded that back references refer to and that do not live once the rest is
dropped. -/
theorem Sound.mem_stranded (h : state.Sound) {types : List Ty} {readers : List CellId} :
    cell ∈ state.heap.stranded (Ty.ownedList types ++ readers) ↔
      cell ∈ state.heap.backed ∧ ¬ (state.dropped types readers).Alive cell := by
  rw [Heap.mem_stranded h.backed]
  refine and_congr_right fun _ => not_congr ⟨fun hcell => ?_, fun hcell => ?_⟩
  · refine Heap.Reaches.induct (state.dropped types readers).Alive
      (fun root => Heap.reaches_of_mem)
      (fun {owner other} hbefore howner hother => Heap.Reaches.tail howner ?_) hcell
    have hkept : owner ∉ state.heap.stranded (Ty.ownedList types ++ readers) := fun hlost =>
      ((Heap.mem_stranded h.backed).1 hlost).2 hbefore
    rw [dropped, Heap.owns_release, if_neg hkept]
    exact hother
  · refine Heap.Reaches.induct (state.heap.Reaches (Ty.ownedList types ++ readers))
      (fun root => Heap.reaches_of_mem)
      (fun {owner other} _ howner hother => Heap.Reaches.tail howner ?_) hcell
    rw [dropped, Heap.owns_release] at hother
    split at hother
    · cases hother
    · exact hother

/-! ## Variables that a program has -/

/-- The program has the variable in a type that it holds or in the bounds of a living cell. -/
def Knows (state : Holding) (param : TypeVar) : Prop :=
  (∃ t ∈ state.types, t.Mentions param) ∨
    ∃ cell bounds, state.Alive cell ∧ state.heap.slot cell = .bound bounds ∧
      ∃ bound ∈ bounds, bound.Mentions param

/-- An owning handle keeps its cell alive. -/
theorem Knows.alive {param : TypeVar} (h : state.Knows param)
    (hhandle : param.handle = .owning cell) : state.Alive cell := by
  rcases h with ⟨t, ht, hmentions⟩ | ⟨owner, bounds, howner, hslot, bound, hbound, hmentions⟩
  · exact alive_of_mem ht (Ty.mem_owned_iff_mentions.2 ⟨param, hmentions, hhandle⟩)
  · refine Heap.Reaches.tail howner ?_
    rw [Heap.owns, hslot]
    exact Ty.mem_ownedList.2
      ⟨bound, hbound, Ty.mem_owned_iff_mentions.2 ⟨param, hmentions, hhandle⟩⟩

/-- Types in which the program has all variables own living cells. -/
theorem alive_of_knows {types : List Ty}
    (h : ∀ t ∈ types, ∀ param, t.Mentions param → state.Knows param) {cell : CellId}
    (hcell : cell ∈ Ty.ownedList types) : state.Alive cell := by
  obtain ⟨t, ht, howned⟩ := Ty.mem_ownedList.1 hcell
  obtain ⟨param, hparam, hhandle⟩ := Ty.mem_owned_iff_mentions.1 howned
  exact (h t ht param hparam).alive hhandle

/-- A program that has declared a variable has it besides those that it had. -/
theorem Knows.of_declared {name declaration : String} {param : TypeVar}
    (h : (state.declared name declaration).Knows param) :
    param = (state.heap.declare name declaration).1 ∨ state.Knows param := by
  rcases h with ⟨t, ht, hmentions⟩ | ⟨owner, bounds, howner, hbounds, hbound⟩
  · rcases List.mem_cons.1 ht with rfl | ht
    · exact .inl (Ty.mentions_var.1 hmentions)
    · exact .inr (.inl ⟨t, ht, hmentions⟩)
  · rw [declared, Heap.slot_declare] at hbounds
    split at hbounds
    · cases hbounds
    · rename_i hne
      exact .inr (.inr ⟨owner, bounds, (alive_declared.1 howner).resolve_left hne, hbounds, hbound⟩)

/-- A program that has bound a variable has what it had, and back references to cells that were
unbound. -/
theorem Knows.of_stored {param other : TypeVar} {bounds : List Ty} {after : Heap}
    (hbounds : bounds ⊆ state.types) (hstores : state.heap.Stores param bounds after)
    (h : Knows { state with heap := after } other) :
    state.Knows other ∨ ∃ cell ∈ Ty.ownedList bounds, state.heap.slot cell = .unbound ∧
      other.handle = .back cell := by
  rcases h with hheld | ⟨owner, stored, howner, hstored, bound, hbound, hmentions⟩
  · exact .inl (.inl hheld)
  · rw [hstores.slot] at hstored
    split at hstored
    · cases hstored
      rw [Heap.weakenList_eq] at hbound
      obtain ⟨t, ht, rfl⟩ := List.mem_map.1 hbound
      rcases Heap.mentions_weaken hmentions with hmentions | ⟨target, howned, hback⟩
      · rw [orTop] at ht
        split at ht
        · cases List.mem_singleton.1 ht
          exact absurd hmentions Ty.not_mentions_top
        · exact .inl (.inl ⟨t, hbounds ht, hmentions⟩)
      · refine .inr ⟨target, ?_, hback⟩
        rw [← Ty.ownedList_orTop]
        exact Ty.mem_ownedList.2 ⟨t, ht, howned⟩
    · exact .inl (.inr ⟨owner, stored, (alive_stored hbounds hstores).1 howner, hstored, bound,
        hbound, hmentions⟩)

/-- Reading cells gives no variables. -/
theorem Knows.of_settled {cells : List CellId} {param : TypeVar}
    (h : (state.settled cells).Knows param) : state.Knows param := by
  rcases h with hheld | ⟨owner, bounds, howner, hbounds, bound, hbound, hmentions⟩
  · exact .inl hheld
  · refine .inr ⟨owner, bounds, alive_settled.1 howner, ?_, bound, hbound, hmentions⟩
    rw [settled, Heap.slot_settleAll] at hbounds
    split at hbounds
    · cases hslot : state.heap.slot owner with
      | unbound =>
          rw [hslot] at hbounds
          cases hbounds
          cases List.mem_singleton.1 hbound
          exact absurd hmentions Ty.not_mentions_top
      | bound | released =>
          rw [hslot] at hbounds
          exact hbounds
    · exact hbounds

/-! ## The heap agrees with what the program has -/

/-- Living cells are not released, cells behind back references live until they are released, and
back references that the program has lead to such cells. -/
structure UpToDate (state : Holding) : Prop where
  sound : state.Sound
  living : ∀ {cell}, state.Alive cell → state.heap.slot cell ≠ .released
  backed : ∀ {cell}, cell ∈ state.heap.backed → state.Alive cell
  back : ∀ {param cell}, state.Knows param → param.handle = .back cell →
    cell ∈ state.heap.backed ∨ cell < state.heap.slots.size ∧ state.heap.slot cell = .released

namespace UpToDate

/-- A handle that the program has finds its cell released exactly if the cell does not live. -/
theorem alive_iff (h : state.UpToDate) {param : TypeVar} (hparam : state.Knows param) :
    state.Alive param.cell ↔ state.heap.slot param.cell ≠ .released := by
  refine ⟨h.living, fun hslot => ?_⟩
  obtain ⟨name, declaration, handle⟩ := param
  cases handle with
  | owning cell => exact hparam.alive rfl
  | back cell =>
      rcases h.back hparam rfl with hbacked | ⟨_, hreleased⟩
      · exact h.backed hbacked
      · exact absurd hreleased hslot

/-- A handle that the program has finds its cell released if the cell does not live. -/
theorem slot_of_dead (h : state.UpToDate) {param : TypeVar} (hparam : state.Knows param)
    (hdead : ¬ state.Alive param.cell) : state.heap.slot param.cell = .released := by
  by_contra hslot
  exact hdead ((h.alive_iff hparam).2 hslot)

/-- A program that has nothing is up to date. -/
theorem start : Holding.start.UpToDate where
  sound := sound_start
  living h := by
    obtain ⟨_, hroot, _⟩ := h
    cases hroot
  backed h := by cases h
  back h _ := by
    rcases h with ⟨_, ht, _⟩ | ⟨_, _, _, hslot, _⟩
    · cases ht
    · cases hslot

/-- Declaring a variable keeps the heap up to date. -/
theorem declared (h : state.UpToDate) (name declaration : String) :
    (state.declared name declaration).UpToDate := by
  have hslot := state.heap.slot_declare name declaration
  constructor
  case sound => exact h.sound.declare name declaration
  case living =>
      intro cell hcell
      rw [Holding.declared, hslot]
      split
      · exact nofun
      · rename_i hne
        exact h.living ((alive_declared.1 hcell).resolve_left hne)
  case backed => exact fun hcell => alive_declared.2 (.inr (h.backed hcell))
  case back =>
      intro param cell hparam hhandle
      rcases hparam.of_declared with rfl | hknown
      · cases hhandle
      · refine (h.back hknown hhandle).imp_right fun ⟨hlt, hreleased⟩ => ⟨?_, ?_⟩
        · show cell < (state.heap.slots.push Slot.unbound).size
          rw [Array.size_push]
          exact Nat.lt_succ_of_lt hlt
        · rw [Holding.declared, hslot, if_neg (Nat.ne_of_lt hlt), hreleased]

/-- Binding a variable keeps the heap up to date. -/
theorem bind (h : state.UpToDate) {param : TypeVar} {bounds : List Ty} {after : Heap}
    (hbounds : bounds ⊆ state.types) (hbind : state.heap.bind param bounds = .ok after) :
    UpToDate { state with heap := after } := by
  have hstores := Heap.stores_of_bind hbind
  constructor
  case sound => exact h.sound.bind hbounds hbind
  case living =>
      intro cell hcell
      rw [hstores.slot]
      split
      · exact nofun
      · exact h.living ((alive_stored hbounds hstores).1 hcell)
  case backed =>
      intro cell hcell
      rw [alive_stored hbounds hstores]
      rcases hstores.backed.1 hcell with ⟨hgiven, _⟩ | hold
      · obtain ⟨t, ht, howned⟩ := Ty.mem_ownedList.1 hgiven
        exact alive_of_mem (hbounds ht) howned
      · exact h.backed hold
  case back =>
      intro other cell hother hhandle
      rcases hother.of_stored hbounds hstores with hknown | ⟨target, howned, hunbound, hback⟩
      · refine (h.back hknown hhandle).imp (fun hbacked => hstores.backed.2 (.inr hbacked)) ?_
        rintro ⟨hlt, hreleased⟩
        have hne : param.cell ≠ cell := by
          rintro rfl
          cases hstores.unbound.symm.trans hreleased
        rw [hstores.size, hstores.slot, if_neg hne]
        exact ⟨hlt, hreleased⟩
      · -- a handle that became a back reference is listed
        cases hhandle.symm.trans hback
        exact .inl (hstores.backed.2 (.inl ⟨howned, hunbound⟩))

/-- Reading cells keeps the heap up to date. -/
theorem settled (h : state.UpToDate) (cells : List CellId) : (state.settled cells).UpToDate := by
  have hreleased {cell : CellId} : (state.settled cells).heap.slot cell = .released ↔
      state.heap.slot cell = .released := by
    rw [Holding.settled, Heap.slot_settleAll]
    split
    · cases state.heap.slot cell <;> simp [Slot.settled]
    · exact Iff.rfl
  have hbacked : (state.settled cells).heap.backed = state.heap.backed :=
    state.heap.backed_settleAll cells
  constructor
  case sound => exact h.sound.settleAll cells
  case living => exact fun hcell hslot => h.living (alive_settled.1 hcell) (hreleased.1 hslot)
  case backed => exact fun hcell => alive_settled.2 (h.backed (hbacked ▸ hcell))
  case back =>
      intro param cell hparam hhandle
      rw [hbacked, hreleased, Holding.settled, Heap.size_settleAll]
      exact h.back hparam.of_settled hhandle

/-- Holding more of what the program has keeps the heap up to date. -/
theorem gained (h : state.UpToDate) {types : List Ty} {readers : List CellId}
    (htypes : ∀ t ∈ types, ∀ param, t.Mentions param → state.Knows param)
    (hreaders : ∀ cell ∈ readers, state.Alive cell) : (state.gained types readers).UpToDate := by
  have halive {cell : CellId} : (state.gained types readers).Alive cell ↔ state.Alive cell :=
    alive_gained (fun _ => alive_of_knows htypes) hreaders
  constructor
  case sound =>
      refine ⟨fun cell hcell => ?_, h.sound.stored, h.sound.backed, h.sound.ranked⟩
      exact Heap.lt_size_of_slot
        (h.living (halive.1 (Heap.reaches_of_mem (List.mem_append_left _ hcell))))
  case living => exact fun hcell => h.living (halive.1 hcell)
  case backed => exact fun hcell => halive.2 (h.backed hcell)
  case back =>
      intro param cell hparam hhandle
      refine h.back ?_ hhandle
      rcases hparam with ⟨t, ht, hmentions⟩ | ⟨owner, bounds, howner, hbounds⟩
      · rcases List.mem_append.1 ht with hnew | hold
        · exact htypes t hnew param hmentions
        · exact .inl ⟨t, hold, hmentions⟩
      · exact .inr ⟨owner, bounds, halive.1 howner, hbounds⟩

/-- Dropping something keeps the heap up to date. -/
theorem dropped (h : state.UpToDate) {types : List Ty} {readers : List CellId}
    (htypes : types ⊆ state.types) (hreaders : readers ⊆ state.readers) :
    (state.dropped types readers).UpToDate := by
  have hstranded {cell : CellId} : cell ∈ state.heap.stranded (Ty.ownedList types ++ readers) ↔
      cell ∈ state.heap.backed ∧ ¬ (state.dropped types readers).Alive cell :=
    h.sound.mem_stranded
  constructor
  case sound => exact (h.sound.step (.drop htypes hreaders)).release _
  case living =>
      intro cell hcell
      rw [slot_dropped, if_neg fun hlost => (hstranded.1 hlost).2 hcell]
      exact h.living (hcell.of_dropped htypes hreaders)
  case backed =>
      intro cell hcell
      obtain ⟨hbacked, hkept⟩ := List.mem_filter.1 hcell
      refine Classical.byContradiction fun hdead => ?_
      have hlost := hstranded.2 ⟨hbacked, hdead⟩
      simp [hlost] at hkept
  case back =>
      intro param cell hparam hhandle
      have hknown : state.Knows param := by
        rcases hparam with ⟨t, ht, hmentions⟩ | ⟨owner, bounds, howner, hbounds, hbound⟩
        · exact .inl ⟨t, htypes ht, hmentions⟩
        · rw [slot_dropped] at hbounds
          split at hbounds
          · cases hbounds
          · exact .inr ⟨owner, bounds, howner.of_dropped htypes hreaders, hbounds, hbound⟩
      have hsize : (state.dropped types readers).heap.slots.size = state.heap.slots.size :=
        Heap.size_release _ _
      rw [slot_dropped, hsize]
      by_cases hlost : cell ∈ state.heap.stranded (Ty.ownedList types ++ readers)
      · have hbacked := (hstranded.1 hlost).1
        exact .inr ⟨Heap.lt_size_of_slot (h.sound.backed cell hbacked), if_pos hlost⟩
      · rw [if_neg hlost]
        refine (h.back hknown hhandle).imp_left fun hbacked => ?_
        exact List.mem_filter.2 ⟨hbacked, by simpa using hlost⟩

end UpToDate

end Holding

end Nominal
