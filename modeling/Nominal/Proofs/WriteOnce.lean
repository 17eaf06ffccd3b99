import Nominal.Proofs.Handles
import Nominal.Proofs.Histories
import Nominal.Proofs.Reads

/-!
# Bounds are written once

A program declares, binds and reads variables, asks questions, and drops what it has.
`Holding.History` records what it has done to living cells: which bounds it gave and which it saw,
whether it read them itself or a question did. `Holding.Recorded` ties the record to the heap: a
cell holds what was given or seen, and if it lives and is filled, then something was. So a cell that
was neither bound nor read can be bound, and no other one. The main statement is
`Holding.bounds_written_once`.
-/

namespace Nominal

open Script

/-! ## What operations do to the heap -/

namespace Heap

/-- A list in which owners were replaced is equal to what it was if its members are. -/
theorem weakenList_beq {heap : Heap} {types : List Ty}
    (h : ∀ t ∈ types, (heap.weaken t == t) = true) : (heap.weakenList types == types) = true := by
  rw [weakenList_eq, Ty.list_beq_iff, Ty.Matches, List.forall₂_map_left_iff]
  exact List.forall₂_same.2 h

/-- A type in which owners were replaced by back references is equal to what it was. -/
theorem weaken_beq (heap : Heap) (t : Ty) : (heap.weaken t == t) = true := by
  have hoption {inner : Option Ty} (h : ∀ t ∈ inner, (heap.weaken t == t) = true) :
      (heap.weakenOption inner == inner) = true := by
    cases inner with
    | none => rfl
    | some t => exact h t rfl
  induction t using Ty.parts_induction with
  | step t ih =>
      cases t with
      | named head => exact BEq.rfl
      | applied owner raw args =>
          have howner := hoption fun t ht =>
            ih t (List.mem_append_left _ (Option.mem_toList.2 ht))
          have hargs := weakenList_beq fun t ht => ih t (List.mem_append_right _ ht)
          rw [weaken, Ty.applied_beq_applied, howner, hargs, Bool.and_true, Bool.and_true]
          exact BEq.rfl
      | array component => exact ih component (List.mem_singleton.2 rfl)
      | var param =>
          show (heap.weakenVar param == param) = true
          rw [weakenVar]
          split
          · exact TypeVar.beq_iff.2 ⟨rfl, rfl⟩
          · exact BEq.rfl
      | wildcard upper lower =>
          have hlower := hoption fun t ht =>
            ih t (List.mem_cons_of_mem _ (Option.mem_toList.2 ht))
          rw [weaken, Ty.wildcard_beq_wildcard, ih upper List.mem_cons_self, hlower]
          rfl

/-- Readers of a variable see what is in its cell. -/
theorem bounds_of_slot {heap : Heap} {param : TypeVar} {stored : List Ty}
    (h : heap.slot param.cell = .bound stored) : heap.bounds param = stored := by
  rw [bounds, boundsAt, h]

/-- In every heap that operations make, filled cells hold a bound. -/
theorem Made.ne_nil {heap : Heap} (h : heap.Made) {cell : CellId} {stored : List Ty}
    (hslot : heap.slot cell = .bound stored) : stored ≠ [] := by
  induction h generalizing cell stored with
  | empty => cases hslot
  | declare name declaration _ ih =>
      rw [slot_declare] at hslot
      split at hslot
      · cases hslot
      · exact ih hslot
  | @bind heap after param bounds _ hbind ih =>
      rw [(stores_of_bind hbind).slot] at hslot
      split at hslot
      · cases hslot
        cases bounds <;> exact nofun
      · exact ih hslot
  | @settleAll heap cells _ ih =>
      rw [slot_settleAll] at hslot
      split at hslot
      · cases hold : heap.slot cell with
        | unbound =>
            rw [hold] at hslot
            cases hslot
            exact nofun
        | bound kept =>
            rw [hold] at hslot
            cases hslot
            exact ih hold
        | released =>
            rw [hold] at hslot
            cases hslot
      · exact ih hslot
  | release cells _ ih => exact ih (slot_release hslot)

/-- In every heap that operations make, readers see a bound. -/
theorem Made.boundsAt_ne_nil {heap : Heap} (h : heap.Made) (cell : CellId) :
    heap.boundsAt cell ≠ [] := by
  rw [boundsAt]
  cases hslot : heap.slot cell with
  | bound stored => exact h.ne_nil hslot
  | unbound | released => exact List.cons_ne_nil _ _

end Heap

namespace Script.Eval

/-- Bounds are handed to the heap. -/
theorem bind_eq (heap : Heap) (param : TypeVar) (bounds : List Ty) :
    Eval.bind param bounds heap =
      (Eval.ofExcept (heap.bind param bounds) >>= fun after => set after : Eval Unit) heap := rfl

/-- A variable is bound exactly if the heap accepts the bounds. -/
theorem bind_ok_iff {heap after : Heap} {param : TypeVar} {bounds : List Ty} :
    Eval.bind param bounds heap = (.ok (), after) ↔ heap.bind param bounds = .ok after := by
  rw [bind_eq]
  cases heap.bind param bounds with
  | ok filled => exact ⟨fun h => by cases h; rfl, fun h => by cases h; rfl⟩
  | error refusal => exact ⟨nofun, nofun⟩

/-- Bounds that are refused leave the heap as it is. -/
theorem bind_error {heap after : Heap} {param : TypeVar} {bounds : List Ty} {failure : Failure}
    (h : Eval.bind param bounds heap = (.error failure, after)) : after = heap := by
  rw [bind_eq] at h
  cases hbind : heap.bind param bounds with
  | ok filled =>
      rw [hbind] at h
      cases h
  | error refusal =>
      rw [hbind] at h
      cases h
      rfl

/-- A variable whose cell is not unbound cannot be bound. -/
theorem bind_refuses {heap : Heap} {param : TypeVar} (hslot : heap.slot param.cell ≠ .unbound)
    (bounds : List Ty) : ∃ failure, Eval.bind param bounds heap = (.error failure, heap) := by
  rw [bind_eq]
  cases hbind : heap.bind param bounds with
  | ok after => exact absurd (Heap.bind_iff.1 hbind).2.1 hslot
  | error refusal => exact ⟨.refused refusal, rfl⟩

/-- Reading bounds gives what was in the cell and settles it. -/
theorem readBounds_eq (heap : Heap) (param : TypeVar) :
    Eval.readBounds param heap = (.ok (heap.bounds param), heap.settle param.cell) := by
  have hsame : (heap.settle param.cell).bounds param = heap.bounds param :=
    heap.boundsAt_settle param.cell param.cell
  show (Except.ok ((heap.settle param.cell).bounds param), heap.settle param.cell) = _
  rw [hsame]

end Script.Eval

/-! ## What was done -/

/-- Something that was done to a living cell. -/
inductive Deed where
  /-- Its variable was given bounds. -/
  | bound (cell : CellId) (given : List Ty)
  /-- Its bounds were read, by the program or by a question. -/
  | read (cell : CellId) (seen : List Ty)

namespace Deed

/-- The cell to which something was done. -/
def cell : Deed → CellId
  | .bound cell _ => cell
  | .read cell _ => cell

/-- The bounds in the cell are those that were given, or none and the universal supertype stands for
them, or those that were seen. -/
def Shows : Deed → List Ty → Prop
  | .bound _ given, stored => (stored == orTop given) = true
  | .read _ seen, stored => stored = seen

end Deed

namespace Holding

variable {state : Holding} {past : List Deed}

/-- Whether a cell lives. -/
def isAlive (state : Holding) (cell : CellId) : Bool :=
  (state.heap.alive state.outside)[cell]?.getD false

/-- What reading cells does to those that live. -/
def readings (state : Holding) (cells : List CellId) : List Deed :=
  (cells.filter state.isAlive).map fun cell => .read cell (state.heap.boundsAt cell)

/-- A program that has nothing comes to a state by operations. The list has what it did to living
cells, the latest first. -/
inductive History : List Deed → Holding → Prop where
  | start : History [] start
  /-- A variable is declared. -/
  | declare {past : List Deed} {state : Holding} {name declaration : String} {param : TypeVar}
      {after : Heap} : History past state →
      Eval.declare name declaration state.heap = (.ok param, after) →
      History past ⟨after, .var param :: state.types, state.readers⟩
  /-- A variable is given bounds. -/
  | bind {past : List Deed} {state : Holding} {param : TypeVar} {bounds : List Ty} {after : Heap} :
      History past state → .var param ∈ state.types → bounds ⊆ state.types →
      Eval.bind param bounds state.heap = (.ok (), after) →
      History (.bound param.cell bounds :: past) { state with heap := after }
  /-- Bounds are refused. -/
  | refuse {past : List Deed} {state : Holding} {param : TypeVar} {bounds : List Ty}
      {failure : Failure} {after : Heap} :
      History past state → .var param ∈ state.types → bounds ⊆ state.types →
      Eval.bind param bounds state.heap = (.error failure, after) →
      History past { state with heap := after }
  /-- The bounds of a variable are read, and kept together with its cell. -/
  | read {past : List Deed} {state : Holding} {param : TypeVar} {seen : List Ty} {after : Heap} :
      History past state → .var param ∈ state.types → state.Alive param.cell →
      Eval.readBounds param state.heap = (.ok seen, after) →
      History (.read param.cell seen :: past)
        ⟨after, seen ++ state.types, param.cell :: state.readers⟩
  /-- The bounds of a variable are read whose cell does not live. -/
  | miss {past : List Deed} {state : Holding} {param : TypeVar} {seen : List Ty} {after : Heap} :
      History past state → .var param ∈ state.types → ¬ state.Alive param.cell →
      Eval.readBounds param state.heap = (.ok seen, after) →
      History past ⟨after, seen ++ state.types, state.readers⟩
  /-- A question is asked. -/
  | ask {past : List Deed} {state : Holding} {frame : Frame} {progress after : Progress}
      {inquiry : Inquiry} {fuel : Nat} {answer : inquiry.Answer} {trail : Trail} :
      History past state → progress.world.heap = state.heap →
      inquiry.ask (progress.context frame) fuel progress.trail = some (answer, trail) →
      Run.query frame (fun context => inquiry.ask context fuel) progress =
        some (.ok answer, after) →
      History (state.readings trail.reads ++ past) { state with heap := after.world.heap }
  /-- A type is put together from variables that the program has. -/
  | take {past : List Deed} {state : Holding} {t : Ty} : History past state →
      (∀ param, t.Mentions param → state.Knows param) →
      History past { state with types := t :: state.types }
  /-- Types and bounds are dropped. -/
  | drop {past : List Deed} {state : Holding} {types : List Ty} {readers : List CellId} :
      History past state → types ⊆ state.types → readers ⊆ state.readers →
      History past (state.dropped types readers)

/-! ## The record agrees with the heap -/

/-- What was done to a cell shows in it until it is released, and something was done to every cell
that lives and is filled. -/
structure Recorded (past : List Deed) (state : Holding) : Prop where
  there : ∀ deed ∈ past, deed.cell < state.heap.slots.size
  shown : ∀ deed ∈ past, state.heap.slot deed.cell = .released ∨
    ∃ stored, state.heap.slot deed.cell = .bound stored ∧ deed.Shows stored
  filled : ∀ {cell stored}, state.Alive cell → state.heap.slot cell = .bound stored →
    ∃ deed ∈ past, deed.cell = cell

/-- The marks tell which cells live. -/
theorem UpToDate.isAlive_iff (h : state.UpToDate) {cell : CellId} :
    state.isAlive cell = true ↔ state.Alive cell := by
  have hmark : (state.heap.alive state.outside)[cell]? = some true ↔ state.Alive cell := by
    rw [Heap.alive_iff]
    exact and_iff_right_of_imp fun hcell => Heap.lt_size_of_slot (h.living hcell)
  rw [← hmark, isAlive]
  cases (state.heap.alive state.outside)[cell]? with
  | none => simp
  | some marked => simp

/-- What reading cells does to those that live. -/
theorem UpToDate.mem_readings (h : state.UpToDate) {cells : List CellId} {deed : Deed} :
    deed ∈ state.readings cells ↔
      ∃ cell ∈ cells, state.Alive cell ∧ deed = .read cell (state.heap.boundsAt cell) := by
  simp only [readings, List.mem_map, List.mem_filter, h.isAlive_iff]
  grind

/-- Reading a cell that lives is something that is done to it. -/
theorem UpToDate.readings_alive (h : state.UpToDate) {cell : CellId} (hcell : state.Alive cell) :
    state.readings [cell] = [.read cell (state.heap.boundsAt cell)] := by
  rw [readings, List.filter_cons_of_pos (h.isAlive_iff.2 hcell)]
  rfl

/-- Reading a cell that does not live does nothing to it. -/
theorem UpToDate.readings_dead (h : state.UpToDate) {cell : CellId} (hcell : ¬ state.Alive cell) :
    state.readings [cell] = [] := by
  rw [readings, List.filter_cons_of_neg fun halive => hcell (h.isAlive_iff.1 halive)]
  rfl

/-- A living cell holds what its readers saw. -/
theorem UpToDate.slot_settled (h : state.UpToDate) {cells : List CellId} {cell : CellId}
    (hread : cell ∈ cells) (hcell : state.Alive cell) :
    (state.settled cells).heap.slot cell = .bound (state.heap.boundsAt cell) := by
  rw [Holding.settled, Heap.slot_settleAll, if_pos hread, Heap.boundsAt]
  cases hslot : state.heap.slot cell with
  | unbound | bound => rfl
  | released => exact absurd hslot (h.living hcell)

/-- The program has the variables in what it read. -/
theorem UpToDate.knows_read (h : state.UpToDate) {param : TypeVar} (hparam : state.Knows param)
    {t : Ty} (ht : t ∈ state.heap.bounds param) {other : TypeVar} (hother : t.Mentions other) :
    (state.settled [param.cell]).Knows other := by
  by_cases hcell : state.Alive param.cell
  · exact .inr ⟨param.cell, _, alive_settled.2 hcell,
      h.slot_settled (List.mem_singleton.2 rfl) hcell, t, ht, hother⟩
  · rw [Heap.bounds, Heap.boundsAt, h.slot_of_dead hparam hcell] at ht
    cases List.mem_singleton.1 ht
    exact absurd hother Ty.not_mentions_top

namespace Recorded

/-- Nothing was done to a cell that is unbound. -/
theorem untouched (h : Recorded past state) {cell : CellId}
    (hslot : state.heap.slot cell = .unbound) {deed : Deed} (hdeed : deed ∈ past) :
    deed.cell ≠ cell := by
  rintro rfl
  rcases h.shown deed hdeed with hreleased | ⟨stored, hbound, _⟩
  · cases hslot.symm.trans hreleased
  · cases hslot.symm.trans hbound

/-- What was done to a living cell shows in it. -/
theorem shows (h : Recorded past state) (hup : state.UpToDate) {deed : Deed} (hdeed : deed ∈ past)
    (halive : state.Alive deed.cell) :
    ∃ stored, state.heap.slot deed.cell = .bound stored ∧ deed.Shows stored :=
  (h.shown deed hdeed).resolve_left (hup.living halive)

/-- The record agrees with the heap as long as cells are released and not filled. -/
theorem kept {after : Holding} (h : Recorded past state)
    (hsize : state.heap.slots.size ≤ after.heap.slots.size)
    (hslot : ∀ cell < state.heap.slots.size,
      after.heap.slot cell = state.heap.slot cell ∨ after.heap.slot cell = .released)
    (hfilled : ∀ {cell stored}, after.Alive cell → after.heap.slot cell = .bound stored →
      state.Alive cell ∧ state.heap.slot cell = .bound stored) : Recorded past after where
  there deed hdeed := Nat.lt_of_lt_of_le (h.there deed hdeed) hsize
  shown deed hdeed := by
    rcases hslot deed.cell (h.there deed hdeed) with hsame | hreleased
    · rw [hsame]
      exact h.shown deed hdeed
    · exact .inl hreleased
  filled hcell hstored := by
    obtain ⟨hcell, hstored⟩ := hfilled hcell hstored
    exact h.filled hcell hstored

/-- Declaring a variable does nothing to the cells that are there. -/
theorem declared (h : Recorded past state) (name declaration : String) :
    Recorded past (state.declared name declaration) := by
  have hslot := state.heap.slot_declare name declaration
  refine h.kept ?_ (fun cell hcell => ?_) (fun {cell stored} hcell hstored => ?_)
  · show _ ≤ (state.heap.slots.push Slot.unbound).size
    rw [Array.size_push]
    exact Nat.le_succ _
  · rw [Holding.declared, hslot, if_neg (Nat.ne_of_lt hcell)]
    exact .inl rfl
  · rw [Holding.declared, hslot] at hstored
    split at hstored
    · cases hstored
    · rename_i hne
      exact ⟨(alive_declared.1 hcell).resolve_left hne, hstored⟩

/-- Binding a variable is recorded. -/
theorem bind (h : Recorded past state) {param : TypeVar} {bounds : List Ty} {after : Heap}
    (hbounds : bounds ⊆ state.types) (hbind : state.heap.bind param bounds = .ok after) :
    Recorded (.bound param.cell bounds :: past) { state with heap := after } := by
  have hstores := Heap.stores_of_bind hbind
  have hold {deed : Deed} (hdeed : deed ∈ past) : param.cell ≠ deed.cell :=
    (h.untouched hstores.unbound hdeed).symm
  constructor
  case there =>
      rw [hstores.size, List.forall_mem_cons]
      exact ⟨Heap.lt_size_of_slot (by rw [Deed.cell, hstores.unbound]; exact nofun), h.there⟩
  case shown =>
      rw [List.forall_mem_cons]
      constructor
      · refine .inr ⟨_, (hstores.slot param.cell).trans (if_pos rfl), ?_⟩
        exact Heap.weakenList_beq fun t _ => state.heap.weaken_beq t
      · intro deed hdeed
        rw [hstores.slot, if_neg (hold hdeed)]
        exact h.shown deed hdeed
  case filled =>
      intro cell stored hcell hstored
      rw [hstores.slot] at hstored
      split at hstored
      · rename_i hsame
        exact ⟨_, List.mem_cons_self, hsame⟩
      · obtain ⟨deed, hdeed, hsame⟩ :=
          h.filled ((alive_stored hbounds hstores).1 hcell) hstored
        exact ⟨deed, List.mem_cons_of_mem _ hdeed, hsame⟩

/-- Reading cells is recorded of those that live. -/
theorem settled (h : Recorded past state) (hup : state.UpToDate) (cells : List CellId) :
    Recorded (state.readings cells ++ past) (state.settled cells) := by
  have hslot := state.heap.slot_settleAll cells
  constructor
  case there =>
      intro deed hdeed
      rw [Holding.settled, Heap.size_settleAll]
      rcases List.mem_append.1 hdeed with hnew | hold
      · obtain ⟨cell, _, hcell, rfl⟩ := hup.mem_readings.1 hnew
        exact Heap.lt_size_of_slot (hup.living hcell)
      · exact h.there deed hold
  case shown =>
      intro deed hdeed
      rcases List.mem_append.1 hdeed with hnew | hold
      · obtain ⟨cell, hread, hcell, rfl⟩ := hup.mem_readings.1 hnew
        exact .inr ⟨_, hup.slot_settled hread hcell, rfl⟩
      · -- what is not unbound stays as it is
        have hsame : (state.heap.slot deed.cell).settled = state.heap.slot deed.cell := by
          cases hcontent : state.heap.slot deed.cell with
          | unbound => exact absurd rfl (h.untouched hcontent hold)
          | bound | released => rfl
        rw [Holding.settled, hslot, hsame, ite_self]
        exact h.shown deed hold
  case filled =>
      intro cell stored hcell hstored
      rw [alive_settled] at hcell
      by_cases hread : cell ∈ cells
      · exact ⟨_, List.mem_append_left _ (hup.mem_readings.2 ⟨cell, hread, hcell, rfl⟩), rfl⟩
      · rw [Holding.settled, hslot, if_neg hread] at hstored
        obtain ⟨deed, hdeed, hsame⟩ := h.filled hcell hstored
        exact ⟨deed, List.mem_append_right _ hdeed, hsame⟩

/-- Holding more of what lives does nothing to cells. -/
theorem gained (h : Recorded past state) {types : List Ty} {readers : List CellId}
    (htypes : ∀ cell ∈ Ty.ownedList types, state.Alive cell)
    (hreaders : ∀ cell ∈ readers, state.Alive cell) : Recorded past (state.gained types readers) :=
  h.kept (Nat.le_refl _) (fun _ _ => .inl rfl) fun hcell hstored =>
    ⟨(alive_gained htypes hreaders).1 hcell, hstored⟩

/-- Dropping something does nothing to cells, but some are released. -/
theorem dropped (h : Recorded past state) {types : List Ty} {readers : List CellId}
    (htypes : types ⊆ state.types) (hreaders : readers ⊆ state.readers) :
    Recorded past (state.dropped types readers) := by
  refine h.kept (Nat.le_of_eq (Heap.size_release _ _).symm) (fun cell _ => ?_)
    (fun {cell stored} hcell hstored => ⟨hcell.of_dropped htypes hreaders, ?_⟩)
  · rw [slot_dropped]
    split
    · exact .inr rfl
    · exact .inl rfl
  · rw [slot_dropped] at hstored
    split at hstored
    · cases hstored
    · exact hstored

end Recorded

/-- Whatever a program does, the heap agrees with what it has and with what it did. -/
theorem History.invariant (h : History past state) : state.UpToDate ∧ Recorded past state := by
  induction h with
  | start => exact ⟨.start, nofun, nofun, fun _ hstored => by cases hstored⟩
  | declare _ hrun ih =>
      cases hrun
      exact ⟨ih.1.declared _ _, ih.2.declared _ _⟩
  | bind _ _ hbounds hrun ih =>
      have hbind := Eval.bind_ok_iff.1 hrun
      exact ⟨ih.1.bind hbounds hbind, ih.2.bind hbounds hbind⟩
  | refuse _ _ _ hrun ih =>
      cases Eval.bind_error hrun
      exact ih
  | @read past state param seen after _ hparam hcell hrun ih =>
      obtain ⟨hup, hrecorded⟩ := ih
      cases (Eval.readBounds_eq state.heap param).symm.trans hrun
      have hknown : state.Knows param := .inl ⟨_, hparam, .self⟩
      have hseen : ∀ t ∈ state.heap.bounds param, ∀ other, t.Mentions other →
          (state.settled [param.cell]).Knows other := fun _ ht _ => hup.knows_read hknown ht
      have hcells : ∀ cell ∈ [param.cell], (state.settled [param.cell]).Alive cell :=
        List.forall_mem_singleton.2 (alive_settled.2 hcell)
      have hafter := hrecorded.settled hup [param.cell]
      rw [hup.readings_alive hcell] at hafter
      exact ⟨(hup.settled [param.cell]).gained hseen hcells,
        hafter.gained (fun _ => alive_of_knows hseen) hcells⟩
  | @miss past state param seen after _ hparam hcell hrun ih =>
      obtain ⟨hup, hrecorded⟩ := ih
      cases (Eval.readBounds_eq state.heap param).symm.trans hrun
      have hknown : state.Knows param := .inl ⟨_, hparam, .self⟩
      have hseen : ∀ t ∈ state.heap.bounds param, ∀ other, t.Mentions other →
          (state.settled [param.cell]).Knows other := fun _ ht _ => hup.knows_read hknown ht
      have hnone : ∀ cell ∈ ([] : List CellId), (state.settled [param.cell]).Alive cell :=
        List.forall_mem_nil _
      have hafter := hrecorded.settled hup [param.cell]
      rw [hup.readings_dead hcell] at hafter
      exact ⟨(hup.settled [param.cell]).gained hseen hnone,
        hafter.gained (fun _ => alive_of_knows hseen) hnone⟩
  | @ask past state frame progress after inquiry fuel answer trail _ hheap htrail hrun ih =>
      obtain ⟨hup, hrecorded⟩ := ih
      cases (query_of_some htrail).symm.trans hrun
      have hsettled : (progress.follow trail).world.heap = state.heap.settleAll trail.reads := by
        rw [← hheap]
        rfl
      rw [hsettled]
      exact ⟨hup.settled trail.reads, hrecorded.settled hup trail.reads⟩
  | @take past state t _ ht ih =>
      have htypes : ∀ s ∈ [t], ∀ param, s.Mentions param → state.Knows param :=
        List.forall_mem_singleton.2 ht
      have hnone : ∀ cell ∈ ([] : List CellId), state.Alive cell := List.forall_mem_nil _
      exact ⟨ih.1.gained htypes hnone, ih.2.gained (fun _ => alive_of_knows htypes) hnone⟩
  | drop _ htypes hreaders ih =>
      exact ⟨ih.1.dropped htypes hreaders, ih.2.dropped htypes hreaders⟩

/-- Whatever a program does, its heap is made by operations on heaps. -/
theorem History.made (h : History past state) : state.heap.Made := by
  induction h with
  | start => exact .empty
  | @declare _ _ name declaration _ _ _ hrun ih =>
      cases hrun
      exact .declare name declaration ih
  | bind _ _ _ hrun ih => exact .bind ih (Eval.bind_ok_iff.1 hrun)
  | refuse _ _ _ hrun ih =>
      cases Eval.bind_error hrun
      exact ih
  | @read _ state param _ _ _ _ _ hrun ih | @miss _ state param _ _ _ _ _ hrun ih =>
      cases (Eval.readBounds_eq state.heap param).symm.trans hrun
      exact .settleAll [param.cell] ih
  | @ask _ _ _ _ _ _ _ _ trail _ hheap htrail hrun ih =>
      cases (query_of_some htrail).symm.trans hrun
      exact .settleAll trail.reads (hheap ▸ ih)
  | take _ _ ih => exact ih
  | drop _ _ _ ih => exact .release _ ih

/-- A variable is bound if and only if the bounds are references among which a variable stands
alone, its cell lives, and nothing was done to the cell. -/
theorem History.binds_iff (h : History past state) {param : TypeVar} (hparam : state.Knows param)
    (bounds : List Ty) : (∃ after, Eval.bind param bounds state.heap = (.ok (), after)) ↔
      FormedBounds bounds ∧ state.Alive param.cell ∧ ∀ deed ∈ past, deed.cell ≠ param.cell := by
  obtain ⟨hup, hrecorded⟩ := h.invariant
  constructor
  · rintro ⟨after, hrun⟩
    obtain ⟨hformed, hslot, _⟩ := Heap.bind_iff.1 (Eval.bind_ok_iff.1 hrun)
    refine ⟨hformed, (hup.alive_iff hparam).2 ?_, fun deed => hrecorded.untouched hslot⟩
    rw [hslot]
    exact nofun
  · rintro ⟨hformed, halive, huntouched⟩
    have hslot : state.heap.slot param.cell = .unbound := by
      cases hslot : state.heap.slot param.cell with
      | unbound => rfl
      | bound stored =>
          obtain ⟨deed, hdeed, hsame⟩ := hrecorded.filled halive hslot
          exact absurd hsame (huntouched deed hdeed)
      | released => exact absurd hslot (hup.living halive)
    exact ⟨_, Eval.bind_ok_iff.2 (Heap.bind_iff.2 ⟨hformed, hslot, rfl⟩)⟩

/-- What holds of a handle after all that was done. -/
structure WrittenOnce (past : List Deed) (state : Holding) (param : TypeVar) : Prop where
  /-- The variable is bound exactly if the bounds are references among which a variable stands
  alone, the cell lives, and nothing was done to it. -/
  binds : ∀ bounds, (∃ after, Eval.bind param bounds state.heap = (.ok (), after)) ↔
    FormedBounds bounds ∧ state.Alive param.cell ∧ ∀ deed ∈ past, deed.cell ≠ param.cell
  /-- Readers see the bounds that were given, or the universal supertype if there were none. -/
  given : ∀ bounds, .bound param.cell bounds ∈ past → state.Alive param.cell →
    ∃ seen after, Eval.readBounds param state.heap = (.ok seen, after) ∧
      (seen == orTop bounds) = true
  /-- Readers see what was seen before, and the variable cannot be bound any more. -/
  seen : ∀ bounds, .read param.cell bounds ∈ past → state.Alive param.cell →
    (∃ after, Eval.readBounds param state.heap = (.ok bounds, after)) ∧
      ∀ other, ∃ failure, Eval.bind param other state.heap = (.error failure, state.heap)
  /-- Bounds that are refused change nothing. -/
  refused : ∀ bounds failure after, Eval.bind param bounds state.heap = (.error failure, after) →
    after = state.heap
  /-- A cell that does not live reads as the universal supertype and cannot be bound. -/
  lost : ¬ state.Alive param.cell →
    (∃ after, Eval.readBounds param state.heap = (.ok [.top], after)) ∧
      ∀ bounds, ∃ failure, Eval.bind param bounds state.heap = (.error failure, state.heap)
  /-- Readers see some bound. -/
  filled : ∀ seen after, Eval.readBounds param state.heap = (.ok seen, after) → seen ≠ []

/-- Bounds are written once and are never empty: whatever a program has done, what `WrittenOnce`
says holds of every handle that it has. And nothing is read unnoticed, since the trail of a question
lists all cells on which the answer depends. -/
theorem bounds_written_once (h : History past state) {param : TypeVar}
    (hparam : state.Knows param) : WrittenOnce past state param ∧
      ∀ env memoize fuel inquiry,
        Query.Tracks fun heap => Inquiry.ask ⟨env, heap, memoize⟩ fuel inquiry := by
  obtain ⟨hup, hrecorded⟩ := h.invariant
  have hread := Eval.readBounds_eq state.heap param
  refine ⟨?_, Inquiry.tracks⟩
  constructor
  case binds => exact h.binds_iff hparam
  case given =>
      intro bounds hdeed halive
      obtain ⟨stored, hslot, hshows⟩ := hrecorded.shows hup hdeed halive
      rw [hread, Heap.bounds_of_slot hslot]
      exact ⟨stored, _, rfl, hshows⟩
  case seen =>
      intro bounds hdeed halive
      obtain ⟨stored, hslot, rfl⟩ := hrecorded.shows hup hdeed halive
      rw [hread, Heap.bounds_of_slot hslot]
      refine ⟨⟨_, rfl⟩, Eval.bind_refuses fun hunbound => ?_⟩
      cases hunbound.symm.trans hslot
  case refused => exact fun bounds failure after => Eval.bind_error
  case lost =>
      intro hdead
      have hslot := hup.slot_of_dead hparam hdead
      rw [hread, Heap.bounds, Heap.boundsAt, hslot]
      refine ⟨⟨_, rfl⟩, Eval.bind_refuses fun hunbound => ?_⟩
      cases hunbound.symm.trans hslot
  case filled =>
      intro seen after hrun
      cases hread.symm.trans hrun
      exact h.made.boundsAt_ne_nil param.cell

section Enumerations

/-- The variable of an enumeration. -/
def enumVar (handle : Handle) : TypeVar := ⟨"E", "Enum", handle⟩

/-- The enumeration of a variable. -/
def enumOf (param : TypeVar) : Ty := .applied none ⟨⟨"Enum", .classType, 1⟩, rfl⟩ [.var param]

/-- A variable that is never bound. -/
def bareVar : TypeVar := ⟨"T", "Box", .owning 1⟩

/-- The bound of the enumeration's variable was read and is held beside the variable. -/
def enumHeld : Holding where
  heap := ⟨#[.bound [enumOf (enumVar (.back 0))], .bound [.top]], [0]⟩
  types := [enumOf (enumVar (.back 0)), .var bareVar, enumOf (enumVar (.owning 0)),
    .var (enumVar (.owning 0))]
  readers := [0]

/-- What was done until then. -/
def enumPast : List Deed :=
  [.read 0 [enumOf (enumVar (.back 0))], .read 1 [.top], .bound 0 [enumOf (enumVar (.owning 0))]]

/-- The variable of the enumeration is bound to the enumeration of itself, the supertypes of the
other one are asked for, and the bound is read. -/
theorem enumHeld_history : History enumPast enumHeld := by
  let own : Ty := .var (enumVar (.owning 0))
  let bound : Ty := enumOf (enumVar (.owning 0))
  let stored : Ty := enumOf (enumVar (.back 0))
  have hdeclared : History [] ⟨⟨#[.unbound], []⟩, [own], []⟩ := .declare .start rfl
  have htaken : History [] ⟨⟨#[.unbound], []⟩, [bound, own], []⟩ := by
    refine .take hdeclared fun param hparam => .inl ⟨own, List.mem_singleton.2 rfl, ?_⟩
    obtain ⟨part, hpart, hparam⟩ := (Ty.mentions_iff rfl).1 hparam
    cases List.mem_singleton.1 hpart
    exact hparam
  have hbound : History [.bound 0 [bound]] ⟨⟨#[.bound [stored]], [0]⟩, [bound, own], []⟩ := by
    have hown : .var (enumVar (.owning 0)) ∈ [bound, own] := by simp [own]
    exact .bind htaken hown (List.cons_subset_cons _ (List.nil_subset _)) rfl
  let before : Holding := ⟨⟨#[.bound [stored], .unbound], [0]⟩, [.var bareVar, bound, own], []⟩
  have hbare : History [.bound 0 [bound]] before := .declare hbound rfl
  have hasked : History [.read 1 [.top], .bound 0 [bound]]
      ⟨⟨#[.bound [stored], .bound [.top]], [0]⟩, [.var bareVar, bound, own], []⟩ := by
    let progress : Progress := ⟨⟨before.heap, .base, .empty, []⟩, .empty, []⟩
    let inquiry : Inquiry := .supertypes (.var bareVar)
    obtain ⟨answer, trail, hanswer, hreads⟩ : ∃ answer trail,
        inquiry.ask (progress.context looseFrame) 5 progress.trail = some (answer, trail) ∧
          trail.reads = [1] := ⟨_, _, rfl, rfl⟩
    have hheap : (progress.follow trail).world.heap = before.heap.settleAll [1] := hreads ▸ rfl
    have hafter := hbare.ask rfl hanswer (query_of_some hanswer)
    rw [hreads, hheap] at hafter
    exact hafter
  have hown : .var (enumVar (.owning 0)) ∈ [.var bareVar, bound, own] := by simp [own]
  exact .read hasked hown (alive_of_mem hown (List.mem_singleton.2 rfl)) rfl

/-- Nothing is held any more but the bound and the other variable. -/
def enumLost : Holding := enumHeld.dropped [enumOf (enumVar (.back 0)), .var bareVar] []

/-- While the variable lives, its bound is equal to the one that was given. Once it is dropped, the
bound names a variable that reads as the universal supertype; and neither that one can be bound nor
the other one, which was read by a question only. -/
theorem enum_bound_kept_then_lost :
    (History enumPast enumHeld ∧ enumHeld.Knows (enumVar (.owning 0)) ∧
      ∃ seen after, Eval.readBounds (enumVar (.owning 0)) enumHeld.heap = (.ok seen, after) ∧
        (seen == [enumOf (enumVar (.owning 0))]) = true) ∧
    History enumPast enumLost ∧ enumLost.Knows (enumVar (.back 0)) ∧ enumLost.Knows bareVar ∧
      (∃ after, Eval.readBounds (enumVar (.back 0)) enumLost.heap = (.ok [.top], after)) ∧
      ∀ bounds,
        (∃ failure, Eval.bind (enumVar (.back 0)) bounds enumLost.heap =
          (.error failure, enumLost.heap)) ∧
        ∃ failure, Eval.bind bareVar bounds enumLost.heap = (.error failure, enumLost.heap) := by
  have hkept := enumHeld_history
  have hlost : History enumPast enumLost :=
    .drop hkept (by simp [enumHeld]) (List.nil_subset _)
  have hown : enumHeld.Knows (enumVar (.owning 0)) :=
    .inl ⟨.var (enumVar (.owning 0)), by simp [enumHeld], .self⟩
  have hback : enumLost.Knows (enumVar (.back 0)) :=
    .inl ⟨_, List.mem_cons_self, .part (List.mem_singleton.2 rfl) .self⟩
  have hbare : .var bareVar ∈ enumLost.types := List.mem_cons_of_mem _ List.mem_cons_self
  have hknown : enumLost.Knows bareVar := .inl ⟨_, hbare, .self⟩
  have hdead : ¬ enumLost.Alive 0 := fun h =>
    absurd (hlost.invariant.1.isAlive_iff.2 h) (by decide)
  have hgiven : .bound (enumVar (.owning 0)).cell [enumOf (enumVar (.owning 0))] ∈ enumPast :=
    List.mem_cons_of_mem _ (List.mem_cons_of_mem _ List.mem_cons_self)
  have hread : .read bareVar.cell [.top] ∈ enumPast :=
    List.mem_cons_of_mem _ List.mem_cons_self
  have hsees := (bounds_written_once hkept hown).1.given _ hgiven (hown.alive rfl)
  obtain ⟨hreads, hrefuses⟩ := (bounds_written_once hlost hback).1.lost hdead
  obtain ⟨_, hrefuses'⟩ := (bounds_written_once hlost hknown).1.seen _ hread
    (alive_of_mem hbare (List.mem_singleton.2 rfl))
  exact ⟨⟨hkept, hown, hsees⟩, hlost, hback, hknown, hreads,
    fun bounds => ⟨hrefuses bounds, hrefuses' bounds⟩⟩

end Enumerations

end Holding

end Nominal
