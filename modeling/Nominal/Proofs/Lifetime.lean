import Mathlib.Data.Finset.Max
import Nominal.Bounds.Release
import Nominal.Proofs.Ownership

/-!
# Cells that are freed

Reference counting releases a cell when no handle of it is left. Since ownership has no cycles, this
releases exactly the cells that cannot be reached by owning handles from outside. `Heap.alive` marks
the cells that can be reached, so `Heap.stranded` finds exactly those cells behind back references
that counting releases. The main statement is `Holding.counting_frees_unreachable`.
-/

namespace Nominal

/-- Whether a cell is not released. -/
def Slot.isLiving : Slot → Bool
  | .released => false
  | .unbound | .bound _ => true

namespace Heap

/-- Owning handles lead from one of the cells to a cell. -/
def Reaches (heap : Heap) (cells : List CellId) (cell : CellId) : Prop :=
  ∃ root ∈ cells, Relation.ReflTransGen heap.Owns root cell

/-- The cells themselves are reached. -/
theorem reaches_of_mem {heap : Heap} {cells : List CellId} {cell : CellId} (h : cell ∈ cells) :
    heap.Reaches cells cell := ⟨cell, h, .refl⟩

/-- What a cell that is reached owns is reached. -/
theorem Reaches.tail {heap : Heap} {cells : List CellId} {cell other : CellId}
    (h : heap.Reaches cells cell) (howns : other ∈ heap.owns cell) : heap.Reaches cells other := by
  obtain ⟨root, hroot, hpath⟩ := h
  exact ⟨root, hroot, hpath.tail (owns_iff.2 howns)⟩

/-- What is reached is one of the cells, or owned by a cell that is reached. -/
theorem Reaches.cases {heap : Heap} {cells : List CellId} {cell : CellId}
    (h : heap.Reaches cells cell) :
    cell ∈ cells ∨ ∃ owner, heap.Reaches cells owner ∧ cell ∈ heap.owns owner := by
  obtain ⟨root, hroot, hpath⟩ := h
  rcases hpath.cases_tail with rfl | ⟨owner, hbefore, howns⟩
  · exact .inl hroot
  · exact .inr ⟨owner, ⟨root, hroot, hbefore⟩, owns_iff.1 howns⟩

/-! ## Marks -/

/-- The number of cells without a mark. -/
def unmarked (marks : Array Bool) : Nat := marks.toList.count false

/-- What marking cells does. -/
structure Marks (marks : Array Bool) (cells : List CellId) (marks' : Array Bool)
    (fresh : List CellId) : Prop where
  size : marks'.size = marks.size
  marked : ∀ {cell : CellId},
    marks'[cell]? = some true ↔ marks[cell]? = some true ∨ cell ∈ fresh
  all : ∀ {cell : CellId}, cell ∈ cells → cell < marks.size → marks'[cell]? = some true
  only : ∀ {cell : CellId}, cell ∈ fresh → cell ∈ cells
  left : unmarked marks' + fresh.length = unmarked marks

/-- Setting a mark leaves one cell less without a mark. -/
theorem unmarked_set {marks : Array Bool} {cell : CellId} (h : marks[cell]? = some false) :
    unmarked (marks.setIfInBounds cell true) + 1 = unmarked marks := by
  obtain ⟨hlt, hfalse⟩ := Array.getElem?_eq_some_iff.1 h
  have hlength : cell < marks.toList.length := hlt
  have hmem : false ∈ marks.toList := List.mem_iff_getElem.2 ⟨cell, hlength, hfalse⟩
  have hpos : 0 < marks.toList.count false := List.count_pos_iff.2 hmem
  rw [unmarked, unmarked, Array.toList_setIfInBounds, List.count_set hlength,
    Array.getElem_toList, hfalse]
  show marks.toList.count false - 1 + 0 + 1 = marks.toList.count false
  omega

/-- Marking cells sets their marks, and lists those that had none. -/
theorem marks_mark (marks : Array Bool) (cells : List CellId) :
    Marks marks cells (mark marks cells).1 (mark marks cells).2 := by
  induction cells generalizing marks with
  | nil => exact ⟨rfl, by simp [mark], nofun, nofun, rfl⟩
  | cons cell rest ih =>
      rw [mark]
      split
      · -- the cell has a mark, or there is no such cell
        rename_i hmarked
        have hrest := ih marks
        refine ⟨hrest.size, hrest.marked, fun hother hlt => ?_,
          fun hfresh => List.mem_cons_of_mem _ (hrest.only hfresh), hrest.left⟩
        rcases List.mem_cons.1 hother with rfl | hother
        · rw [Array.getElem?_eq_getElem hlt, Option.getD_some] at hmarked
          exact hrest.marked.2 (.inl (by rw [Array.getElem?_eq_getElem hlt, hmarked]))
        · exact hrest.all hother hlt
      · rename_i hunmarked
        have hfalse : marks[cell]? = some false := by
          cases hmark : marks[cell]? with
          | none => simp [hmark] at hunmarked
          | some marked => simpa [hmark] using hunmarked
        have hlt : cell < marks.size := (Array.getElem?_eq_some_iff.1 hfalse).1
        have hrest := ih (marks.setIfInBounds cell true)
        generalize mark (marks.setIfInBounds cell true) rest = result at hrest ⊢
        obtain ⟨marks', fresh⟩ := result
        have hset {other : CellId} : (marks.setIfInBounds cell true)[other]? = some true ↔
            marks[other]? = some true ∨ other = cell := by
          rw [Array.getElem?_setIfInBounds]
          by_cases hother : cell = other
          · simp [hother, hother ▸ hlt]
          · simp [hother, Ne.symm hother]
        constructor
        case size => exact hrest.size.trans Array.size_setIfInBounds
        case marked =>
            intro other
            rw [hrest.marked, hset, List.mem_cons, or_assoc]
        case all =>
            intro other hother hlt'
            rcases List.mem_cons.1 hother with rfl | hother
            · exact hrest.marked.2 (.inl (hset.2 (.inr rfl)))
            · exact hrest.all hother (by rwa [Array.size_setIfInBounds])
        case only =>
            intro other hother
            rcases List.mem_cons.1 hother with rfl | hother
            · exact List.mem_cons_self
            · exact List.mem_cons_of_mem _ (hrest.only hother)
        case left =>
            have hleft : unmarked marks' + fresh.length = _ := hrest.left
            have hone := unmarked_set hfalse
            show unmarked marks' + (fresh.length + 1) = unmarked marks
            omega

/-- What is marked besides the cells that had a mark: all that can be reached from some cells. -/
structure Spreads (heap : Heap) (marks : Array Bool) (cells : List CellId) (marks' : Array Bool) :
    Prop where
  size : marks'.size = marks.size
  kept : ∀ {cell : CellId}, marks[cell]? = some true → marks'[cell]? = some true
  all : ∀ {cell : CellId}, cell ∈ cells → cell < marks.size → marks'[cell]? = some true
  closed : ∀ {cell other : CellId}, marks'[cell]? = some true → other ∈ heap.owns cell →
    other < marks.size → marks'[other]? = some true
  only : ∀ {cell : CellId}, marks'[cell]? = some true →
    marks[cell]? = some true ∨ heap.Reaches cells cell

/-- What the cells in a list own reaches only what the list reaches. -/
theorem Reaches.of_flatMap {heap : Heap} {cells : List CellId} {cell : CellId}
    (h : heap.Reaches (cells.flatMap heap.owns) cell) : heap.Reaches cells cell := by
  obtain ⟨next, hnext, hpath⟩ := h
  obtain ⟨root, hroot, howns⟩ := List.mem_flatMap.1 hnext
  exact ⟨root, hroot, hpath.head (owns_iff.2 howns)⟩

/-- The search marks what can be reached, if all that marked cells own is marked or about to be,
and there are enough rounds for the cells without a mark. -/
theorem spreads_reach (heap : Heap) {rounds : Nat} {marks : Array Bool} {cells : List CellId}
    (hrounds : unmarked marks ≤ rounds)
    (hopen : ∀ {cell other : CellId}, marks[cell]? = some true → other ∈ heap.owns cell →
      other < marks.size → marks[other]? = some true ∨ other ∈ cells) :
    Spreads heap marks cells (heap.reach rounds marks cells) := by
  induction rounds generalizing marks cells with
  | zero =>
      have hall {cell : CellId} (hlt : cell < marks.size) : marks[cell]? = some true := by
        have hnone : false ∉ marks.toList := List.count_eq_zero.1 (Nat.le_zero.1 hrounds)
        have hmem : marks[cell] ∈ marks.toList := Array.getElem_mem_toList hlt
        rw [Array.getElem?_eq_getElem hlt]
        cases hmark : marks[cell] with
        | true => rfl
        | false => exact absurd (hmark ▸ hmem) hnone
      exact ⟨rfl, id, fun _ => hall, fun _ _ => hall, .inl⟩
  | succ rounds ih =>
      have hmarks := marks_mark marks cells
      rw [reach]
      generalize mark marks cells = result at hmarks ⊢
      obtain ⟨marks', fresh⟩ := result
      have hnext {cell other : CellId} (hcell : marks[cell]? = some true)
          (howns : other ∈ heap.owns cell) (hlt : other < marks.size) :
          marks'[other]? = some true := by
        rcases hopen hcell howns hlt with hmarked | hgiven
        · exact hmarks.marked.2 (.inl hmarked)
        · exact hmarks.all hgiven hlt
      dsimp only
      split
      · rename_i hempty
        have hsame {cell : CellId} (hcell : marks'[cell]? = some true) :
            marks[cell]? = some true := by
          rcases hmarks.marked.1 hcell with hmarked | hfresh
          · exact hmarked
          · cases List.isEmpty_iff.1 hempty ▸ hfresh
        exact ⟨hmarks.size, fun hcell => hmarks.marked.2 (.inl hcell), hmarks.all,
          fun hcell howns hlt => hnext (hsame hcell) howns hlt, fun hcell => .inl (hsame hcell)⟩
      · rename_i hfresh
        have hsize : marks'.size = marks.size := hmarks.size
        have hpos : 0 < fresh.length := List.length_pos_iff.2 fun h => hfresh (h ▸ rfl)
        have hleft : unmarked marks' + fresh.length = unmarked marks := hmarks.left
        have hopen' {cell other : CellId} (hcell : marks'[cell]? = some true)
            (howns : other ∈ heap.owns cell) (hlt : other < marks'.size) :
            marks'[other]? = some true ∨ other ∈ fresh.flatMap heap.owns := by
          rcases hmarks.marked.1 hcell with hmarked | hnew
          · exact .inl (hnext hmarked howns (hsize ▸ hlt))
          · exact .inr (List.mem_flatMap.2 ⟨cell, hnew, howns⟩)
        have hspreads := ih (by omega) hopen'
        constructor
        case size => exact hspreads.size.trans hsize
        case kept => exact fun hcell => hspreads.kept (hmarks.marked.2 (.inl hcell))
        case all => exact fun hcell hlt => hspreads.kept (hmarks.all hcell hlt)
        case closed => exact fun hcell howns hlt => hspreads.closed hcell howns (hsize ▸ hlt)
        case only =>
            intro cell hcell
            rcases hspreads.only hcell with hmarked | hreached
            · exact (hmarks.marked.1 hmarked).imp_right fun hnew =>
                reaches_of_mem (hmarks.only hnew)
            · obtain ⟨root, hroot, hpath⟩ := hreached.of_flatMap
              exact .inr ⟨root, hmarks.only hroot, hpath⟩

/-- The cells that are marked as alive are those that can be reached. -/
theorem alive_iff {heap : Heap} {owned : List CellId} {cell : CellId} :
    (heap.alive owned)[cell]? = some true ↔
      cell < heap.slots.size ∧ heap.Reaches owned cell := by
  have hnone {cell : CellId} :
      (Array.replicate heap.slots.size false)[cell]? ≠ some true := by
    rw [Array.getElem?_replicate]
    split <;> simp
  have hsize : (Array.replicate heap.slots.size false).size = heap.slots.size :=
    Array.size_replicate
  have hspreads : Spreads heap (Array.replicate heap.slots.size false) owned (heap.alive owned) :=
    spreads_reach heap (by simp [unmarked, Array.toList_replicate]) fun h => absurd h hnone
  constructor
  · intro hcell
    obtain ⟨hlt, _⟩ := Array.getElem?_eq_some_iff.1 hcell
    rw [hspreads.size, hsize] at hlt
    exact ⟨hlt, (hspreads.only hcell).resolve_left hnone⟩
  · rintro ⟨hlt, root, hroot, hpath⟩
    induction hpath with
    | refl => exact hspreads.all hroot (hsize.symm ▸ hlt)
    | @tail owner cell _ howns ih =>
        have hslot : heap.slot owner ≠ .released := by
          obtain ⟨bounds, hslot, _⟩ := howns
          exact hslot ▸ nofun
        exact hspreads.closed (ih (lt_size_of_slot hslot)) (owns_iff.1 howns) (hsize.symm ▸ hlt)

/-- The cells that are stranded are those behind back references that cannot be reached. -/
theorem mem_stranded {heap : Heap} {owned : List CellId} {cell : CellId}
    (hbacked : ∀ cell ∈ heap.backed, heap.slot cell ≠ .released) :
    cell ∈ heap.stranded owned ↔ cell ∈ heap.backed ∧ ¬ heap.Reaches owned cell := by
  have hmark (hcell : cell ∈ heap.backed) :
      (!(heap.alive owned)[cell]?.getD false) = true ↔ ¬ heap.Reaches owned cell := by
    have hreached : (heap.alive owned)[cell]? = some true ↔ heap.Reaches owned cell := by
      rw [alive_iff]
      exact and_iff_right (lt_size_of_slot (hbacked cell hcell))
    rw [← hreached]
    cases (heap.alive owned)[cell]? with
    | none => simp
    | some marked => cases marked <;> simp
  rw [stranded]
  split
  · rename_i hempty
    rw [List.isEmpty_iff.1 hempty]
    exact ⟨nofun, nofun⟩
  · rw [List.mem_filter]
    exact and_congr_right hmark

/-! ## Reference counting -/

/-- All owning handles, outside and in stored bounds. -/
def handles (heap : Heap) (outside : List CellId) : List CellId :=
  outside ++ (List.range heap.slots.size).flatMap heap.owns

/-- There is a handle of a cell if it is held outside or owned. -/
theorem mem_handles {heap : Heap} {outside : List CellId} {cell : CellId} :
    cell ∈ heap.handles outside ↔ cell ∈ outside ∨ ∃ owner, cell ∈ heap.owns owner := by
  have howner {owner : CellId} (h : cell ∈ heap.owns owner) : owner < heap.slots.size := by
    obtain ⟨bounds, hslot, _⟩ := owns_iff.2 h
    exact lt_size_of_slot (hslot ▸ nofun)
  rw [handles, List.mem_append, List.mem_flatMap]
  refine or_congr_right ⟨fun ⟨owner, _, h⟩ => ⟨owner, h⟩, fun ⟨owner, h⟩ => ⟨owner, ?_, h⟩⟩
  exact List.mem_range.2 (howner h)

/-- A cell is released because the number of its handles is zero. -/
inductive Frees (outside : List CellId) : Heap → Heap → Prop where
  | free {heap : Heap} {cell : CellId} : heap.slot cell ≠ .released →
      (heap.handles outside).count cell = 0 → Frees outside heap (heap.release [cell])

/-- Counting has gone on until every cell that is not released has a handle. -/
def CountedDown (outside : List CellId) (heap after : Heap) : Prop :=
  Relation.ReflTransGen (Frees outside) heap after ∧ ∀ next, ¬ Frees outside after next

/-- The number of cells that are not released. -/
def living (heap : Heap) : Nat := heap.slots.toList.countP Slot.isLiving

/-- Releasing a cell that is not released leaves one cell less. -/
theorem living_release {heap : Heap} {cell : CellId} (h : heap.slot cell ≠ .released) :
    (heap.release [cell]).living < heap.living := by
  have hlt : cell < heap.slots.toList.length := lt_size_of_slot h
  have hliving : heap.slots.toList[cell].isLiving = true := by
    rw [slot, Array.getElem?_eq_getElem hlt, Option.getD_some] at h
    rw [Array.getElem_toList]
    cases hslot : heap.slots[cell] with
    | released => exact absurd hslot h
    | unbound | bound => rfl
  have hpos : 0 < heap.slots.toList.countP Slot.isLiving :=
    List.countP_pos_iff.2 ⟨_, List.getElem_mem hlt, hliving⟩
  show (heap.slots.setIfInBounds cell .released).toList.countP Slot.isLiving < _
  rw [Array.toList_setIfInBounds, List.countP_set hlt, if_pos hliving]
  show heap.slots.toList.countP Slot.isLiving - 1 + 0 < heap.slots.toList.countP Slot.isLiving
  omega

/-- Counting comes to an end. -/
theorem exists_countedDown (outside : List CellId) (heap : Heap) :
    ∃ after, CountedDown outside heap after := by
  induction hliving : heap.living using Nat.strong_induction_on generalizing heap with
  | _ living ih =>
      by_cases hmore : ∃ next, Frees outside heap next
      · obtain ⟨next, hfrees⟩ := hmore
        have hless : next.living < living := by
          obtain ⟨hslot, _⟩ := hfrees
          exact hliving ▸ living_release hslot
        obtain ⟨after, hafter, hdone⟩ := ih _ hless next rfl
        exact ⟨after, hafter.head hfrees, hdone⟩
      · exact ⟨heap, .refl, fun next hnext => hmore ⟨next, hnext⟩⟩

/-- What counting leaves: what is reached stays, and nothing changes but by being released. -/
structure Trimmed (outside : List CellId) (heap after : Heap) : Prop where
  kept : ∀ {cell}, heap.Reaches outside cell → after.slot cell = heap.slot cell
  shrunk : ∀ cell, after.slot cell = heap.slot cell ∨ after.slot cell = .released

/-- What is owned after counting was owned before. -/
theorem Trimmed.owns {outside : List CellId} {heap after : Heap} (h : Trimmed outside heap after)
    {cell other : CellId} (howns : other ∈ after.owns cell) :
    after.slot cell ≠ .released ∧ other ∈ heap.owns cell := by
  have hslot : after.slot cell ≠ .released := by
    obtain ⟨bounds, hslot, _⟩ := owns_iff.2 howns
    exact hslot ▸ nofun
  exact ⟨hslot, owns_congr ((h.shrunk cell).resolve_right hslot) ▸ howns⟩

/-- Releasing a cell without handles releases nothing that is reached. -/
theorem Trimmed.step {outside : List CellId} {heap before after : Heap}
    (h : Trimmed outside heap before) (hfrees : Frees outside before after) :
    Trimmed outside heap after := by
  cases hfrees with
  | @free freed _ hcount =>
      have hnone : freed ∉ before.handles outside := List.count_eq_zero.1 hcount
      have hunreached : ¬ heap.Reaches outside freed := by
        intro hreached
        rcases hreached.cases with hheld | ⟨owner, howner, howns⟩
        · exact hnone (mem_handles.2 (.inl hheld))
        · have hsame := owns_congr (h.kept howner)
          exact hnone (mem_handles.2 (.inr ⟨owner, hsame ▸ howns⟩))
      constructor
      · intro cell hcell
        have hkept : cell ∉ [freed] := fun hfreed =>
          hunreached (List.mem_singleton.1 hfreed ▸ hcell)
        rw [slot_release_eq, if_neg hkept]
        exact h.kept hcell
      · intro cell
        rw [slot_release_eq]
        split
        · exact .inr rfl
        · exact h.shrunk cell

/-- Counting releases nothing that is reached. -/
theorem trimmed_of_frees {outside : List CellId} {heap after : Heap}
    (h : Relation.ReflTransGen (Frees outside) heap after) : Trimmed outside heap after := by
  induction h with
  | refl => exact ⟨fun _ => rfl, fun _ => .inl rfl⟩
  | tail _ hfrees ih => exact ih.step hfrees

end Heap

namespace Holding

open Heap

variable {state : Holding}

/-- Once counting has come to an end, all that is not reached has been released. -/
theorem Sound.released (h : state.Sound) {after : Heap}
    (hcounted : CountedDown state.outside state.heap after) {cell : CellId}
    (hcell : ¬ state.heap.Reaches state.outside cell) : after.slot cell = .released := by
  classical
  obtain ⟨hfrees, hdone⟩ := hcounted
  have htrimmed := trimmed_of_frees hfrees
  obtain ⟨rank, hrank⟩ := h.ranked
  let leaked := (Finset.range state.heap.slots.size).filter fun cell =>
    ¬ state.heap.Reaches state.outside cell ∧ after.slot cell ≠ .released
  have hmem {cell : CellId} (hcell : ¬ state.heap.Reaches state.outside cell)
      (hslot : after.slot cell ≠ .released) : cell ∈ leaked := by
    refine Finset.mem_filter.2 ⟨Finset.mem_range.2 (lt_size_of_slot ?_), hcell, hslot⟩
    exact (htrimmed.shrunk cell).resolve_right hslot ▸ hslot
  by_contra hslot
  -- among the cells that leaked one has the highest rank, and yet it has an owner that leaked
  obtain ⟨highest, hhighest, hmax⟩ :=
    Finset.exists_max_image leaked rank ⟨cell, hmem hcell hslot⟩
  obtain ⟨_, hunreached, hliving⟩ := Finset.mem_filter.1 hhighest
  have hcount : (after.handles state.outside).count highest ≠ 0 := fun hcount =>
    hdone _ (.free hliving hcount)
  have hhandle := List.count_pos_iff.1 (Nat.pos_of_ne_zero hcount)
  rcases mem_handles.1 hhandle with hheld | ⟨owner, howns⟩
  · exact hunreached (reaches_of_mem hheld)
  · obtain ⟨howner, howned⟩ := htrimmed.owns howns
    have hleaked : owner ∈ leaked := hmem (fun hreached => hunreached (hreached.tail howned)) howner
    exact Nat.lt_irrefl _ (Nat.lt_of_lt_of_le (hrank howned) (hmax owner hleaked))

/-- Whatever a program does, no cell owns itself, directly or through others. Counting handles
comes to an end and then has released exactly the cells that owning handles do not reach from
outside; those of them that back references still mention are the stranded ones. -/
theorem counting_frees_unreachable (h : state.Possible) :
    (∀ cell, ¬ Relation.TransGen state.heap.Owns cell cell) ∧
      (∃ after, CountedDown state.outside state.heap after) ∧
      ∀ after, CountedDown state.outside state.heap after → ∀ cell,
        (state.heap.Reaches state.outside cell → after.slot cell = state.heap.slot cell) ∧
        (¬ state.heap.Reaches state.outside cell → after.slot cell = .released) ∧
        (cell ∈ state.heap.stranded state.outside ↔
          cell ∈ state.heap.backed ∧ after.slot cell = .released) := by
  have hsound := h.sound
  refine ⟨hsound.acyclic, exists_countedDown _ _, fun after hafter cell => ?_⟩
  have hkept (hreached : state.heap.Reaches state.outside cell) :
      after.slot cell = state.heap.slot cell := (trimmed_of_frees hafter.1).kept hreached
  refine ⟨hkept, hsound.released hafter, ?_⟩
  rw [mem_stranded hsound.backed]
  refine and_congr_right fun hbacked => ⟨hsound.released hafter, fun hslot hreached => ?_⟩
  exact hsound.backed cell hbacked ((hkept hreached).symm.trans hslot)

/-- A variable of one declaration. -/
def pairVar (name : String) (handle : Handle) : TypeVar := ⟨name, "Pair", handle⟩

/-- A list of a variable. -/
def listOf (param : TypeVar) : Ty :=
  .applied none ⟨⟨"java.util.List", .interfaceType, 1⟩, rfl⟩ [.var param]

/-- Two variables, each bound to a list of the other. -/
def pairHeap : Heap :=
  ⟨#[.bound [listOf (pairVar "U" (.back 1))], .bound [listOf (pairVar "T" (.owning 0))]], [1]⟩

/-- A program declares two variables, binds each to a list of the other and drops all it has. -/
theorem pair_possible : Possible ⟨pairHeap, [], []⟩ := by
  let first := pairVar "T" (.owning 0)
  let second := pairVar "U" (.owning 1)
  let types : List Ty := [listOf first, listOf second, .var second, .var first]
  have hdeclared : Possible ⟨⟨#[.unbound, .unbound], []⟩, [.var second, .var first], []⟩ :=
    .tail (.tail .refl (.declare "T" "Pair")) (.declare "U" "Pair")
  have hmade : Possible ⟨⟨#[.unbound, .unbound], []⟩, types, []⟩ :=
    .tail (.tail hdeclared (.make (t := listOf second) (by decide))) (.make (by decide))
  -- the second variable is unbound yet, so that the bound of the first one refers back to it
  have hfirst : Possible
      ⟨⟨#[.bound [listOf (pairVar "U" (.back 1))], .unbound], [1]⟩, types, []⟩ :=
    .tail hmade (.bind (show .var first ∈ types by simp [types])
      (show [listOf second] ⊆ types by simp [types]) rfl)
  have hsecond : Possible ⟨pairHeap, types, []⟩ :=
    .tail hfirst (.bind (show .var second ∈ types by simp [types])
      (show [listOf first] ⊆ types by simp [types]) rfl)
  exact .tail hsecond (.drop (List.nil_subset _) (List.nil_subset _))

/-- Counting releases two variables that are bounds of each other. -/
theorem pair_cells_freed : ∃ after, CountedDown [] pairHeap after ∧
    ∀ cell, after.slot cell = .released := by
  obtain ⟨_, ⟨after, hafter⟩, hexact⟩ := counting_frees_unreachable pair_possible
  refine ⟨after, hafter, fun cell => (hexact after hafter cell).2.1 ?_⟩
  rintro ⟨root, hroot, _⟩
  cases hroot

end Holding

end Nominal
