import Nominal.Bounds.Heap

/-!
# Lifetime of bounds cells

A cell lives as long as an owning handle of it can be reached from the types that a program still
holds, through the bounds of living cells. `Heap.stranded` lists the cells that are not alive but
may still be met through back references, and `Heap.release` gives them up.
-/

namespace Nominal

namespace Heap

/-- The cells that the bounds in a cell own. -/
def owns (heap : Heap) (cell : CellId) : List CellId :=
  match heap.slot cell with
  | .bound bounds => Ty.ownedList bounds
  | _ => []

/-- Mark cells, and list those that had no mark before. -/
def mark (marks : Array Bool) : List CellId → Array Bool × List CellId
  | [] => (marks, [])
  | cell :: rest =>
      if marks[cell]?.getD true then mark marks rest
      else
        let (marks, fresh) := mark (marks.setIfInBounds cell true) rest
        (marks, cell :: fresh)

/-- Mark cells and all that can be reached from those that had no mark, in the given number of
rounds. Each round but the last marks a cell. -/
def reach (heap : Heap) : Nat → Array Bool → List CellId → Array Bool
  | 0, marks, _ => marks
  | rounds + 1, marks, cells =>
      let (marks, fresh) := mark marks cells
      if fresh.isEmpty then marks else reach heap rounds marks (fresh.flatMap heap.owns)

/-- Marks for the cells that can be reached from the given ones. -/
def alive (heap : Heap) (owned : List CellId) : Array Bool :=
  heap.reach heap.slots.size (Array.replicate heap.slots.size false) owned

/-- The cells behind back references that cannot be reached from the given cells. -/
def stranded (heap : Heap) (owned : List CellId) : List CellId :=
  if heap.backed.isEmpty then []
  else
    let marks := heap.alive owned
    heap.backed.filter (fun cell => !marks[cell]?.getD false)

/-- Release cells. -/
def release (heap : Heap) (cells : List CellId) : Heap where
  slots := cells.foldl (fun slots cell => slots.setIfInBounds cell .released) heap.slots
  backed := heap.backed.filter (fun cell => !cells.contains cell)

end Heap

end Nominal
