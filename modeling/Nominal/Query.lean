import Nominal.Bounds.Heap
import Nominal.Event
import Nominal.Hierarchy.Declaration
import Nominal.Type.Map

/-!
# Queries

Questions about types are asked against an environment and a heap that stay fixed while the
question is answered. Besides its answer a query leaves a trail: closures that it memoized, cells
that it read and events. The cells that were read are settled when the question is over; since
reading an unbound cell sees what settling would write, no answer depends on the order of the two.
Some questions have no answer, because the hierarchy is infinite or bounds run in circles, so each
takes a number of steps that it may use up and then gives nothing.
-/

namespace Nominal

/-- Closures found so far, by the type they belong to. -/
abbrev Memo := TypeMap (List Ty)

/-- What queries leave behind. -/
structure Trail where
  memo : Memo
  reads : List CellId
  /-- The events, newest first. -/
  events : List Event

/-- The trail before any query. -/
def Trail.empty : Trail := ⟨.empty, [], []⟩

/-- What a query is asked against. -/
structure Context where
  env : Env
  heap : Heap
  memoize : Bool

/-- A computation that extends a trail and may run out of steps. -/
abbrev Query (α : Type) := StateT Trail Option α

namespace Query

/-- The query has used up its steps. -/
def exhausted {α : Type} : Query α := fun _ => none

/-- Report an event. -/
def report (event : Event) : Query Unit :=
  modify fun trail => { trail with events := event :: trail.events }

/-- Read the bounds of a variable. -/
def bounds (heap : Heap) (param : TypeVar) : Query (List Ty) := do
  modify fun trail => { trail with reads := param.cell :: trail.reads }
  return heap.bounds param

/-- The closure memoized for a type. -/
def memoized? (t : Ty) : Query (Option (List Ty)) := do return (← get).memo.get? t

/-- Memoize the closure of a type. -/
def remember (t : Ty) (members : List Ty) : Query Unit :=
  modify fun trail => { trail with memo := trail.memo.insertNew t members }

end Query

end Nominal
