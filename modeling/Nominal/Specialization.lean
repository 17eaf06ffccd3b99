import Nominal.Supertypes

/-!
# Specialization

`mostSpecialized` looks for a lowest member among the members of a list that are, or are not,
interfaces. `closureWhere` keeps the supertypes that a test accepts.
-/

namespace Nominal

namespace Context

/-- Take a candidate for the most specialized member if there is none so far or if it lies below
the present one. -/
def promote (context : Context) (fuel : Nat) (best : Option Ty) (candidate : Ty) :
    Query (Option Ty) := do
  match best with
  | none => return some candidate
  | some current =>
      if current == candidate then return best
      else if ← context.isSupertype fuel current candidate then return some candidate
      else return best

/-- The most specialized of the members that erase to an interface, or of those that do not.
Members are visited in order, and from each one its qualifying supertypes. -/
def mostSpecialized (context : Context) (fuel : Nat) (types : List Ty) (interfaces : Bool) :
    Query (Option Ty) := do
  let qualifying := Ty.distinct (← types.filterM fun t =>
    return (← isInterfaceLike context.heap fuel t) == interfaces)
  qualifying.foldlM (fun best member => do
    let above := (← context.supertypes fuel member).filter (fun t => qualifying.contains t)
    above.foldlM (context.promote fuel) best) none

/-- The supertypes of a type that a test accepts. The test gets the number of the call, counted
from one, and is asked once for each member of the closure in order. -/
def closureWhere (context : Context) (fuel : Nat) (t : Ty) (legal : Nat → Ty → Query Bool) :
    Query (List Ty × Nat) := do
  let members ← context.supertypes fuel t
  let kept ← members.zipIdx.filterM fun member => legal (member.2 + 1) member.1
  return (kept.map Prod.fst, members.length)

end Context

end Nominal
