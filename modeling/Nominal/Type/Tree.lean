import Nominal.Query

/-!
# Types with their bounds

A `TypeTree` is a type in which every variable shows its bounds, except where an equal variable is
being shown around it.
-/

namespace Nominal

/-- A type with the bounds of its variables. -/
inductive TypeTree where
  | named (head : Named)
  | applied (owner : Option TypeTree) (raw : ClassName) (args : List TypeTree)
  | array (component : TypeTree)
  | wildcard (upper : TypeTree) (lower : Option TypeTree)
  /-- A variable with its bounds. -/
  | var (name declaration : String) (bounds : List TypeTree)
  /-- A variable inside its own bounds. -/
  | again (name declaration : String)

namespace TypeTree

/-- The tree of a type inside the bounds of the given variables. -/
def unfold (heap : Heap) : Nat → List TypeVar → Ty → Query TypeTree
  | 0, _, _ => .exhausted
  | fuel + 1, around, t =>
      match t with
      | .named head => return .named head
      | .applied owner raw args => do
          let owner ← owner.mapM (unfold heap fuel around)
          return .applied owner raw (← args.mapM (unfold heap fuel around))
      | .array component => return .array (← unfold heap fuel around component)
      | .wildcard upper lower => do
          let upper ← unfold heap fuel around upper
          return .wildcard upper (← lower.mapM (unfold heap fuel around))
      | .var param =>
          if around.contains param then return .again param.name param.declaration
          else do
            let bounds ← Query.bounds heap param
            return .var param.name param.declaration
              (← bounds.mapM (unfold heap fuel (param :: around)))

/-- The tree of a type. -/
def of (heap : Heap) (fuel : Nat) (t : Ty) : Query TypeTree := unfold heap fuel [] t

end TypeTree

end Nominal
