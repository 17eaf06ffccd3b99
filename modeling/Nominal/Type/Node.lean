import Nominal.Type.Digest

/-!
# Digests that are kept

The digest of an applied type is computed once. Every applied type has a cell, shared by all that
refer to the type, which is empty until the digest is first asked for. A `Node` is a type that shows
these cells.
-/

namespace Nominal

/-- What the cells hold that have been filled. -/
abbrev Kept (δ : Type) := Nat → Option δ

namespace Kept

variable {δ : Type}

/-- All cells are empty. -/
def nothing : Kept δ := fun _ => none

/-- Fill a cell. -/
def fill (kept : Kept δ) (cell : Nat) (value : δ) : Kept δ :=
  fun other => if other = cell then some value else kept other

/-- What a cell holds. An empty cell is first filled with what the computation returns. -/
def once (cell : Nat) (computation : StateM (Kept δ) δ) : StateM (Kept δ) δ := do
  match (← get) cell with
  | some value => return value
  | none =>
      let value ← computation
      modify (·.fill cell value)
      return value

end Kept

/-- A type that shows the cells of its applied types. -/
inductive Node where
  | named (head : Named)
  | applied (cell : Nat) (owner : Option Node) (raw : ClassName) (args : List Node)
  | array (component : Node)
  | var (param : TypeVar)
  | wildcard (upper : Node) (lower : Option Node)

namespace Node

mutual
/-- The type without its cells. -/
def type : Node → Ty
  | .named head => .named head
  | .applied _ owner raw args => .applied (typeOption owner) raw (types args)
  | .array component => .array component.type
  | .var param => .var param
  | .wildcard upper lower => .wildcard upper.type (typeOption lower)

/-- An optional type without its cells. -/
def typeOption : Option Node → Option Ty
  | none => none
  | some node => some node.type

/-- Several types without their cells. -/
def types : List Node → List Ty
  | [] => []
  | first :: rest => first.type :: types rest
end

/-- The cell for the digest. -/
def cell? : Node → Option Nat
  | .applied cell _ _ _ => some cell
  | _ => none

/-- The nodes that a node refers to. -/
def parts : Node → List Node
  | .named _ => []
  | .applied _ owner _ args => owner.toList ++ args
  | .array component => [component]
  | .var _ => []
  | .wildcard upper lower => upper :: lower.toList

mutual
/-- The digest of a type, that of each applied type in it computed once. -/
def digest {δ : Type} (hashOf : List (Chunk δ) → δ) : Node → StateM (Kept δ) δ
  | .named head => return hashOf [.tag 0, .text head.name]
  | .applied cell owner raw args => Kept.once cell do
      let outer ← digestOption hashOf owner
      let inner ← digests hashOf args
      return hashOf ([.tag 1, outer, .text raw.name] ++ inner)
  | .array component => return hashOf [.tag 2, .digest (← digest hashOf component)]
  | .var param => return hashOf [.tag 3, .text param.name, .text param.declaration]
  | .wildcard upper lower => do
      let first ← digest hashOf upper
      return hashOf [.tag 4, .digest first, ← digestOption hashOf lower]

/-- What an optional part feeds. -/
def digestOption {δ : Type} (hashOf : List (Chunk δ) → δ) : Option Node → StateM (Kept δ) (Chunk δ)
  | none => return .absent
  | some node => return .present (← digest hashOf node)

/-- What several parts feed. -/
def digests {δ : Type} (hashOf : List (Chunk δ) → δ) :
    List Node → StateM (Kept δ) (List (Chunk δ))
  | [] => return []
  | first :: rest => do
      let value ← digest hashOf first
      return .digest value :: (← digests hashOf rest)
end

end Node

end Nominal
