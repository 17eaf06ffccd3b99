import Nominal.Bounds.Gather
import Nominal.Bounds.Release
import Nominal.Hierarchy.Standard
import Nominal.Script.Evaluation
import Nominal.Specialization

/-!
# The state of a script

A script owns a heap, a class table, a boxing table and registers. A series of requests also has a
memo. Whatever these hold stays alive. Bounds cells that nothing holds but back references still
mention are released after each step, and before a variable is bound.
-/

namespace Nominal.Script

/-- What a script has built. -/
structure World where
  heap : Heap
  table : Table
  boxing : Boxing
  registers : List (String × Ty)

/-- The world before the first step. -/
def World.start (library : Library) : World :=
  ⟨library.heap, library.table, .standard, []⟩

/-- What the requests of a series share: declarations, options, and the number of steps that each
query may take. -/
structure Frame where
  env : Env
  /-- The types of declarations that are not in the table. -/
  held : List Ty
  memoize : Bool
  options : AssignOptions
  fuel : Nat

/-- The frame of a table. -/
def Frame.ofTable (table : Table) (fuel : Nat) : Frame := ⟨table.env, [], true, .standard, fuel⟩

/-- The world together with what queries have left behind. -/
structure Progress where
  world : World
  memo : Memo
  /-- The events, newest first. -/
  events : List Event

namespace Progress

/-- The cells that registers and declarations own. -/
def owned (progress : Progress) (frame : Frame) : List CellId :=
  Ty.ownedList (progress.world.registers.map Prod.snd) ++
    Ty.ownedList progress.world.table.types ++ Ty.ownedList frame.held

/-- The cells that the memo owns. -/
def remembered (progress : Progress) : List CellId :=
  Ty.gathered (progress.memo.toList.flatMap fun entry => entry.1 :: entry.2)

/-- Release the cells behind back references that neither the state nor the given types reach. The
memo is looked into only where the rest does not decide. -/
def release (progress : Progress) (frame : Frame) (held : List Ty) : Progress :=
  let heap := progress.world.heap
  let owned := Ty.ownedList held ++ progress.owned frame
  if (heap.stranded owned).isEmpty then progress
  else
    let lost := heap.stranded (progress.remembered ++ owned)
    { progress with world := { progress.world with heap := heap.release lost } }

end Progress

/-- A computation on a script's state that may fail or run out of steps. What it did stays. -/
abbrev Run (α : Type) := ExceptT Failure (StateT Progress Option) α

namespace Run

/-- Ask a query, and settle the cells that it read. -/
def query {α : Type} (frame : Frame) (question : Context → Query α) : Run α :=
  ExceptT.mk fun progress => do
    let context := ⟨frame.env, progress.world.heap, frame.memoize⟩
    let (answer, trail) ← question context ⟨progress.memo, [], progress.events⟩
    let heap := progress.world.heap.settleAll trail.reads
    return (.ok answer, ⟨{ progress.world with heap }, trail.memo, trail.events⟩)

/-- Evaluate on the heap of the world. -/
def onHeap {α : Type} (evaluation : Eval α) : Run α :=
  ExceptT.mk fun progress =>
    let (result, heap) := evaluation.run.run progress.world.heap
    some (result, { progress with world := { progress.world with heap } })

/-- What expressions may mention in a frame. -/
def scope (frame : Frame) (own : List TypeVar) : Run Scope :=
  return ⟨frame.env.find?, (← get).world.registers, own⟩

/-- The type of an expression. -/
def eval (frame : Frame) (expr : Expr) : Run Ty := do
  onHeap (expr.eval (← scope frame []))

/-- The types of several expressions. -/
def evalList (frame : Frame) (exprs : List Expr) : Run (List Ty) := do
  onHeap (Expr.evalList (← scope frame []) exprs)

/-- The type of an optional expression. -/
def evalOption (frame : Frame) (expr : Option Expr) : Run (Option Ty) := do
  onHeap (Expr.evalOption (← scope frame []) expr)

/-- The name that an expression must give. -/
def evalNamed (frame : Frame) (expr : Expr) : Run Named := do
  onHeap (Eval.named (← eval frame expr))

/-- Bind a variable, while the given types are held as well. -/
def bind (frame : Frame) (held : List Ty) (param : TypeVar) (bounds : List Ty) : Run Unit := do
  modify (fun progress => progress.release frame (held ++ .var param :: bounds))
  onHeap (Eval.bind param bounds)

/-- The parameters of a declaration. -/
def params (frame : Frame) (declaration : String) : Params → Run (List TypeVar)
  | .names names => onHeap (names.mapM (fun name => Eval.declare name declaration))
  | .given exprs => exprs.mapM fun expr => do onHeap (Eval.typeVar (← eval frame expr))

/-- Evaluate a declaration while the given types are held: parameters, their bounds, and then the
supertypes. -/
def declaration (frame : Frame) (held : List Ty) (expr : DeclarationExpr) : Run Declaration := do
  let params ← params frame expr.head.name expr.params
  let scope ← scope frame params
  let held := held ++ params.map Ty.var
  (params.zip expr.bounds).forM fun (param, bounds) => do
    match bounds with
    | some bounds => bind frame held param (← onHeap (Expr.evalList scope bounds))
    | none => return ()
  let superclass ← onHeap (Expr.evalOption scope expr.superclass)
  let interfaces ← onHeap (Expr.evalList scope expr.interfaces)
  return ⟨expr.head, params, superclass, interfaces⟩

/-- A type as it is shown. -/
def render (frame : Frame) (full : Bool) (t : Ty) : Run TypeView :=
  if full then
    return .tree (← query frame fun context => TypeTree.of context.heap frame.fuel t)
  else return .text t.display

/-- Several types as they are shown. -/
def renderAll (frame : Frame) (full : Bool) (types : List Ty) : Run (List TypeView) :=
  types.mapM (render frame full)

/-- An optional type as it is shown. -/
def renderOption (frame : Frame) (full : Bool) (t : Option Ty) : Run (Option TypeView) :=
  t.mapM (render frame full)

/-- A declaration as it is shown. -/
def describe (frame : Frame) (full : Bool) (declaration : Declaration) : Run Description := do
  let params ← renderAll frame full (declaration.params.map Ty.var)
  let superclass ← renderOption frame full declaration.superclass
  let interfaces ← renderAll frame full declaration.interfaces
  let declared ← renderAll frame full declaration.supertypes
  return ⟨declaration.head, params, superclass, interfaces, declared⟩

/-- The form of a type. -/
def form : Ty → Form
  | .named head => .named head
  | .applied owner raw args => .applied (owner.map Ty.display) raw.name (args.map Ty.display)
  | .array component => .array component.display
  | .var param => .var param.name param.declaration
  | .wildcard upper lower =>
      .wildcard [upper.display] (lower.toList.map Ty.display) (lower.isNone && upper.isTop)

/-- What there is to know about a type. -/
def profile (frame : Frame) (t : Ty) : Run Profile := do
  let erasure ← query frame fun context => erase context.heap frame.fuel t
  return {
    display := t.display
    inspect := t.inspect
    top := t.isTop
    primitive := t.isPrimitive
    asNamed := t.asNamed?.map Named.name
    asApplied := if t.isApplied then some t.display else none
    interfaceLike := erasure.asNamed?.any Named.isInterface
    erasure := erasure.display
    erasedNamed := erasure.asNamed?.map Named.name
    form := form t }

/-- The options of a comparison. -/
def options (frame : Frame) (overrides : Overrides) : AssignOptions :=
  let base : AssignOptions := match overrides.variance with
    | some variance => ⟨variance, true⟩
    | none => frame.options
  { base with boxing := overrides.boxing.getD base.boxing }

/-- Whether a member of a closure passes a test. -/
def passes (frame : Frame) (test : Test) (context : Context) (call : Nat) (t : Ty) : Query Bool :=
  match test with
  | .interfaceLike => isInterfaceLike context.heap frame.fuel t
  | .classLike => return !(← isInterfaceLike context.heap frame.fuel t)
  | .notTop => return !t.isTop
  | .applied => return t.isApplied
  | .raw => return frame.env.isRaw t
  | .odd => return call % 2 == 1
  | .never => return false

/-- The text that shows how closures are kept. -/
def inspectResolver (memoize : Bool) (cached : Nat) : String :=
  let flag := if memoize then "true" else "false"
  Ty.inspectRecord "SupertypeResolver"
    ["options: " ++ Ty.inspectRecord "ResolverOptions" ["cache_closures: " ++ flag],
      s!"cached_closures: {cached}", ".."]

end Run

end Nominal.Script
