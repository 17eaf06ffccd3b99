import Nominal.Script.World
import Nominal.Type.Digest

/-!
# Requests

`Ask.run` answers a single request, and `runAll` a series of them on one memo.
-/

namespace Nominal.Script

open Run

/-- Set a register. -/
def setRegister (name : String) (t : Ty) (registers : List (String × Ty)) : List (String × Ty) :=
  (name, t) :: registers.filter (fun entry => entry.1 != name)

/-- One row of a matrix: for each payload, a digit that tells whether the receiver accepts it. -/
def matrixRow (frame : Frame) (boxing : Boxing) (options : AssignOptions) (payloads : List Ty)
    (receiver : Ty) : Run String := do
  let digits ← payloads.mapM fun payload => do
    let accepted ← query frame fun context =>
      context.isAssignable frame.fuel boxing options receiver payload
    return if accepted then '1' else '0'
  return String.ofList digits

/-- Answer a request. -/
def Ask.run (frame : Frame) (full : Bool) : Ask → Run Answer
  | .store register expr => do
      let t ← eval frame expr
      let answer ← render frame full t
      modify fun progress => { progress with
        world := { progress.world with
          registers := setRegister register t progress.world.registers } }
      return .type answer
  | .drop register => do
      let registers := (← get).world.registers
      modify fun progress => { progress with
        world := { progress.world with
          registers := registers.filter (fun entry => entry.1 != register) } }
      return .flag (registers.lookup register).isSome
  | .bind expr exprs => do
      let param ← onHeap (Eval.typeVar (← eval frame expr))
      let bounds ← evalList frame exprs
      Run.bind frame [] param bounds
      return .done
  | .bounds expr exprs => do
      let param ← onHeap (Eval.typeVar (← eval frame expr))
      let expected ← evalList frame exprs
      let bounds ← onHeap (Eval.readBounds param)
      let inspect := "[" ++ commaSeparated (Ty.inspectAll bounds) ++ "]"
      return .bounds (← renderAll frame full bounds) inspect (bounds == expected)
  | .view expr => return .type (← render frame full (← eval frame expr))
  | .profile expr => return .profile (← Run.profile frame (← eval frame expr))
  | .equal first second => do
      let first ← eval frame first
      let second ← eval frame second
      return .equality (first == second) (hash first == hash second)
  | .distinct exprs => do
      return .types (← renderAll frame full (Ty.distinct (← evalList frame exprs)))
  | .substitute entries expr => do
      let pairs ← entries.mapM fun (key, value) => do
        let param ← onHeap (Eval.typeVar (← eval frame key))
        return (param, ← eval frame value)
      let t ← eval frame expr
      return .type (← render frame full (t.substitute (Substitution.ofPairs pairs)))
  | .substitutionFor name exprs expr => do
      let declaration ← onHeap (Eval.require "no such declaration" (frame.env.find? name))
      let args ← evalList frame exprs
      let t ← evalOption frame expr
      let map := Substitution.ofArgs declaration args
      let sorted := map.mergeSort (fun first second => first.1.display ≤ second.1.display)
      let shown ← sorted.mapM fun (key, value) => do
        return (← render frame full (.var key), ← render frame full value)
      return .substitution shown (← renderOption frame full (t.map (·.substitute map)))
  | .erasure expr => do
      let t ← eval frame expr
      let erasure ← query frame fun context => erase context.heap frame.fuel t
      return .type (← render frame full erasure)
  | .canonical expr => do
      let t ← eval frame expr
      return .canonical (← render frame full (frame.env.canonical t)) (frame.env.isRaw t)
  | .box expr => do
      let t ← eval frame expr
      return .type (← render frame full ((← get).world.boxing.box t))
  | .boxed expr => do
      let named ← evalNamed frame expr
      let boxed := (← get).world.boxing.boxed? named
      return .maybeType (← renderOption frame full (boxed.map Ty.named))
  | .declaration name => do
      return .description (← (frame.env.find? name).mapM (describe frame full))
  | .declarationOf expr => do
      let named ← evalNamed frame expr
      return .description (← (frame.env.find? named.name).mapM (describe frame full))
  | .direct expr => do
      let t ← eval frame expr
      let types ← query frame fun context => context.directSupertypes frame.fuel t
      return .types (← renderAll frame full types)
  | .supertypes expr => do
      let t ← eval frame expr
      let types ← query frame fun context => context.supertypes frame.fuel t
      return .types (← renderAll frame full types)
  | .isSupertype above below => do
      let above ← eval frame above
      let below ← eval frame below
      return .flag (← query frame fun context => context.isSupertype frame.fuel above below)
  | .assignable receiver payload overrides => do
      let receiver ← eval frame receiver
      let payload ← eval frame payload
      let boxing := (← get).world.boxing
      return .flag (← query frame fun context =>
        context.isAssignable frame.fuel boxing (options frame overrides) receiver payload)
  | .matrix exprs overrides => do
      let types ← evalList frame exprs
      let boxing := (← get).world.boxing
      return .rows (← types.mapM (matrixRow frame boxing (options frame overrides) types))
  | .mostSpecialized exprs interfaces => do
      let types ← evalList frame exprs
      let best ← query frame fun context => context.mostSpecialized frame.fuel types interfaces
      return .maybeType (← renderOption frame full best)
  | .closureWhere expr test => do
      let t ← eval frame expr
      let (kept, calls) ← query frame fun context =>
        context.closureWhere frame.fuel t (passes frame test context)
      return .kept (← renderAll frame full kept) calls
  | .resolver => do
      let cached := (← get).memo.size
      return .resolver frame.memoize cached (inspectResolver frame.memoize cached)
  | .clear => do
      modify fun progress => { progress with memo := .empty }
      return .count 0

/-- Run a computation for its answer. -/
def answer (run : Run Answer) (progress : Progress) : Option (Answer × Progress) := do
  let (result, progress) ← run progress
  match result with
  | .ok answer => return (answer, progress)
  | .error failure => return (.failed failure, progress)

/-- Answer requests one after another on the same memo. What a request leaves behind is released. -/
def runAll (frame : Frame) : List Request → Progress → Option (List Answer × Progress)
  | [], progress => some ([], progress)
  | request :: rest, progress => do
      let (answer, progress) ← answer (request.ask.run frame request.full) progress
      let (answers, progress) ← runAll frame rest (progress.release frame [])
      return (answer :: answers, progress)

end Nominal.Script
