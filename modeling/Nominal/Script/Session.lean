import Nominal.Logging.Journal
import Nominal.Script.Requests

/-!
# Sessions

`Session.run` runs a whole script from a library and returns the answers with the events that were
reported outside traced series.
-/

namespace Nominal.Script

open Run

/-- A script that is running. -/
structure Session where
  world : World
  /-- The events, newest first. -/
  events : List Event

namespace Session

/-- The session before the first step. -/
def start (library : Library) : Session := ⟨.start library, []⟩

/-- The frame that declarations and expressions of the session itself see. -/
def frame (session : Session) (fuel : Nat) : Frame := .ofTable session.world.table fuel

/-- The state before a step. -/
def progress (session : Session) : Progress := ⟨session.world, .empty, session.events⟩

/-- Run a computation as a step. What it leaves behind, its memo included, is released. -/
def perform (session : Session) (fuel : Nat) (run : Run Answer) : Option (Answer × Session) := do
  let (answer, progress) ← answer run session.progress
  let progress := { progress with memo := .empty }.release (session.frame fuel) []
  return (answer, ⟨progress.world, progress.events⟩)

end Session

/-- Change the table of the world. -/
def changeTable {α : Type} (change : Table → Except Refusal (α × Table)) : Run α := do
  let (value, table) ← onHeap (Eval.ofExcept (change (← get).world.table))
  modify fun progress => { progress with world := { progress.world with table } }
  return value

/-- Register a declaration and show its name. -/
def register (frame : Frame) (full : Bool) (expr : DeclarationExpr)
    (change : Table → Declaration → Except Refusal Table) : Run Answer := do
  let declaration ← declaration frame [] expr
  changeTable fun table => return ((), ← change table declaration)
  return .type (← render frame full (.named declaration.head))

/-- Evaluate declarations that come before those of the table. Later ones replace earlier ones,
which are released at once. -/
def declarations (frame : Frame) : List (String × Declaration) → List (String × DeclarationExpr) →
    Run (List (String × Declaration))
  | known, [] => return known
  | known, (name, expr) :: rest => do
      let found ← declaration frame (known.flatMap (fun entry => entry.2.types)) expr
      let known := (name, found) :: known.filter (fun entry => entry.1 != name)
      modify (fun progress => progress.release frame (known.flatMap (fun entry => entry.2.types)))
      declarations frame known rest

/-- The environment that an expression describes, and the types of its declarations. -/
def environment (frame : Frame) (expr : EnvExpr) : Run (Env × List Ty) := do
  let known ← declarations frame [] expr.declarations
  let cloneable ← expr.cloneable.mapM (evalNamed frame)
  let serializable ← expr.serializable.mapM (evalNamed frame)
  let find? := fun name => (known.lookup name).or (frame.env.find? name)
  return (⟨find?, cloneable.getD .cloneable, serializable.getD .serializable⟩,
    known.flatMap (fun entry => entry.2.types))

/-- Settings from text. -/
def loadSettings (text : String) : Run Settings :=
  match Settings.read Toml.standard text with
  | .ok settings => return settings
  | .error error => throw (.settings error)

/-- The frame of a series of requests. -/
def seriesFrame (frame : Frame) (setup : Setup) : Run Frame := do
  let settings ← setup.settings.mapM loadSettings
  let (env, held) ← match setup.env with
    | some expr => environment frame expr
    | none => pure (frame.env, [])
  match settings with
  | some settings =>
      return { frame with
        env, held, memoize := settings.memoize, options := settings.assignability }
  | none => return { frame with env, held, memoize := setup.memoize.getD frame.memoize }

/-- Run a series of requests, and return the events that they report, newest first. -/
def runSeries (frame : Frame) (setup : Setup) (requests : List Request) :
    Run (List Answer × List Event) := do
  let inner ← seriesFrame frame setup
  let before := (← get).events
  modify fun progress => { progress with memo := .empty, events := [] }
  let answers ← ExceptT.mk fun progress => do
    let (answers, progress) ← runAll inner requests progress
    return (.ok answers, progress)
  let events := (← get).events
  modify fun progress => { progress with memo := .empty, events := before }
  return (answers, events)

/-- Answer a step. -/
def Step.run (frame : Frame) : Step → Run Answer
  | .request inner => inner.ask.run frame inner.full
  | .add expr full => Script.register frame full expr Table.add
  | .upsert expr full => Script.register frame full expr Table.upsert
  | .remove name full => do
      let removed ← changeTable (fun table => table.remove name)
      return .description (some (← describe frame full removed))
  | .table => return .table (← get).world.table.names
  | .lookup name full => do
      let found := (← get).world.table.find? name
      return .lookup (← renderOption frame full (found.map fun entry => .named entry.head))
  | .boxing base entries => do
      let boxing ← entries.foldlM (fun boxing (name, expr) =>
        return Boxing.insert boxing name (← evalNamed frame expr)) base
      modify fun progress => { progress with world := { progress.world with boxing } }
      return .done
  | .series setup requests => do
      let (answers, events) ← runSeries frame setup requests
      modify fun progress => { progress with events := events ++ progress.events }
      return .series answers
  | .traced setup requests => do
      let (answers, events) ← runSeries frame setup requests
      return .traced answers events.reverse

namespace Session

/-- Run steps one after another. -/
def runFrom (fuel : Nat) : Session → List Step → Option (List Answer × Session)
  | session, [] => some ([], session)
  | session, step :: rest => do
      let (answer, session) ← session.perform fuel (step.run (session.frame fuel))
      let (answers, session) ← runFrom fuel session rest
      return (answer :: answers, session)

/-- The answers of a script and the events that it reports outside traced series. -/
def run (fuel : Nat) (library : Library) (steps : List Step) :
    Option (List Answer × List Event) := do
  let (answers, session) ← runFrom fuel (start library) steps
  return (answers, session.events.reverse)

end Session

end Nominal.Script
