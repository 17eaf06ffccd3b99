import Nominal.Event
import Nominal.Logging.Filter
import Nominal.Settings.Load
import Nominal.Toml.DistinctKeys

/-!
# The journal

The first settings that start the journal decide what it writes and in which form; later ones have
no effect, and neither have settings that cannot be loaded. Starting reports an event of its own.
An event is written when the filter allows its target at the level `debug`; as text it takes a new
line at each line break in its fields.
-/

namespace Nominal

/-- A line of the journal. -/
inductive LogLine where
  | text (line : String)
  | record (event : Event)

/-- The text of an event. -/
def Event.text (event : Event) : String :=
  let fields := event.fields.map fun field => " " ++ field.1 ++ "=" ++ field.2.display
  "DEBUG " ++ event.target ++ ": " ++ event.message ++ String.join fields

/-- What a started journal writes, and how. -/
structure Journal where
  filter : Filter
  settings : LogSettings

namespace Journal

/-- The journal that the first of several settings starts, under the directives of the
environment. -/
def start? (environment : Option String) (attempts : List LogSettings) : Option Journal :=
  attempts.head?.map fun settings =>
    ⟨Dialect.targets.effective settings.level environment, settings⟩

/-- The journal that the first of several texts starts whose settings can be loaded. -/
def ofTexts? (environment : Option String) (texts : List String) : Option Journal :=
  start? environment (texts.filterMap fun text =>
    (Settings.read Toml.standard text).toOption.map fun settings => settings.logging)

/-- The lines of events. -/
def lines (journal : Journal) (events : List Event) : List LogLine :=
  if journal.settings.stderr then
    (events.filter (fun event => journal.filter.allows event.target .debug)).flatMap fun event =>
      if journal.settings.json then [.record event] else (Text.lines event.text).map .text
  else []

/-- All lines of a journal: its own start, then the given events. -/
def write (journal : Journal) (events : List Event) : List LogLine :=
  journal.lines (.started journal.settings.level journal.settings.json :: events)

end Journal

end Nominal
