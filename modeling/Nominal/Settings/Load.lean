import Nominal.Decimal.Shortest
import Nominal.Settings.Basic
import Nominal.Text.Quoted

/-!
# Loading settings

Settings are read from a document with the tables `assignability`, `supertypes` and `logging`; how a
text is read as a document, and how its log directives are, is up to whoever loads it. A missing key
keeps its default. Keys that are not known are ignored; whoever reads the document
says what is noted of their paths, `read` nothing and `load` the sorted list of them. A table may
also be given as an array of its values in order. The first value, in the order of the document,
that has the wrong form is the error.
-/

namespace Nominal

namespace Settings

/-- The keys of a table with their values, in order. -/
abbrev Entries := List (String × Toml.Value)

/-- Why a file cannot be read. -/
inductive FileFault where
  | missing
  | notText
  deriving DecidableEq

/-- The reason in the words of the operating system. -/
def FileFault.message : FileFault → String
  | .missing => "No such file or directory (os error 2)"
  | .notText => "stream did not contain valid UTF-8"

/-- Why settings cannot be loaded. -/
inductive Error where
  /-- The text is not a document. -/
  | malformed
  /-- A value has the wrong type. -/
  | wrongType (found expected : String)
  /-- The rules of comparison have an unknown name. -/
  | unknownVariant (name : String)
  /-- The rules of comparison are given by something that cannot be a name. -/
  | notVariant
  /-- The file cannot be read. -/
  | unreadable (path : String) (fault : FileFault)

/-- What is wrong with a document that has the form of one. -/
def Error.detail? : Error → Option String
  | .wrongType found expected => some s!"invalid type: {found}, expected {expected}"
  | .unknownVariant name =>
      some s!"unknown variant `{name}`, expected `invariant` or `covariant`"
  | _ => none

/-- The text of an error. Where the document is not one, or the detail takes several lines, there is
none. -/
def Error.message? (error : Error) : Option String :=
  match error with
  | .unreadable _ fault => some fault.message
  | _ =>
      (error.detail?.filter (fun detail => !detail.contains '\n')).map
        ("failed to parse toml config: " ++ ·)

/-- What a value is called in an error. Dates and times count as maps. -/
def found : Toml.Value → String
  | .string value => "string " ++ Text.quote value
  | .integer value => s!"integer `{value}`"
  | .float value => "floating point `" ++ Decimal.ofFloat value ++ "`"
  | .boolean value => if value then "boolean `true`" else "boolean `false`"
  | .array _ => "sequence"
  | .moment _ => "map"
  | .table _ => "map"

/-- A truth value. -/
def readFlag : Toml.Value → Except Error Bool
  | .boolean value => .ok value
  | value => .error (.wrongType (found value) "a boolean")

/-- A text. -/
def readText : Toml.Value → Except Error String
  | .string value => .ok value
  | value => .error (.wrongType (found value) "a string")

/-- The rules of comparison by name. -/
def variantNamed (name : String) : Except Error Variance :=
  if name == "invariant" then .ok .invariant
  else if name == "covariant" then .ok .covariant
  else .error (.unknownVariant name)

/-- Whether a value is a table or an array that holds nothing. -/
def isVoid : Toml.Value → Bool
  | .table entries => entries.isEmpty
  | .array items => items.isEmpty
  | _ => false

/-- The rules of comparison: their name, or a table with that key alone and nothing in it. -/
def readVariance : Toml.Value → Except Error Variance
  | .string name => variantNamed name
  | .table [(name, content)] => do
      let variance ← variantNamed name
      if isVoid content then return variance else throw .notVariant
  | _ => .error .notVariant

/-- A key of a table with the way to read its value. -/
structure Field (σ : Type) where
  name : String
  read : Toml.Value → σ → Except Error σ

/-- The entries of a value that can stand for a table. A date or time has the one entry that holds
its spelling. -/
def entries? : Toml.Value → Option (Entries)
  | .table entries => some entries
  | .moment spelling => some [("$__toml_private_datetime", .string spelling)]
  | _ => none

/-- Read the entries of a table in order, and note the keys that are not known. -/
def readEntries {σ ω : Type} (note : ω → String → ω) (fields : List (Field σ))
    (entries : Entries) (start : σ × ω) : Except Error (σ × ω) :=
  entries.foldlM (fun state entry =>
    match fields.find? (fun field => field.name == entry.1) with
    | some field => return (← field.read entry.2 state.1, state.2)
    | none => return (state.1, note state.2 entry.1)) start

/-- Read the values of a table in the order of its fields. -/
def readItems {σ : Type} (fields : List (Field σ)) (initial : σ) (items : List Toml.Value) :
    Except Error σ :=
  (fields.zip items).foldlM (fun state pair => pair.1.read pair.2 state) initial

/-- Read a table, given as such or as an array. -/
def readTable {σ ω : Type} (note : ω → String → ω) (label : String) (fields : List (Field σ))
    (start : σ × ω) : Toml.Value → Except Error (σ × ω)
  | .array items => return (← readItems fields start.1 items, start.2)
  | value =>
      match entries? value with
      | some entries => readEntries note fields entries start
      | none => .error (.wrongType (found value) ("struct " ++ label))

/-- The fields of the table `assignability`. -/
def assignabilityFields : List (Field AssignOptions) :=
  [⟨"variance", fun value options => return { options with variance := ← readVariance value }⟩,
    ⟨"boxing", fun value options => return { options with boxing := ← readFlag value }⟩]

/-- The fields of the table `supertypes`. -/
def supertypesFields : List (Field Bool) := [⟨"cache_closures", fun value _ => readFlag value⟩]

/-- The fields of the table `logging`. -/
def loggingFields : List (Field LogSettings) :=
  [⟨"level", fun value logging => return { logging with level := ← readText value }⟩,
    ⟨"json", fun value logging => return { logging with json := ← readFlag value }⟩,
    ⟨"stderr", fun value logging => return { logging with stderr := ← readFlag value }⟩]

/-- The path of a key in a table. -/
def pathIn (table key : String) : String := table ++ "." ++ key

/-- Read one entry of the document. -/
def readEntry {ω : Type} (note : ω → String → ω) (state : Settings × ω)
    (entry : String × Toml.Value) : Except Error (Settings × ω) := do
  let (settings, noted) := state
  let (key, value) := entry
  let noteIn := fun noted name => note noted (pathIn key name)
  if key == "assignability" then
    let (options, noted) ←
      readTable noteIn "AssignabilityConfig" assignabilityFields (.standard, noted) value
    return ({ settings with assignability := options }, noted)
  else if key == "supertypes" then
    let (memoize, noted) ← readTable noteIn "SupertypesConfig" supertypesFields (true, noted) value
    return ({ settings with memoize }, noted)
  else if key == "logging" then
    let (logging, noted) ← readTable noteIn "LoggingConfig" loggingFields ({}, noted) value
    return ({ settings with logging }, noted)
  else return (settings, note noted key)

/-- The settings of a document, and what is noted of unknown keys in the order of the document. -/
def readDocument {ω : Type} (note : ω → String → ω) (start : ω)
    (document : Entries) : Except Error (Settings × ω) :=
  document.foldlM (readEntry note) ({}, start)

/-- A path without the dots at its beginning. -/
def trimDots (path : String) : String := String.ofList (path.toList.dropWhile (· == '.'))

/-- Paths in ascending order, each once. -/
def sortPaths (paths : List String) : List String :=
  ((paths.map trimDots).mergeSort (fun first second => decide (first ≤ second))).eraseDups

/-- Settings with what was noticed while they were loaded. -/
structure Loaded where
  settings : Settings
  /-- The paths of the keys that were ignored. -/
  unknownKeys : List String
  warnings : List Warning

/-- The settings of a document. -/
def ofDocument (document : Entries) : Except Error Settings := do
  return (← readDocument (fun _ _ => ()) () document).1

section Texts

variable {δ φ : Type} (dialect : Dialect δ φ) (format : Toml.Format)

/-- The settings of a document with what is noticed in it. -/
def inspect (document : Entries) : Except Error Loaded := do
  let (settings, unknown) ← readDocument (fun paths path => paths ++ [path]) [] document
  return ⟨settings, sortPaths unknown, settings.warnings dialect⟩

/-- The document that a text holds. -/
def documentOf (text : String) : Except Error Entries :=
  match format.parse? text with
  | some document => .ok document
  | none => .error .malformed

/-- Read settings from text. -/
def read (text : String) : Except Error Settings := do ofDocument (← documentOf format text)

/-- Read settings from text and tell what was noticed. -/
def load (text : String) : Except Error Loaded := do inspect dialect (← documentOf format text)

/-- The text in the content of a file, which is `none` if there is no such file. -/
def textOf (path : String) (content : Option ByteArray) : Except Error String :=
  match content with
  | none => .error (.unreadable path .missing)
  | some bytes =>
      match String.fromUTF8? bytes with
      | none => .error (.unreadable path .notText)
      | some text => .ok text

/-- Read settings from the content of a file. -/
def ofFile (path : String) (content : Option ByteArray) : Except Error Settings := do
  read format (← textOf path content)

/-- Read settings from the content of a file and tell what was noticed. -/
def loadFile (path : String) (content : Option ByteArray) : Except Error Loaded := do
  load dialect format (← textOf path content)

end Texts

end Settings

end Nominal
