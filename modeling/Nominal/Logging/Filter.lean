import Nominal.Logging.Dialect
import Nominal.Text.Alphanumeric
import Nominal.Text.Blank

/-!
# Log filters by target

In the dialect of targets a filter is a list of directives, each of which sets the level of the
targets that begin with a given text, or of all targets. The directives for longer texts come first,
and the first one that applies to a target decides. Directives about spans or fields are not part of
this dialect.
-/

namespace Nominal

/-- How much is logged. Each level includes those before it. -/
inductive LogLevel where
  | off
  | error
  | warn
  | info
  | debug
  | trace
  deriving DecidableEq

namespace LogLevel

/-- All levels in order. -/
def all : List LogLevel := [.off, .error, .warn, .info, .debug, .trace]

/-- The position of a level. -/
def rank : LogLevel → Nat
  | .off => 0
  | .error => 1
  | .warn => 2
  | .info => 3
  | .debug => 4
  | .trace => 5

/-- The name of a level. -/
def name : LogLevel → String
  | .off => "off"
  | .error => "error"
  | .warn => "warn"
  | .info => "info"
  | .debug => "debug"
  | .trace => "trace"

/-- The level with the given position. -/
def ofRank? (rank : Nat) : Option LogLevel := all[rank]?

/-- The level with the given name, in any case. -/
def ofName? (chars : List Char) : Option LogLevel :=
  all.find? (fun level => level.name.toList == chars.map Char.toLower)

/-- The number that decimal digits spell, possibly after a plus sign. -/
def position? (chars : List Char) : Option Nat :=
  let digits := match chars with
    | '+' :: rest => rest
    | _ => chars
  if !digits.isEmpty && digits.all Char.isDigit then
    some (digits.foldl (fun number c => 10 * number + (c.toNat - '0'.toNat)) 0)
  else none

/-- The level with the given position or name. -/
def parse? (chars : List Char) : Option LogLevel :=
  match position? chars with
  | some rank => ofRank? rank
  | none => ofName? chars

end LogLevel

/-- The level of the targets that begin with a text, or of all targets. -/
structure Directive where
  target : Option String
  level : LogLevel
  deriving DecidableEq

namespace Directive

/-- Whether a directive may begin with the character. -/
def isStart (c : Char) : Bool := Text.isAlphanumeric c || c == '-' || c == ':' || c == '_'

/-- A directive without an equals sign: a level for all targets, or a target for which all levels
are logged. -/
def plain (chars : List Char) : Directive :=
  match LogLevel.parse? chars with
  | some level => ⟨none, level⟩
  | none => ⟨some (String.ofList chars), .trace⟩

/-- A directive. Blanks before it are passed over to see how it starts. Without an equals sign they
are part of it, so that a level beside a blank reads as a target; with one it must start at once,
and no level after the sign means all levels. A bracket would begin a span. -/
def parse? (chars : List Char) : Option Directive :=
  if chars.contains '[' then none
  else if (chars.dropWhile Text.isBlank).head?.any isStart then
    let target := chars.takeWhile (· != '=')
    match chars.dropWhile (· != '=') with
    | [] => some (plain chars)
    | _ :: rest =>
        if chars.head?.any Text.isBlank then none
        else if rest.isEmpty then some ⟨some (String.ofList target), .trace⟩
        else (LogLevel.parse? rest).map fun level => ⟨some (String.ofList target), level⟩
  else none

/-- The text of a directive. -/
def display (directive : Directive) : String :=
  match directive.target with
  | some target => target ++ "=" ++ directive.level.name
  | none => directive.level.name

/-- Whether a directive comes before those of another target: longer targets first, then greater
ones, and last of all the directive without a target. -/
def precedes (first second : Option String) : Bool :=
  match first, second with
  | some target, some target' =>
      target'.utf8ByteSize < target.utf8ByteSize ||
        (target.utf8ByteSize == target'.utf8ByteSize && decide (target' < target))
  | some _, none => true
  | none, _ => false

/-- Whether a directive applies to a target. -/
def appliesTo (directive : Directive) (target : String) : Bool :=
  directive.target.all (fun start => start.toList.isPrefixOf target.toList)

end Directive

/-- Directives in the order in which they are tried, at most one for each target. -/
abbrev Filter := List Directive

namespace Filter

/-- Add a directive, in place of one for the same target. -/
def insert (directive : Directive) : Filter → Filter
  | [] => [directive]
  | other :: rest =>
      if other.target == directive.target then directive :: rest
      else if Directive.precedes directive.target other.target then directive :: other :: rest
      else other :: insert directive rest

/-- The filter of directives, where later ones replace earlier ones. -/
def ofDirectives (directives : List Directive) : Filter :=
  directives.foldl (fun filter directive => insert directive filter) []

/-- The text of a filter. -/
def display (filter : Filter) : String := ",".intercalate (filter.map Directive.display)

/-- Whether events of a target are logged at a level. -/
def allows (filter : Filter) (target : String) (level : LogLevel) : Bool :=
  (filter.find? (fun directive => directive.appliesTo target)).any
    (fun directive => level.rank ≤ directive.level.rank)

end Filter

/-- The dialect of targets. -/
def Dialect.targets : Dialect Directive Filter where
  read? := Directive.parse?
  collect := Filter.ofDirectives
  info := ⟨none, .info⟩
  read_info := by decide

end Nominal
