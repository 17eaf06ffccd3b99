import Nominal.Text.Parts

/-!
# Dialects of log filters

What may be logged is said by directives, which as text are separated by commas. How one directive
is read and what filter several of them make is left to a dialect; all that is asked of it is that
the name `info` is a directive. One directive that cannot be read makes the whole text unreadable,
and nothing between two commas is no directive.
-/

namespace Nominal

/-- A way to read single directives and to make a filter of several. -/
structure Dialect (δ φ : Type) where
  /-- The directive that a text without commas spells. -/
  read? : List Char → Option δ
  /-- The filter of directives in their order. -/
  collect : List δ → φ
  /-- The directive for the level `info` alone. -/
  info : δ
  /-- The name of the level spells that directive. -/
  read_info : read? "info".toList = some info

namespace Dialect

variable {δ φ : Type} (dialect : Dialect δ φ)

/-- The directives of a text in the order of the text. -/
def directives? (chars : List Char) : Option (List δ) :=
  ((Text.parts ',' chars).filter (fun part => !part.isEmpty)).mapM dialect.read?

/-- The filter that a text describes. -/
def parse? (text : String) : Option φ := (dialect.directives? text.toList).map dialect.collect

end Dialect

end Nominal
