import Nominal.Toml.Value

/-!
# Blanks, comments and line breaks

Blanks are spaces and tabs. A line break is a line feed, possibly after a carriage return. A comment
runs to the end of its line and holds no control characters other than tabs.
-/

namespace Nominal.Toml

/-- A space or a tab. -/
def isBlank (c : Char) : Bool := c == ' ' || c == '\t'

/-- A character that may stand in a comment or, unless it ends it, in a string. -/
def isPlain (c : Char) : Bool := c == '\t' || (0x20 ≤ c.toNat && c.toNat != 0x7f)

/-- Drop blanks. -/
def skipBlanks (chars : List Char) : List Char := chars.dropWhile isBlank

/-- Drop a comment. -/
def skipComment : List Char → List Char
  | '#' :: rest => rest.dropWhile isPlain
  | chars => chars

/-- Take a line break. -/
def lineBreak? : List Char → Option (List Char)
  | '\n' :: rest => some rest
  | '\r' :: '\n' :: rest => some rest
  | _ => none

/-- Take the rest of a line that holds nothing more than a comment. -/
def endOfLine? (chars : List Char) : Option (List Char) :=
  match skipComment (skipBlanks chars) with
  | [] => some []
  | rest => lineBreak? rest

/-- Drop blanks, comments and line breaks, where the text begins inside a comment or outside. -/
def skipSpaceFrom (comment : Bool) : List Char → List Char
  | [] => []
  | '\n' :: rest => skipSpaceFrom false rest
  | '\r' :: '\n' :: rest => skipSpaceFrom false rest
  | c :: rest =>
      if comment && isPlain c then skipSpaceFrom true rest
      else if !comment && isBlank c then skipSpaceFrom false rest
      else if !comment && c == '#' then skipSpaceFrom true rest
      else c :: rest

/-- Drop blanks, comments and line breaks. -/
def skipSpace (chars : List Char) : List Char := skipSpaceFrom false chars

/-- The number of characters in the leading run of blanks and line breaks. -/
def spaceRun : List Char → Nat
  | '\r' :: '\n' :: rest => spaceRun rest + 2
  | c :: rest => if isBlank c || c == '\n' then spaceRun rest + 1 else 0
  | [] => 0

/-- Take a given character. -/
def expect? (wanted : Char) : List Char → Option (List Char)
  | c :: rest => if c == wanted then some rest else none
  | [] => none

end Nominal.Toml
