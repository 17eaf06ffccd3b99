import Nominal.Toml.Number
import Nominal.Toml.Tree

/-!
# TOML documents

`parse?` reads a whole document and returns the entries of its top table, or nothing when the text
is not a document. A byte order mark may stand at its beginning.
-/

namespace Nominal.Toml

/-- The items of an array after its opening bracket, at most `count` of them. -/
def items? (item : Reader Value) : Nat → Reader (List Value)
  | 0, _ => none
  | count + 1, chars =>
      match skipSpace chars with
      | ']' :: rest => some ([], rest)
      | start => do
          let (first, rest) ← item start
          match skipSpace rest with
          | ',' :: rest => do
              let (more, rest) ← items? item count rest
              return (first :: more, rest)
          | ']' :: rest => return ([first], rest)
          | _ => none

/-- A key, an equals sign and a value. -/
def assignment? (item : Reader Value) : Reader (List String × Value) := fun chars => do
  let (path, rest) ← key? chars
  let (content, rest) ← item (skipBlanks (← expect? '=' rest))
  return ((path, content), rest)

/-- Set the value of a path of keys. -/
def assign (tree : Tree) (path : List String) (content : Value) : Option Tree := do
  tree.insert path.dropLast (← path.getLast?) content

/-- The entries of an inline table after its opening brace, at most `count` of them. -/
def inlineRest? (item : Reader Value) : Nat → Tree → Reader Tree
  | 0, _, _ => none
  | count + 1, tree, chars => do
      let ((path, content), rest) ← assignment? item (skipBlanks chars)
      let tree ← assign tree path content
      match skipBlanks rest with
      | ',' :: rest => inlineRest? item count tree rest
      | '\x7d' :: rest => return (tree, rest)
      | _ => none

/-- An inline table after its opening brace, with at most `count` entries. -/
def inline? (item : Reader Value) (count : Nat) : Reader Value := fun chars =>
  match skipBlanks chars with
  | '\x7d' :: rest => some (.table [], rest)
  | start => do
      let (tree, rest) ← inlineRest? item count (.empty .header) start
      return (.table (finishEntries tree.entries), rest)

/-- A string, a number, a truth value or a moment. -/
def plainValue? : Reader Value := fun chars =>
  match chars with
  | '"' :: _ => (string? chars).map fun (value, rest) => (.string value, rest)
  | '\'' :: _ => (string? chars).map fun (value, rest) => (.string value, rest)
  | _ => scalarValue? chars

/-- A value with at most `depth` arrays and tables inside each other, and at most `count` items or
entries in each. -/
def value? (count : Nat) : Nat → Reader Value
  | 0, chars => plainValue? chars
  | depth + 1, chars =>
      match chars with
      | '[' :: rest => do
          let (items, rest) ← items? (value? count depth) count rest
          return (.array items, rest)
      | '\x7b' :: rest => inline? (value? count depth) count rest
      | _ => plainValue? chars

/-- A header of a table, or of a further table of a list. -/
inductive Header where
  | table (path : List String)
  | item (path : List String)

/-- A header after its opening bracket. -/
def header? : Reader Header
  | '[' :: rest => do
      let (path, rest) ← key? (skipBlanks rest)
      let rest ← expect? ']' (← expect? ']' rest)
      return (.item path, rest)
  | chars => do
      let (path, rest) ← key? (skipBlanks chars)
      return (.table path, ← expect? ']' rest)

/-- A line with content. -/
inductive Line where
  | header (header : Header)
  | assignment (path : List String) (content : Value)

/-- The content of a line that is not empty, where each value has at most `count` parts. -/
def line? (count : Nat) : Reader Line
  | '[' :: rest => (header? rest).map fun (header, rest) => (.header header, rest)
  | chars => do
      let ((path, content), rest) ← assignment? (value? count depthLimit) chars
      return (.assignment path content, rest)

/-- The lines with content, where the text has at most `size` lines and each value at most `count`
parts. -/
def lines? (count : Nat) : Nat → List Char → Option (List Line)
  | 0, _ => none
  | size + 1, chars =>
      match endOfLine? chars with
      | some [] => some []
      | some rest => lines? count size rest
      | none => do
          let (line, rest) ← line? count (skipBlanks chars)
          return line :: (← lines? count size (← endOfLine? rest))

/-- A header with the assignments below it. -/
structure Section where
  header : Header
  body : List (List String × Value)

/-- Divide lines into the assignments before the first header and the sections. -/
def sections : List Line → List (List String × Value) × List Section
  | [] => ([], [])
  | .assignment path content :: rest =>
      let (body, others) := sections rest
      ((path, content) :: body, others)
  | .header header :: rest =>
      let (body, others) := sections rest
      ([], ⟨header, body⟩ :: others)

/-- Make assignments in order. -/
def fill (body : List (List String × Value)) (tree : Tree) : Option Tree :=
  body.foldlM (fun tree pair => assign tree pair.1 pair.2) tree

/-- Add a section to a document. -/
def addSection (tree : Tree) (part : Section) : Option Tree := do
  match part.header with
  | .table path => tree.openTable path.dropLast (← path.getLast?) (fill part.body)
  | .item path => tree.openItem path.dropLast (← path.getLast?) (fill part.body)

/-- Drop a byte order mark. -/
def skipMark : List Char → List Char
  | '\ufeff' :: rest => rest
  | chars => chars

/-- The entries of a document. -/
def parse? (text : String) : Option (List (String × Value)) := do
  let chars := skipMark text.toList
  let size := chars.length + 1
  let (body, others) := sections (← lines? size size chars)
  let tree ← fill body (.empty .header)
  let tree ← others.foldlM addSection tree
  return finishEntries tree.entries

end Nominal.Toml
