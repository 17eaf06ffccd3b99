import Nominal.Toml.Space

/-!
# Strings and keys

Basic strings stand between double quotes and have escapes, literal strings stand between single
quotes and have none. Three quotes open a string of several lines; a line break right after them
does not count, and up to two quotes may precede the closing ones. Line breaks in strings are line
feeds, whatever their spelling. In a basic string of several lines a backslash at the end of a line
drops the white space up to the next character.
-/

namespace Nominal.Toml

/-- The value of a hexadecimal digit. -/
def hexDigit? (c : Char) : Option Nat :=
  if '0' ≤ c && c ≤ '9' then some (c.toNat - '0'.toNat)
  else if 'a' ≤ c && c ≤ 'f' then some (c.toNat - 'a'.toNat + 10)
  else if 'A' ≤ c && c ≤ 'F' then some (c.toNat - 'A'.toNat + 10)
  else none

/-- The number that hexadecimal digits spell. -/
def hexNumber? (digits : List Char) : Option Nat :=
  digits.foldlM (fun number c => (hexDigit? c).map (16 * number + ·)) 0

/-- The character of a code point that is not a surrogate. -/
def scalar? (code : Nat) : Option Char := if code.isValidChar then some (Char.ofNat code) else none

/-- The character that an escape of exactly `width` hexadecimal digits stands for. -/
def codeEscape? (width : Nat) (chars : List Char) : Option Char := do
  let digits := chars.take width
  if digits.length == width then scalar? (← hexNumber? digits) else none

/-- The character that an escape stands for, and the number of characters after the backslash. -/
def escape? : List Char → Option (Char × Nat)
  | 'b' :: _ => some ('\x08', 1)
  | 't' :: _ => some ('\t', 1)
  | 'n' :: _ => some ('\n', 1)
  | 'f' :: _ => some ('\x0c', 1)
  | 'r' :: _ => some ('\r', 1)
  | '"' :: _ => some ('"', 1)
  | '\\' :: _ => some ('\\', 1)
  | 'u' :: rest => (codeEscape? 4 rest).map (·, 5)
  | 'U' :: rest => (codeEscape? 8 rest).map (·, 9)
  | _ => none

/-- The rest of a basic string on one line. The first `skip` characters are done with, and `taken`
holds the characters so far in reverse. -/
def basicRest : Nat → List Char → Reader String
  | _, _, [] => none
  | skip + 1, taken, _ :: rest => basicRest skip taken rest
  | 0, taken, c :: rest =>
      if c == '"' then some (String.ofList taken.reverse, rest)
      else if c == '\\' then do
        let (escaped, length) ← escape? rest
        basicRest length (escaped :: taken) rest
      else if isPlain c then basicRest 0 (c :: taken) rest
      else none

/-- The rest of a literal string on one line. -/
def literalRest : List Char → Reader String
  | _, [] => none
  | taken, c :: rest =>
      if c == '\'' then some (String.ofList taken.reverse, rest)
      else if isPlain c then literalRest (c :: taken) rest
      else none

/-- The end of a string of several lines, if the text begins with three to five quotes: the
quotes that belong to the string and what follows. -/
def closing? (quote : Char) (chars : List Char) : Option (List Char × List Char) :=
  let count := min 5 (chars.takeWhile (· == quote)).length
  if 3 ≤ count then some (chars.take (count - 3), chars.drop count) else none

/-- Whether a backslash stands at the end of its line. -/
def endsLine (chars : List Char) : Bool := (lineBreak? (skipBlanks chars)).isSome

/-- The rest of a basic string of several lines. The first `skip` characters are done with. -/
def multilineBasicRest : Nat → List Char → Reader String
  | _, _, [] => none
  | skip + 1, taken, _ :: rest => multilineBasicRest skip taken rest
  | 0, taken, c :: rest =>
      match closing? '"' (c :: rest) with
      | some (quotes, after) => some (String.ofList (taken.reverse ++ quotes), after)
      | none =>
          if c == '\\' then
            if endsLine rest then multilineBasicRest (spaceRun rest) taken rest
            else do
              let (escaped, length) ← escape? rest
              multilineBasicRest length (escaped :: taken) rest
          else if (lineBreak? (c :: rest)).isSome then
            multilineBasicRest (if c == '\r' then 1 else 0) ('\n' :: taken) rest
          else if isPlain c then multilineBasicRest 0 (c :: taken) rest
          else none

/-- The rest of a literal string of several lines. The first `skip` characters are done with. -/
def multilineLiteralRest : Nat → List Char → Reader String
  | _, _, [] => none
  | skip + 1, taken, _ :: rest => multilineLiteralRest skip taken rest
  | 0, taken, c :: rest =>
      match closing? '\'' (c :: rest) with
      | some (quotes, after) => some (String.ofList (taken.reverse ++ quotes), after)
      | none =>
          if (lineBreak? (c :: rest)).isSome then
            multilineLiteralRest (if c == '\r' then 1 else 0) ('\n' :: taken) rest
          else if isPlain c then multilineLiteralRest 0 (c :: taken) rest
          else none

/-- Drop a line break. -/
def skipLineBreak (chars : List Char) : List Char := (lineBreak? chars).getD chars

/-- A string. -/
def string? : Reader String
  | '"' :: '"' :: '"' :: rest => multilineBasicRest 0 [] (skipLineBreak rest)
  | '"' :: rest => basicRest 0 [] rest
  | '\'' :: '\'' :: '\'' :: rest => multilineLiteralRest 0 [] (skipLineBreak rest)
  | '\'' :: rest => literalRest [] rest
  | _ => none

/-- A character of a key that needs no quotes. -/
def isBare (c : Char) : Bool := c.isAlphanum || c == '_' || c == '-'

/-- A single key. -/
def simpleKey? : Reader String
  | '"' :: rest => basicRest 0 [] rest
  | '\'' :: rest => literalRest [] rest
  | chars =>
      let bare := chars.takeWhile isBare
      if bare.isEmpty then none else some (String.ofList bare, chars.dropWhile isBare)

/-- Keys joined by dots, at most `parts` of them. -/
def keys? : Nat → Reader (List String)
  | 0, _ => none
  | parts + 1, chars => do
      let (key, rest) ← simpleKey? chars
      match skipBlanks rest with
      | '.' :: next => do
          let (more, rest) ← keys? parts (skipBlanks next)
          return (key :: more, rest)
      | after => return ([key], after)

/-- How many arrays and tables may stand inside each other, and how many keys in a row. -/
def depthLimit : Nat := 79

/-- A key, which may be a path of keys. Blanks after it are taken too. -/
def key? : Reader (List String) := keys? depthLimit

end Nominal.Toml
