/-!
# Parts of a text

`parts` divides a text at every separator, and `lines` at line breaks. There is always at least one
part, and between two separators in a row stands an empty one.
-/

namespace Nominal.Text

/-- The parts of a text between separators. -/
def parts (separator : Char) : List Char → List (List Char)
  | [] => [[]]
  | c :: rest =>
      if c == separator then [] :: parts separator rest
      else
        match parts separator rest with
        | part :: others => (c :: part) :: others
        | [] => [[c]]

/-- There is always a part. -/
theorem parts_ne_nil (separator : Char) (chars : List Char) : parts separator chars ≠ [] := by
  cases chars with
  | nil => simp [parts]
  | cons c rest =>
      unfold parts
      repeat' split
      all_goals simp

/-- The parts of two texts with a separator between them are those of the one and then those of the
other. -/
theorem parts_append (separator : Char) (first second : List Char) :
    parts separator (first ++ separator :: second) =
      parts separator first ++ parts separator second := by
  induction first with
  | nil => simp [parts]
  | cons c rest ih =>
      by_cases hc : (c == separator) = true
      · simp [parts, hc, ih]
      · cases hrest : parts separator rest with
        | nil => exact absurd hrest (parts_ne_nil separator rest)
        | cons part others => simp [parts, hc, ih, hrest]

/-- Drop a carriage return at the end. -/
def dropReturn (chars : List Char) : List Char :=
  if chars.getLast? == some '\r' then chars.dropLast else chars

/-- The lines of a text. A carriage return before a line break belongs to the break. -/
def lines (text : String) : List String :=
  (parts '\n' text.toList).map fun part => String.ofList (dropReturn part)

end Nominal.Text
