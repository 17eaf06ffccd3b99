/-!
# TOML values

What a TOML document holds. Tables keep their keys in order. A format says how a document is read
from a text, and that no table of it has a key twice.
-/

namespace Nominal.Toml

/-- A value of a document. -/
inductive Value where
  | string (value : String)
  | integer (value : Int)
  | float (value : Float)
  | boolean (value : Bool)
  /-- A date, a time, or both. -/
  | moment (spelling : String)
  | array (items : List Value)
  | table (entries : List (String × Value))

mutual

/-- Whether two values are the same. -/
def Value.same : Value → Value → Bool
  | .string first, .string second => first == second
  | .integer first, .integer second => first == second
  | .float first, .float second => decide (first = second)
  | .boolean first, .boolean second => first == second
  | .moment first, .moment second => first == second
  | .array first, .array second => sameItems first second
  | .table first, .table second => sameEntries first second
  | _, _ => false

/-- Whether two lists hold the same values. -/
def sameItems : List Value → List Value → Bool
  | [], [] => true
  | first :: rest, second :: others => first.same second && sameItems rest others
  | _, _ => false

/-- Whether two tables have the same entries in the same order. -/
def sameEntries : List (String × Value) → List (String × Value) → Bool
  | [], [] => true
  | (key, first) :: rest, (other, second) :: others =>
      key == other && first.same second && sameEntries rest others
  | _, _ => false

end

mutual

/-- The test is for equality. -/
theorem Value.same_iff (first second : Value) : first.same second = true ↔ first = second := by
  cases first <;> cases second <;> simp [Value.same, sameItems_iff, sameEntries_iff]

/-- The test is for equality of lists. -/
theorem sameItems_iff (first second : List Value) :
    sameItems first second = true ↔ first = second := by
  cases first with
  | nil => cases second <;> simp [sameItems]
  | cons value rest =>
      cases second with
      | nil => simp [sameItems]
      | cons other others => simp [sameItems, value.same_iff other, sameItems_iff rest others]

/-- The test is for equality of tables. -/
theorem sameEntries_iff (first second : List (String × Value)) :
    sameEntries first second = true ↔ first = second := by
  cases first with
  | nil => cases second <;> simp [sameEntries]
  | cons entry rest =>
      cases second with
      | nil => simp [sameEntries]
      | cons other others =>
          simp [sameEntries, entry.2.same_iff other.2, sameEntries_iff rest others, Prod.ext_iff]

end

instance : DecidableEq Value := fun first second => decidable_of_iff _ (first.same_iff second)

/-- No table in the value has a key twice. -/
inductive Value.Distinct : Value → Prop where
  | string (value : String) : Distinct (.string value)
  | integer (value : Int) : Distinct (.integer value)
  | float (value : Float) : Distinct (.float value)
  | boolean (value : Bool) : Distinct (.boolean value)
  | moment (spelling : String) : Distinct (.moment spelling)
  | array {items : List Value} (hitems : ∀ item ∈ items, Distinct item) : Distinct (.array items)
  | table {entries : List (String × Value)} (hkeys : (entries.map Prod.fst).Nodup)
      (hvalues : ∀ entry ∈ entries, Distinct entry.2) : Distinct (.table entries)

/-- A way to write documents as text. -/
structure Format where
  /-- The entries of the document that a text holds. -/
  parse? : String → Option (List (String × Value))
  /-- No table of a document has a key twice. -/
  distinct : ∀ {text : String} {document : List (String × Value)},
    parse? text = some document → (Value.table document).Distinct

/-- A reader takes a value from the front of a text and returns the rest. -/
abbrev Reader (α : Type) := List Char → Option (α × List Char)

end Nominal.Toml
