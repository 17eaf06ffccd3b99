/-!
# Buckets

Values in lists, each found by a number. A number leads to its list through a tree, by its lowest
binary digits; numbers that agree in these share a list.
-/

namespace Nominal

/-- Lists of values behind a tree of the given height. -/
inductive Buckets (α : Type) : Nat → Type where
  | list (values : List α) : Buckets α 0
  /-- What even and what odd numbers lead to. -/
  | split {height : Nat} (even odd : Buckets α height) : Buckets α (height + 1)

namespace Buckets

variable {α : Type}

/-- No values. -/
def empty : (height : Nat) → Buckets α height
  | 0 => .list []
  | height + 1 =>
      let half := empty height
      .split half half

/-- The list that a number leads to. -/
def get {height : Nat} : Buckets α height → Nat → List α
  | .list values, _ => values
  | .split even odd, key => if key % 2 = 0 then even.get (key / 2) else odd.get (key / 2)

/-- Put a value in front of the list that a number leads to. -/
def add {height : Nat} (value : α) : Buckets α height → Nat → Buckets α height
  | .list values, _ => .list (value :: values)
  | .split even odd, key =>
      if key % 2 = 0 then .split (even.add value (key / 2)) odd
      else .split even (odd.add value (key / 2))

/-- There are no values at first. -/
@[simp]
theorem get_empty (height key : Nat) : (empty height : Buckets α height).get key = [] := by
  induction height generalizing key with
  | zero => rfl
  | succ height ih => simp [empty, get, ih]

/-- A value is found under the number under which it was added. -/
theorem get_add_self {height : Nat} (buckets : Buckets α height) (value : α) (key : Nat) :
    (buckets.add value key).get key = value :: buckets.get key := by
  induction buckets generalizing key with
  | list values => rfl
  | split even odd iheven ihodd =>
      by_cases h : key % 2 = 0 <;> simp [add, get, h, iheven, ihodd]

/-- Adding a value changes a list by that value or not at all. -/
theorem get_add {height : Nat} (buckets : Buckets α height) (value : α) (key other : Nat) :
    (buckets.add value key).get other = value :: buckets.get other ∨
      (buckets.add value key).get other = buckets.get other := by
  induction buckets generalizing key other with
  | list values => exact .inl rfl
  | split even odd iheven ihodd =>
      by_cases h : key % 2 = 0 <;> by_cases h' : other % 2 = 0 <;>
        simp [add, get, h, h', iheven, ihodd]

end Buckets

end Nominal
