import Nominal.Type.Equality

/-!
# Sketches

The sketch of a type is a number that equal types share. It is made from the first names of the
type, so it costs little however large the type is, and types that differ there mostly differ in
their sketches.
-/

namespace Nominal.Ty

/-- Work on a sketch: how many names it may still take in, and the number so far. -/
structure SketchState where
  left : Nat
  value : Nat

namespace SketchState

/-- Mix a character into the number. -/
def mix (state : SketchState) (c : Char) : SketchState :=
  { state with value := (state.value * 8191 + c.toNat + 1) % 1048573 }

/-- Take in a name. -/
def add (state : SketchState) (name : String) : SketchState :=
  name.toList.foldl mix { state with left := state.left - 1 }

mutual
/-- Take in the names of a type from left to right, as long as some may be taken in. -/
def addType (state : SketchState) : Ty → SketchState
  | .named head => state.add head.name
  | .applied owner raw args =>
      if state.left = 0 then state
      else addTypes (addOption (state.add raw.name) owner) args
  | .array component => addType (state.mix '[') component
  | .var param => (state.add param.name).add param.declaration
  | .wildcard upper lower =>
      if state.left = 0 then state else addOption (addType (state.mix '?') upper) lower

/-- Take in the names of an optional type. -/
def addOption (state : SketchState) : Option Ty → SketchState
  | none => state
  | some t => addType state t

/-- Take in the names of several types. -/
def addTypes (state : SketchState) : List Ty → SketchState
  | [] => state
  | first :: rest => addTypes (addType state first) rest
end

mutual
/-- Types that are the same have the same names. -/
theorem addType_congr (state : SketchState) : (s t : Ty) → same s t = true →
    state.addType s = state.addType t
  | .named s, t, h => by
      cases t <;> simp only [same, alike, Bool.false_eq_true] at h
      simp only [addType, Named.beq_iff.1 h]
  | .applied owner raw args, t, h => by
      cases t <;> simp only [same, alike, Bool.and_eq_true, Bool.false_eq_true] at h
      simp only [addType, Named.beq_iff.1 h.1.1, addOption_congr _ owner _ h.1.2,
        addTypes_congr _ args _ h.2]
  | .array component, t, h => by
      cases t <;> simp only [same, alike, Bool.false_eq_true] at h
      simp only [addType, addType_congr _ component _ h]
  | .var s, t, h => by
      cases t <;> simp only [same, alike, Bool.false_eq_true] at h
      simp only [addType, (TypeVar.beq_iff.1 h).1, (TypeVar.beq_iff.1 h).2]
  | .wildcard upper lower, t, h => by
      cases t <;> simp only [same, alike, Bool.and_eq_true, Bool.false_eq_true] at h
      simp only [addType, addType_congr _ upper _ h.1, addOption_congr _ lower _ h.2]

/-- Optional types that are the same have the same names. -/
theorem addOption_congr (state : SketchState) : (s t : Option Ty) →
    alikeOption (· == ·) s t = true → state.addOption s = state.addOption t
  | none, t, h => by cases t <;> simp_all [alikeOption, addOption]
  | some s, t, h => by
      cases t <;> simp only [alikeOption, Bool.false_eq_true] at h
      simp only [addOption, addType_congr _ s _ h]

/-- Lists of types that are the same have the same names. -/
theorem addTypes_congr (state : SketchState) : (s t : List Ty) →
    alikeList (· == ·) s t = true → state.addTypes s = state.addTypes t
  | [], t, h => by cases t <;> simp_all [alikeList, addTypes]
  | first :: rest, t, h => by
      cases t <;> simp only [alikeList, Bool.and_eq_true, Bool.false_eq_true] at h
      simp only [addTypes, addType_congr _ first _ h.1, addTypes_congr _ rest _ h.2]
end

end SketchState

/-- How many names a sketch takes in. -/
def sketchLength : Nat := 48

/-- A number that equal types share. -/
def sketch (t : Ty) : Nat := (SketchState.addType ⟨sketchLength, 0⟩ t).value

/-- Equal types have equal sketches. -/
theorem sketch_congr {s t : Ty} (h : s == t) : s.sketch = t.sketch := by
  rw [beq_eq_same] at h
  rw [sketch, SketchState.addType_congr _ s t h, sketch]

end Nominal.Ty
