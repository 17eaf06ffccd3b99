import Nominal.Text.Quoted
import Nominal.Type.Basic

/-!
# The text of a type

`Ty.display` is the text for readers: `java.util.List<? extends T@pkg.Box>[]`. A member of an
enclosing type is written after it with a dot, by its simple name when its qualified name extends
the enclosing name. `Ty.inspect` shows the constructors. Neither looks at the bounds of variables.
-/

namespace Nominal

/-- The parts with a comma and a blank between them. -/
def commaSeparated (parts : List String) : String := ", ".intercalate parts

/-- The name of a variable with its declaration. -/
def TypeVar.display (param : TypeVar) : String := s!"{param.name}@{param.declaration}"

namespace Named

/-- Whether the qualified name is `enclosing`, a separator and the simple name. -/
def isNestedIn (named : Named) (enclosing : String) : Bool :=
  named.name.toList == enclosing.toList ++ '$' :: named.simpleName.toList ||
    named.name.toList == enclosing.toList ++ '.' :: named.simpleName.toList

end Named

namespace Ty

/-- The qualified name at the head of a named or applied type. -/
def headName? : Ty → Option String
  | .named head => some head.name
  | .applied _ raw _ => some raw.name
  | _ => none

/-- How the name of a member is written after the type that encloses it. -/
def memberName (owner : Ty) (raw : Named) : String :=
  match owner.headName? with
  | some enclosing => if raw.isNestedIn enclosing then raw.simpleName else raw.name
  | none => raw.name

/-- Type arguments in angle brackets, or nothing when there are none. -/
def bracketed (args : List String) : String :=
  if args.isEmpty then "" else "<" ++ commaSeparated args ++ ">"

mutual
/-- The text of a type for readers. -/
def display : Ty → String
  | .named head => head.name
  | .applied none raw args => raw.name ++ bracketed (displayAll args)
  | .applied (some owner) raw args =>
      display owner ++ "." ++ memberName owner raw ++ bracketed (displayAll args)
  | .array component => display component ++ "[]"
  | .var param => param.display
  | .wildcard _ (some lower) => "? super " ++ display lower
  | .wildcard upper none => if upper.isTop then "?" else "? extends " ++ display upper

/-- The texts of several types. -/
def displayAll : List Ty → List String
  | [] => []
  | first :: rest => display first :: displayAll rest
end

/-- A named type with its constructor. -/
def inspectNamed (named : Named) : String := "Named(" ++ Text.quote named.name ++ ")"

/-- A constructor with named fields. -/
def inspectRecord (label : String) (fields : List String) : String :=
  label ++ " \x7b " ++ commaSeparated fields ++ " \x7d"

mutual
/-- The text of a type that shows its constructors. -/
def inspect : Ty → String
  | .named head => inspectNamed head
  | .applied none raw args =>
      inspectRecord "Parameterized"
        ["raw: " ++ inspectNamed raw, "args: [" ++ commaSeparated (inspectAll args) ++ "]"]
  | .applied (some owner) raw args =>
      inspectRecord "Parameterized"
        ["owner: " ++ inspect owner, "raw: " ++ inspectNamed raw,
          "args: [" ++ commaSeparated (inspectAll args) ++ "]"]
  | .array component => "Array(" ++ inspect component ++ ")"
  | .var param =>
      inspectRecord "TypeVariable"
        ["name: " ++ Text.quote param.name,
          "declaration: DeclarationKey(" ++ param.declaration ++ ")"]
  | .wildcard upper none => inspectRecord "Wildcard" ["upper: " ++ inspect upper]
  | .wildcard upper (some lower) =>
      inspectRecord "Wildcard" ["upper: " ++ inspect upper, "lower: " ++ inspect lower]

/-- The texts of several types that show their constructors. -/
def inspectAll : List Ty → List String
  | [] => []
  | first :: rest => inspect first :: inspectAll rest
end

end Ty

end Nominal
