/-!
# Types of a nominal generic language

A type is a named class, interface or primitive, an application of a generic name to
arguments, an array, a type variable or a wildcard. Two types are the same when they describe
the same thing: names are compared by their spelling alone and variables by name and
declaration, so kinds, arities and bounds take no part. `Ty.same` is this relation and the `==` of
types everywhere in the library.
-/

namespace Nominal

/-- What a qualified name stands for. -/
inductive Kind where
  | classType
  | interfaceType
  | primitiveType
  deriving DecidableEq

/-- A class, interface or primitive referred to by its qualified name. -/
structure Named where
  name : String
  kind : Kind
  /-- The number of type parameters that are expected of a class or interface. -/
  params : Nat

namespace Named

/-- Named types are equal when their names are. -/
instance : BEq Named where
  beq first second := first.name == second.name

/-- The name of the universal supertype. -/
def topName : String := "java.lang.Object"

/-- The universal supertype. -/
def top : Named := ⟨topName, .classType, 0⟩

/-- Whether this is the universal supertype, whatever its kind and arity. -/
def isTop (named : Named) : Bool := named.name == topName

/-- Whether this is a primitive. -/
def isPrimitive (named : Named) : Bool := named.kind == .primitiveType

/-- Whether this is an interface. -/
def isInterface (named : Named) : Bool := named.kind == .interfaceType

/-- The number of type arguments that the reference expects. Primitives are never generic. -/
def arity (named : Named) : Nat := if named.isPrimitive then 0 else named.params

/-- Whether the reference expects type arguments. -/
def isGeneric (named : Named) : Bool := 0 < named.arity

/-- A character that ends an enclosing package or type in a qualified name. -/
def isSeparator (c : Char) : Bool := c == '.' || c == '$'

/-- The part of the name after its last separator. -/
def simpleName (named : Named) : String :=
  String.ofList (named.name.toList.reverse.takeWhile (fun c => !isSeparator c)).reverse

end Named

/-- The name of a class or interface, which is what can be applied to type arguments. -/
structure ClassName extends Named where
  reference : toNamed.isPrimitive = false

instance : Coe ClassName Named := ⟨ClassName.toNamed⟩

/-- Nothing but the name tells names of classes apart. -/
theorem ClassName.eq_iff {first second : ClassName} :
    first = second ↔ first.toNamed = second.toNamed := by
  constructor
  · exact congrArg toNamed
  · obtain ⟨_, _⟩ := first
    obtain ⟨_, _⟩ := second
    rintro rfl
    rfl

/-- The name of a class behind a name, unless it is a primitive. -/
def Named.asClass? (named : Named) : Option ClassName :=
  if reference : named.isPrimitive = false then some ⟨named, reference⟩ else none

/-- Behind the name of a class is that name. -/
theorem Named.asClass?_eq_some {named : Named} (h : named.isPrimitive = false) :
    named.asClass? = some ⟨named, h⟩ := dif_pos h

/-- Behind a primitive is no name of a class. -/
theorem Named.asClass?_eq_none {named : Named} (h : named.isPrimitive = true) :
    named.asClass? = none := dif_neg (by simp [h])

/-- The number of a bounds cell. -/
abbrev CellId := Nat

/-- How a variable refers to the cell that holds its bounds. An owning handle keeps the cell
alive, a back reference does not. -/
inductive Handle where
  | owning (cell : CellId)
  | back (cell : CellId)
  deriving DecidableEq

/-- The cell that a handle refers to. -/
def Handle.cell : Handle → CellId
  | .owning cell => cell
  | .back cell => cell

/-- A formal type parameter. It is identified by its name and the key of the entity that
declares it; its bounds are found through the handle. -/
structure TypeVar where
  name : String
  declaration : String
  handle : Handle

namespace TypeVar

/-- Variables are equal when they have the same name and the same declaration. -/
instance : BEq TypeVar where
  beq first second := first.name == second.name && first.declaration == second.declaration

/-- A variable is equal to itself. -/
theorem beq_self (param : TypeVar) : (param == param) = true := by
  show (param.name == param.name && param.declaration == param.declaration) = true
  rw [beq_self_eq_true, beq_self_eq_true, Bool.and_true]

/-- The cell that holds the bounds of the variable. -/
def cell (param : TypeVar) : CellId := param.handle.cell

/-- The key of a method or constructor that a type declares. -/
def methodKey (declaring signature : String) : String := s!"{declaring}#{signature}"

end TypeVar

/-- The types of the language. -/
inductive Ty where
  /-- A class, interface or primitive. -/
  | named (head : Named)
  /-- A generic type applied to arguments, possibly a member of an enclosing type. -/
  | applied (owner : Option Ty) (raw : ClassName) (args : List Ty)
  /-- An array. -/
  | array (component : Ty)
  /-- A type variable. -/
  | var (param : TypeVar)
  /-- A wildcard argument with an upper bound and possibly a lower bound. -/
  | wildcard (upper : Ty) (lower : Option Ty)

namespace Ty

/-- The universal supertype. -/
def top : Ty := .named .top

/-- The wildcard that accepts every type. -/
def unbounded : Ty := .wildcard .top none

mutual
/-- Whether two types agree up to their variables, which are compared by the given relation. -/
def alike (vars : TypeVar → TypeVar → Bool) : Ty → Ty → Bool
  | .named first, .named second => first == second
  | .applied owner raw args, .applied owner' raw' args' =>
      raw.toNamed == raw' && alikeOption vars owner owner' && alikeList vars args args'
  | .array first, .array second => alike vars first second
  | .var first, .var second => vars first second
  | .wildcard upper lower, .wildcard upper' lower' =>
      alike vars upper upper' && alikeOption vars lower lower'
  | _, _ => false

/-- Whether two optional types are both absent or agree. -/
def alikeOption (vars : TypeVar → TypeVar → Bool) : Option Ty → Option Ty → Bool
  | none, none => true
  | some first, some second => alike vars first second
  | _, _ => false

/-- Whether two lists of types agree member by member. -/
def alikeList (vars : TypeVar → TypeVar → Bool) : List Ty → List Ty → Bool
  | [], [] => true
  | first :: rest, second :: rest' => alike vars first second && alikeList vars rest rest'
  | _, _ => false
end

/-- Whether two types describe the same type. -/
def same (s t : Ty) : Bool := alike (· == ·) s t

mutual
/-- A type agrees with itself. -/
theorem alike_refl {vars : TypeVar → TypeVar → Bool} (refl : ∀ param, vars param param = true) :
    (t : Ty) → alike vars t t = true
  | .named head => by simp only [alike]; exact beq_self_eq_true head.name
  | .applied owner raw args => by
      simp only [alike, alikeOption_refl refl owner, alikeList_refl refl args, Bool.and_true]
      exact beq_self_eq_true raw.name
  | .array component => by simp only [alike, alike_refl refl component]
  | .var param => by simp only [alike, refl param]
  | .wildcard upper lower => by
      simp only [alike, alike_refl refl upper, alikeOption_refl refl lower, Bool.and_true]

/-- An optional type agrees with itself. -/
theorem alikeOption_refl {vars : TypeVar → TypeVar → Bool}
    (refl : ∀ param, vars param param = true) : (t : Option Ty) → alikeOption vars t t = true
  | none => by simp only [alikeOption]
  | some t => by simp only [alikeOption, alike_refl refl t]

/-- A list of types agrees with itself. -/
theorem alikeList_refl {vars : TypeVar → TypeVar → Bool}
    (refl : ∀ param, vars param param = true) :
    (types : List Ty) → alikeList vars types types = true
  | [] => by simp only [alikeList]
  | first :: rest => by
      simp only [alikeList, alike_refl refl first, alikeList_refl refl rest, Bool.and_true]
end

mutual
/-- The answer of `alike`. Substitution puts one object in many places, so a type can be far larger
than the memory that holds it; two types that are one object agree without being compared. -/
def decideAlike (vars : TypeVar → TypeVar → Bool) (refl : ∀ param, vars param param = true)
    (s t : Ty) : { answer : Bool // answer = alike vars s t } :=
  let parts : Unit → { answer : Bool // answer = alike vars s t } := fun _ =>
    match s, t with
    | .applied owner raw args, .applied owner' raw' args' =>
        ⟨raw.toNamed == raw' && (decideAlikeOption vars refl owner owner').1 &&
            (decideAlikeList vars refl args args').1, by
          simp only [alike, (decideAlikeOption vars refl owner owner').2,
            (decideAlikeList vars refl args args').2]⟩
    | .array first, .array second =>
        ⟨(decideAlike vars refl first second).1, by
          simp only [alike, (decideAlike vars refl first second).2]⟩
    | .wildcard upper lower, .wildcard upper' lower' =>
        ⟨(decideAlike vars refl upper upper').1 && (decideAlikeOption vars refl lower lower').1, by
          simp only [alike, (decideAlike vars refl upper upper').2,
            (decideAlikeOption vars refl lower lower').2]⟩
    | s, t => ⟨alike vars s t, rfl⟩
  ⟨withPtrEq s t (fun _ => (parts ()).1) (fun h => by
      rw [(parts ()).2, h, alike_refl refl]), (parts ()).2⟩

/-- The answer of `alikeOption`. -/
def decideAlikeOption (vars : TypeVar → TypeVar → Bool) (refl : ∀ param, vars param param = true) :
    (s t : Option Ty) → { answer : Bool // answer = alikeOption vars s t }
  | some first, some second =>
      ⟨(decideAlike vars refl first second).1, by
        simp only [alikeOption, (decideAlike vars refl first second).2]⟩
  | none, t => ⟨alikeOption vars none t, rfl⟩
  | some _, none => ⟨false, rfl⟩

/-- The answer of `alikeList`. -/
def decideAlikeList (vars : TypeVar → TypeVar → Bool) (refl : ∀ param, vars param param = true) :
    (s t : List Ty) → { answer : Bool // answer = alikeList vars s t }
  | first :: rest, second :: rest' =>
      ⟨(decideAlike vars refl first second).1 && (decideAlikeList vars refl rest rest').1, by
        simp only [alikeList, (decideAlike vars refl first second).2,
          (decideAlikeList vars refl rest rest').2]⟩
  | [], t => ⟨alikeList vars [] t, rfl⟩
  | _ :: _, [] => ⟨false, rfl⟩
end

/-- Types are equal when they describe the same type. -/
instance : BEq Ty where
  beq s t := (decideAlike (· == ·) TypeVar.beq_self s t).1

/-- The `==` of types is `same`. -/
theorem beq_eq_same (s t : Ty) : (s == t) = same s t := (decideAlike _ TypeVar.beq_self s t).2

/-- The name behind a named type. -/
def asNamed? : Ty → Option Named
  | .named head => some head
  | _ => none

/-- Whether this is the universal supertype. -/
def isTop : Ty → Bool
  | .named head => head.isTop
  | _ => false

/-- Whether this is a primitive. -/
def isPrimitive : Ty → Bool
  | .named head => head.isPrimitive
  | _ => false

/-- Whether this is a type variable. -/
def isVar : Ty → Bool
  | .var _ => true
  | _ => false

/-- Whether this is a wildcard. -/
def isWildcard : Ty → Bool
  | .wildcard _ _ => true
  | _ => false

/-- Whether this is a generic type applied to arguments. -/
def isApplied : Ty → Bool
  | .applied _ _ _ => true
  | _ => false

/-- Keep the first of each group of equal types, in order. -/
def distinct (types : List Ty) : List Ty :=
  types.foldl (fun kept t => if kept.contains t then kept else kept ++ [t]) []

end Ty

end Nominal
