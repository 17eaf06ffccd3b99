import Nominal.Settings.Load
import Nominal.Type.Tree

/-!
# Answers

The answer to a step of a script.
-/

namespace Nominal.Script

/-- Why a step has no answer. -/
inductive Failure where
  | refused (reason : Refusal)
  | settings (error : Settings.Error)
  /-- The step asks for something that is not there. -/
  | malformed (reason : String)

/-- A type in an answer, as text or with the bounds of its variables. -/
inductive TypeView where
  | text (display : String)
  | tree (tree : TypeTree)

/-- What a type shows of its own form. -/
inductive Form where
  | named (head : Named)
  | applied (owner : Option String) (raw : String) (args : List String)
  | array (component : String)
  | var (name declaration : String)
  | wildcard (uppers lowers : List String) (unbounded : Bool)

/-- What there is to know about a type. -/
structure Profile where
  display : String
  inspect : String
  top : Bool
  primitive : Bool
  asNamed : Option String
  asApplied : Option String
  interfaceLike : Bool
  erasure : String
  erasedNamed : Option String
  form : Form

/-- What there is to know about a declaration. -/
structure Description where
  head : Named
  params : List TypeView
  superclass : Option TypeView
  interfaces : List TypeView
  declared : List TypeView

/-- The answer to a step. -/
inductive Answer where
  | failed (failure : Failure)
  | done
  | flag (value : Bool)
  | count (value : Nat)
  | type (view : TypeView)
  | maybeType (view : Option TypeView)
  | types (views : List TypeView)
  | bounds (views : List TypeView) (inspect : String) (equal : Bool)
  | profile (profile : Profile)
  | equality (equal equalHash : Bool)
  | substitution (map : List (TypeView × TypeView)) (applied : Option TypeView)
  | canonical (view : TypeView) (raw : Bool)
  | description (description : Option Description)
  | rows (rows : List String)
  | kept (views : List TypeView) (calls : Nat)
  | resolver (memoize : Bool) (cached : Nat) (inspect : String)
  | table (names : List String)
  | lookup (view : Option TypeView)
  | series (answers : List Answer)
  | traced (answers : List Answer) (events : List Event)

end Nominal.Script
