import Nominal.Assignability

/-!
# Scripts

A script builds types, declares classes and asks questions about them, one step after another.
Types are written as expressions; registers keep them from step to step.
-/

namespace Nominal.Script

/-- A part of a type. -/
inductive Selector where
  | component
  | owner
  | raw
  | arg (index : Nat)
  | upper
  | lower
  | bound (index : Nat)

/-- An expression for a type. -/
inductive Expr where
  /-- The wildcard that accepts every type. -/
  | unbounded
  /-- A name as the environment declares it, or a class of that name. -/
  | name (name : String)
  /-- A name with a given kind and arity. -/
  | named (head : Named)
  | applied (owner : Option Expr) (raw : Expr) (args : List Expr)
  | array (component : Expr)
  /-- A new variable without bounds. -/
  | fresh (name declaration : String)
  /-- A new variable with bounds. -/
  | bounded (name declaration : String) (bounds : List Expr)
  | wildcard (uppers lowers : List Expr)
  /-- The type in a register. -/
  | register (name : String)
  /-- A parameter of a declaration. -/
  | param (declaration : String) (index : Nat)
  /-- A parameter of the declaration that is being written. -/
  | own (index : Nat)
  /-- A part of a type. -/
  | select (base : Expr) (path : List Selector)

/-- The parameters of a declaration. -/
inductive Params where
  /-- New variables of the declaration. -/
  | names (names : List String)
  /-- Variables given by expressions. -/
  | given (params : List Expr)

/-- A declaration as it is written. -/
structure DeclarationExpr where
  head : Named
  params : Params
  /-- The bounds of each parameter, where it is to be bound. -/
  bounds : List (Option (List Expr))
  superclass : Option Expr
  interfaces : List Expr

/-- A test of the members of a closure. -/
inductive Test where
  | interfaceLike
  | classLike
  | notTop
  | applied
  | raw
  /-- True on every other call, from the first on. -/
  | odd
  | never

/-- How a script overrides the default options of a comparison. -/
structure Overrides where
  variance : Option Variance
  boxing : Option Bool

/-- A step that works on types and registers. -/
inductive Ask where
  | store (register : String) (type : Expr)
  | drop (register : String)
  | bind (type : Expr) (bounds : List Expr)
  | bounds (type : Expr) (equals : List Expr)
  | view (type : Expr)
  | profile (type : Expr)
  | equal (first second : Expr)
  | distinct (types : List Expr)
  | substitute (map : List (Expr × Expr)) (type : Expr)
  | substitutionFor (declaration : String) (args : List Expr) (type : Option Expr)
  | erasure (type : Expr)
  | canonical (type : Expr)
  | box (type : Expr)
  | boxed (type : Expr)
  | declaration (name : String)
  | declarationOf (type : Expr)
  | direct (type : Expr)
  | supertypes (type : Expr)
  | isSupertype (above below : Expr)
  | assignable (receiver payload : Expr) (overrides : Overrides)
  | matrix (types : List Expr) (overrides : Overrides)
  | mostSpecialized (types : List Expr) (interfaces : Bool)
  | closureWhere (type : Expr) (test : Test)
  | resolver
  | clear

/-- A step that works on types, and whether its answer shows the bounds of variables. -/
structure Request where
  ask : Ask
  full : Bool

/-- Declarations that come before those of the table, each under a name, and other interfaces of
arrays. -/
structure EnvExpr where
  declarations : List (String × DeclarationExpr)
  cloneable : Option Expr
  serializable : Option Expr

/-- What a series of requests runs on. -/
structure Setup where
  /-- Settings as text. -/
  settings : Option String
  /-- Whether closures are memoized, where there are no settings. -/
  memoize : Option Bool
  env : Option EnvExpr

/-- A step of a script. -/
inductive Step where
  | request (request : Request)
  | add (declaration : DeclarationExpr) (full : Bool)
  | upsert (declaration : DeclarationExpr) (full : Bool)
  | remove (name : String) (full : Bool)
  | table
  | lookup (name : String) (full : Bool)
  /-- Replace the boxing table. -/
  | boxing (base : Boxing) (entries : List (String × Expr))
  /-- Requests that share one memo. -/
  | series (setup : Setup) (requests : List Request)
  /-- Requests that share one memo, with the events that they report. -/
  | traced (setup : Setup) (requests : List Request)

end Nominal.Script
