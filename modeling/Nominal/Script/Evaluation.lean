import Nominal.Script.Answer
import Nominal.Script.Syntax

/-!
# Evaluation of type expressions

Evaluating an expression may declare variables and settle the bounds that it reads, also when it
fails later on. Parts are evaluated from left to right and the first failure wins.
-/

namespace Nominal.Script

/-- A computation on a heap that may fail. What it did to the heap stays. -/
abbrev Eval (α : Type) := ExceptT Failure (StateM Heap) α

/-- What expressions may mention. -/
structure Scope where
  find? : String → Option Declaration
  registers : List (String × Ty)
  own : List TypeVar

namespace Eval

/-- Turn a refusal into a failure. -/
def ofExcept {α : Type} : Except Refusal α → Eval α
  | .ok value => return value
  | .error reason => throw (.refused reason)

/-- The value that must be there. -/
def require {α : Type} (reason : String) : Option α → Eval α
  | some value => return value
  | none => throw (.malformed reason)

/-- Read the bounds of a variable. -/
def readBounds (param : TypeVar) : Eval (List Ty) := do
  modify (fun heap => heap.settle param.cell)
  return (← get).bounds param

/-- Declare a variable. -/
def declare (name declaration : String) : Eval TypeVar := do
  let (param, heap) := (← get).declare name declaration
  set heap
  return param

/-- Bind a variable. -/
def bind (param : TypeVar) (bounds : List Ty) : Eval Unit := do
  set (← ofExcept ((← get).bind param bounds))

/-- The name behind a type that must be named. -/
def named (t : Ty) : Eval Named := require "not a named type" t.asNamed?

/-- The variable behind a type that must be one. -/
def typeVar (t : Ty) : Eval TypeVar :=
  match t with
  | .var param => return param
  | _ => throw (.malformed "not a type variable")

end Eval

/-- Take a part of a type. -/
def Selector.eval (selector : Selector) (t : Ty) : Eval Ty :=
  let absent : Eval Ty := throw (.malformed "no such part")
  match selector, t with
  | .component, .array inner => return inner
  | .owner, .applied (some enclosing) _ _ => return enclosing
  | .raw, .applied _ head _ => return .named head
  | .arg index, .applied _ _ args => Eval.require "no such argument" args[index]?
  | .upper, .wildcard above _ => return above
  | .lower, .wildcard _ (some below) => return below
  | .bound index, .var param => do
      Eval.require "no such bound" (← Eval.readBounds param)[index]?
  | _, _ => absent

mutual
/-- The type of an expression. -/
def Expr.eval (scope : Scope) : Expr → Eval Ty
  | .unbounded => return .unbounded
  | .name label =>
      return .named (((scope.find? label).map Declaration.head).getD ⟨label, .classType, 0⟩)
  | .named head => return .named head
  | .applied owner raw args => do
      let owner ← Expr.evalOption scope owner
      let raw ← Eval.named (← Expr.eval scope raw)
      let args ← Expr.evalList scope args
      Eval.ofExcept (Ty.applied? owner raw args)
  | .array inner => return .array (← Expr.eval scope inner)
  | .fresh label declaration => return .var (← Eval.declare label declaration)
  | .bounded label declaration bounds => do
      let bounds ← Expr.evalList scope bounds
      let made ← Eval.declare label declaration
      Eval.bind made bounds
      return .var made
  | .wildcard uppers lowers => do
      let uppers ← Expr.evalList scope uppers
      let lowers ← Expr.evalList scope lowers
      Eval.ofExcept (Ty.wildcard? uppers lowers)
  | .register label => Eval.require "no such register" (scope.registers.lookup label)
  | .param declaration index => do
      let declaration ← Eval.require "no such declaration" (scope.find? declaration)
      return .var (← Eval.require "no such parameter" declaration.params[index]?)
  | .own index => return .var (← Eval.require "no such parameter" scope.own[index]?)
  | .select base path => do
      let t ← Expr.eval scope base
      path.foldlM (fun t selector => selector.eval t) t

/-- The type of an optional expression. -/
def Expr.evalOption (scope : Scope) : Option Expr → Eval (Option Ty)
  | none => return none
  | some expr => return some (← Expr.eval scope expr)

/-- The types of several expressions. -/
def Expr.evalList (scope : Scope) : List Expr → Eval (List Ty)
  | [] => return []
  | first :: rest => do
      let t ← Expr.eval scope first
      return t :: (← Expr.evalList scope rest)
end

end Nominal.Script
