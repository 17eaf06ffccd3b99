import Nominal.Boxing
import Nominal.Canonical
import Nominal.Supertypes

/-!
# Assignability

A receiver accepts a payload when a value of the payload's type may be used where the receiver's
type is expected. Under covariance a name accepts whatever has it among its erased supertypes, an
applied type accepts what has an equal application among its supertypes, and arrays follow their
components. Arguments are compared under invariance, except that a wildcard accepts what lies
between its bounds. A variable is accepted where one of its bounds is; the pairs of receiver and
variable that are being decided are remembered, and meeting one again answers no.
-/

namespace Nominal

/-- The rules of a comparison. -/
inductive Variance where
  /-- The same type, except through wildcards. -/
  | invariant
  /-- Subtypes are accepted too. -/
  | covariant
  deriving DecidableEq

/-- How a comparison is made at its top. -/
structure AssignOptions where
  variance : Variance
  /-- Whether primitives are boxed first. -/
  boxing : Bool

/-- Covariant, with boxing. -/
def AssignOptions.standard : AssignOptions := ⟨.covariant, true⟩

/-- Whether `receiver` is `payload` or can be reached from it through sole bounds that are
variables. -/
def variableAccepts (heap : Heap) (receiver : TypeVar) :
    Nat → List TypeVar → TypeVar → Query Bool
  | 0, _, _ => .exhausted
  | fuel + 1, seen, payload =>
      if payload == receiver then return true
      else if seen.contains payload then return false
      else do
        match ← Query.bounds heap payload with
        | [.var next] => variableAccepts heap receiver fuel (payload :: seen) next
        | _ => return false

/-- Compare arguments position by position, and the owners when both are there. -/
def sameArguments (check : Ty → Ty → Query Bool) (owner owner' : Option Ty)
    (args args' : List Ty) : Query Bool := do
  let owners ← match owner, owner' with
    | some first, some second => check first second
    | _, _ => pure true
  if owners && args.length == args'.length then
    (args.zip args').allM (fun pair => check pair.1 pair.2)
  else return false

namespace Context

/-- Whether some supertype of the payload erases to the receiver. -/
def nominallyContains (context : Context) (fuel : Nat) (receiver : Named) (payload : Ty) :
    Query Bool := do
  (← context.supertypes fuel payload).anyM fun t =>
    return (← erasedNamed? context.heap fuel t).any (· == receiver)

/-- Whether some supertype of the payload applies the same name to arguments that match. -/
def hasMatchingAncestor (context : Context) (fuel : Nat) (check : Ty → Ty → Query Bool)
    (owner : Option Ty) (raw : ClassName) (args : List Ty) (payload : Ty) : Query Bool := do
  (← context.supertypes fuel payload).anyM fun
    | .applied owner' raw' args' =>
        if raw'.toNamed == raw then sameArguments check owner owner' args args' else return false
    | _ => return false

/-- Accept a raw payload whose erasure fits. -/
def acceptsRaw (context : Context) (receiver payload : Ty) : Query Bool := do
  if context.env.isRaw payload then
    Query.report (.rawAccepted receiver payload)
    return true
  else return false

mutual
/-- Whether a receiver accepts a payload under covariance, while the pairs in `pending` are being
decided. -/
def covariant (context : Context) :
    Nat → List (Ty × TypeVar) → Ty → Ty → Query Bool
  | 0, _, _, _ => .exhausted
  | fuel + 1, pending, receiver, payload =>
      match receiver, payload with
      | .wildcard upper lower, .wildcard upper' lower' => do
          if ← covariant context fuel pending upper upper' then
            match lower, lower' with
            | some bound, some bound' => covariant context fuel pending bound' bound
            | some _, none => return false
            | none, some _ => return upper.isTop
            | none, none => return true
          else return false
      | .wildcard upper lower, _ => do
          if ← covariant context fuel pending upper payload then
            match lower with
            | some bound => covariant context fuel pending payload bound
            | none => return true
          else return false
      | .var first, .var second => variableAccepts context.heap first fuel [] second
      | .var _, _ => return false
      | _, .var param =>
          if pending.any (fun pair => pair.1 == receiver && pair.2 == param) then return false
          else do
            (← Query.bounds context.heap param).anyM
              (covariant context fuel ((receiver, param) :: pending) receiver)
      | _, .wildcard _ _ => return false
      | .named head, _ => context.nominallyContains fuel head payload
      | .applied owner raw args, .named _ => do
          if ← context.nominallyContains fuel raw payload then
            if ← context.hasMatchingAncestor fuel (invariant context fuel pending)
                owner raw args payload then
              return true
            else context.acceptsRaw receiver payload
          else return false
      | .applied owner raw args, .applied _ _ _ => do
          if ← context.nominallyContains fuel raw payload then
            context.hasMatchingAncestor fuel (invariant context fuel pending)
              owner raw args payload
          else return false
      | .applied _ _ _, .array _ => return false
      | .array component, .array component' =>
          covariant context fuel pending component component'
      | .array _, _ => return false

/-- Whether a receiver accepts a payload under invariance, while the pairs in `pending` are being
decided. -/
def invariant (context : Context) :
    Nat → List (Ty × TypeVar) → Ty → Ty → Query Bool
  | 0, _, _, _ => .exhausted
  | fuel + 1, pending, receiver, payload =>
      match receiver, payload with
      | .wildcard _ _, _ => covariant context fuel pending receiver payload
      | _, .wildcard _ _ => covariant context fuel pending receiver payload
      | .named first, .named second => return first == second
      | .applied owner raw args, .applied owner' raw' args' =>
          if raw.toNamed == raw' then
            sameArguments (invariant context fuel pending) owner owner' args args'
          else return false
      | .var first, .var second => return first == second
      | .array component, .array component' =>
          invariant context fuel pending component component'
      | _, _ => return false
end

/-- Whether a receiver accepts a payload. Boxing applies to the two types as a whole, and to both
alike. -/
def isAssignable (context : Context) (fuel : Nat) (boxing : Boxing) (options : AssignOptions)
    (receiver payload : Ty) : Query Bool :=
  let prepare := fun t => if options.boxing then boxing.box t else t
  match options.variance with
  | .covariant => context.covariant fuel [] (prepare receiver) (prepare payload)
  | .invariant => context.invariant fuel [] (prepare receiver) (prepare payload)

end Context

end Nominal
