import Nominal.Proofs.Decision

/-!
# The course of a comparison

A comparison asks questions one after the other, and what it asks next depends on the answers so
far. `Plan` is such a course of questions, as a tree; other comparisons are among the questions.
`plan` gives the course of every comparison, and `perform_succ` says that a comparison does what its
plan says. So the calls that a comparison makes can be read off its plan, whether or not it ends.
-/

namespace Nominal

/-- A comparison of two types while some pairs are being decided. -/
structure Comparison where
  variance : Variance
  pending : List (Ty × TypeVar)
  receiver : Ty
  payload : Ty

/-- What is asked first, and how it goes on with the answer. -/
inductive Plan where
  /-- Nothing is left to ask. -/
  | answer (yes : Bool)
  /-- The supertypes of a type. -/
  | supertypes (t : Ty) (next : List Ty → Plan)
  /-- The erasure of a type. -/
  | erasure (t : Ty) (next : Ty → Plan)
  /-- The bounds of a variable. What they are is known, but its cell counts as read. -/
  | read (param : TypeVar) (next : Plan)
  /-- Whether a variable can be reached from another one through sole bounds. -/
  | walk (receiver payload : TypeVar) (next : Bool → Plan)
  /-- Nothing; an event is reported. -/
  | report (event : Event) (next : Plan)
  /-- Whether another comparison accepts. -/
  | compare (comparison : Comparison) (next : Bool → Plan)

namespace Plan

/-- One course after the other. -/
def bind : Plan → (Bool → Plan) → Plan
  | .answer yes, next => next yes
  | .supertypes t rest, next => .supertypes t fun members => (rest members).bind next
  | .erasure t rest, next => .erasure t fun erased => (rest erased).bind next
  | .read param rest, next => .read param (rest.bind next)
  | .walk receiver payload rest, next => .walk receiver payload fun yes => (rest yes).bind next
  | .report event rest, next => .report event (rest.bind next)
  | .compare comparison rest, next => .compare comparison fun yes => (rest yes).bind next

/-- The second course only after a yes. -/
def both (first second : Plan) : Plan :=
  first.bind fun yes => if yes = true then second else .answer false

/-- The second course only after a no. -/
def either (first second : Plan) : Plan :=
  first.bind fun yes => if yes = true then .answer true else second

/-- Search a list for a member that is accepted. -/
def any {α : Type} (check : α → Plan) : List α → Plan
  | [] => .answer false
  | first :: rest => (check first).either (any check rest)

/-- Go through a list as long as members are accepted. -/
def all {α : Type} (check : α → Plan) : List α → Plan
  | [] => .answer true
  | first :: rest => (check first).both (all check rest)

/-- A comparison as the last question. -/
def ask (variance : Variance) (pending : List (Ty × TypeVar)) (receiver payload : Ty) : Plan :=
  .compare ⟨variance, pending, receiver, payload⟩ .answer

/-- Compare arguments position by position, and the owners when both are there. -/
def arguments (pending : List (Ty × TypeVar)) (owner owner' : Option Ty) (args args' : List Ty) :
    Plan :=
  let owners := match owner, owner' with
    | some first, some second => ask .invariant pending first second
    | _, _ => .answer true
  owners.bind fun yes =>
    if yes && args.length == args'.length then
      all (fun pair => ask .invariant pending pair.1 pair.2) (args.zip args')
    else .answer false

/-- Look for a name among the erased supertypes. -/
def contains (head : Named) (payload : Ty) : Plan :=
  .supertypes payload (any fun t => .erasure t fun erased =>
    .answer (erased.asNamed?.any (· == head)))

/-- Look for an ancestor with arguments that match. -/
def ancestor (pending : List (Ty × TypeVar)) (owner : Option Ty) (raw : ClassName) (args : List Ty)
    (payload : Ty) : Plan :=
  .supertypes payload (any fun
    | .applied owner' raw' args' =>
        if raw'.toNamed == raw then arguments pending owner owner' args args' else .answer false
    | _ => .answer false)

end Plan

namespace Context

/-- Make a comparison. -/
def perform (context : Context) (fuel : Nat) (comparison : Comparison) : Query Bool :=
  context.compare fuel comparison.pending comparison.variance comparison.receiver
    comparison.payload

/-- Accept a raw payload. -/
def rawPlan (context : Context) (receiver payload : Ty) : Plan :=
  if context.env.isRaw payload then .report (.rawAccepted receiver payload) (.answer true)
  else .answer false

/-- The course of a comparison under covariance. -/
def covariantPlan (context : Context) (pending : List (Ty × TypeVar)) (receiver payload : Ty) :
    Plan :=
  match receiver, payload with
  | .wildcard upper lower, .wildcard upper' lower' =>
      (Plan.ask .covariant pending upper upper').both <|
        match lower, lower' with
        | some bound, some bound' => Plan.ask .covariant pending bound' bound
        | some _, none => .answer false
        | none, some _ => .answer upper.isTop
        | none, none => .answer true
  | .wildcard upper lower, _ =>
      (Plan.ask .covariant pending upper payload).both <|
        match lower with
        | some bound => Plan.ask .covariant pending payload bound
        | none => .answer true
  | .var first, .var second => .walk first second .answer
  | .var _, _ => .answer false
  | _, .var param =>
      if pending.any (fun pair => pair.1 == receiver && pair.2 == param) then .answer false
      else .read param <| Plan.any
        (Plan.ask .covariant ((receiver, param) :: pending) receiver) (context.heap.bounds param)
  | _, .wildcard _ _ => .answer false
  | .named head, _ => Plan.contains head payload
  | .applied owner raw args, .named _ =>
      (Plan.contains raw payload).both
        ((Plan.ancestor pending owner raw args payload).either (context.rawPlan receiver payload))
  | .applied owner raw args, .applied _ _ _ =>
      (Plan.contains raw payload).both (Plan.ancestor pending owner raw args payload)
  | .applied _ _ _, .array _ => .answer false
  | .array component, .array component' => Plan.ask .covariant pending component component'
  | .array _, _ => .answer false

/-- The course of a comparison under invariance. -/
def invariantPlan (pending : List (Ty × TypeVar)) (receiver payload : Ty) : Plan :=
  match receiver, payload with
  | .wildcard _ _, _ => Plan.ask .covariant pending receiver payload
  | _, .wildcard _ _ => Plan.ask .covariant pending receiver payload
  | .named first, .named second => .answer (first == second)
  | .applied owner raw args, .applied owner' raw' args' =>
      if raw.toNamed == raw' then Plan.arguments pending owner owner' args args' else .answer false
  | .var first, .var second => .answer (first == second)
  | .array component, .array component' => Plan.ask .invariant pending component component'
  | _, _ => .answer false

/-- The course of a comparison. -/
def plan (context : Context) (comparison : Comparison) : Plan :=
  match comparison.variance with
  | .covariant =>
      context.covariantPlan comparison.pending comparison.receiver comparison.payload
  | .invariant => invariantPlan comparison.pending comparison.receiver comparison.payload

end Context

namespace Plan

variable {context : Context}

/-- Follow a course. -/
def run (context : Context) (fuel : Nat) : Plan → Query Bool
  | .answer yes => pure yes
  | .supertypes t next =>
      context.supertypes fuel t >>= fun members => run context fuel (next members)
  | .erasure t next => erase context.heap fuel t >>= fun erased => run context fuel (next erased)
  | .read param next => Query.bounds context.heap param >>= fun _ => run context fuel next
  | .walk receiver payload next =>
      variableAccepts context.heap receiver fuel [] payload >>= fun yes =>
        run context fuel (next yes)
  | .report event next => Query.report event >>= fun _ => run context fuel next
  | .compare comparison next =>
      context.perform fuel comparison >>= fun yes => run context fuel (next yes)

/-! ## Plans are followed -/

/-- Two courses are followed one after the other. -/
theorem run_bind (fuel : Nat) (first : Plan) (next : Bool → Plan) :
    (first.bind next).run context fuel =
      first.run context fuel >>= fun yes => (next yes).run context fuel := by
  induction first with
  | answer yes => simp only [bind, run, pure_bind]
  | supertypes t rest ih => simp only [bind, run, bind_assoc, ih]
  | erasure t rest ih => simp only [bind, run, bind_assoc, ih]
  | read param rest ih => simp only [bind, run, bind_assoc, ih]
  | walk receiver payload rest ih => simp only [bind, run, bind_assoc, ih]
  | report event rest ih => simp only [bind, run, bind_assoc, ih]
  | compare comparison rest ih => simp only [bind, run, bind_assoc, ih]

/-- A second course is followed only after a yes. -/
theorem run_both (fuel : Nat) (first second : Plan) :
    (first.both second).run context fuel =
      first.run context fuel >>= fun yes =>
        if yes = true then second.run context fuel else pure false := by
  rw [both, run_bind]
  congr 1
  funext yes
  cases yes <;> rfl

/-- A second course is followed only after a no. -/
theorem run_either (fuel : Nat) (first second : Plan) :
    (first.either second).run context fuel =
      first.run context fuel >>= fun yes =>
        if yes = true then pure true else second.run context fuel := by
  rw [either, run_bind]
  congr 1
  funext yes
  cases yes <;> rfl

/-- A list is searched. -/
theorem run_any {α : Type} (fuel : Nat) (check : α → Plan) (list : List α) :
    (any check list).run context fuel =
      list.anyM fun member => (check member).run context fuel := by
  induction list with
  | nil => rfl
  | cons first rest ih => rw [any, run_either, ih, List.anyM_cons]

/-- A list is gone through. -/
theorem run_all {α : Type} (fuel : Nat) (check : α → Plan) (list : List α) :
    (all check list).run context fuel =
      list.allM fun member => (check member).run context fuel := by
  induction list with
  | nil => rfl
  | cons first rest ih => rw [all, run_both, ih, List.allM_cons]

/-- The last question gives the answer. -/
theorem run_ask (fuel : Nat) (variance : Variance) (pending : List (Ty × TypeVar))
    (receiver payload : Ty) :
    (ask variance pending receiver payload).run context fuel =
      context.compare fuel pending variance receiver payload := by
  rw [ask, run]
  exact bind_pure _

/-- Arguments are compared. -/
theorem run_arguments (fuel : Nat) (pending : List (Ty × TypeVar)) (owner owner' : Option Ty)
    (args args' : List Ty) :
    (arguments pending owner owner' args args').run context fuel =
      sameArguments (context.invariant fuel pending) owner owner' args args' := by
  have hpairs : (all (fun pair : Ty × Ty => ask .invariant pending pair.1 pair.2)
      (args.zip args')).run context fuel =
        (args.zip args').allM fun pair => context.invariant fuel pending pair.1 pair.2 := by
    rw [run_all]
    simp only [run_ask]
    rfl
  have hrest (yes : Bool) :
      (if (yes && args.length == args'.length) = true then
        all (fun pair : Ty × Ty => ask .invariant pending pair.1 pair.2) (args.zip args')
        else .answer false).run context fuel =
      if (yes && args.length == args'.length) = true then
        (args.zip args').allM fun pair => context.invariant fuel pending pair.1 pair.2
      else pure false := by
    split
    · exact hpairs
    · rfl
  unfold arguments sameArguments
  rw [run_bind]
  simp only [hrest]
  cases owner with
  | none => rfl
  | some outer =>
      cases owner' with
      | none => rfl
      | some outer' =>
          show (ask .invariant pending outer outer').run context fuel >>= _ = _
          rw [run_ask]
          rfl

/-- A name is looked for. -/
theorem run_contains (fuel : Nat) (head : Named) (payload : Ty) :
    (contains head payload).run context fuel = context.nominallyContains fuel head payload := by
  unfold contains Context.nominallyContains
  rw [run]
  simp only [run_any, run, erasedNamed?, bind_assoc, pure_bind]

/-- An ancestor is looked for. -/
theorem run_ancestor (fuel : Nat) (pending : List (Ty × TypeVar)) (owner : Option Ty)
    (raw : ClassName) (args : List Ty) (payload : Ty) :
    (ancestor pending owner raw args payload).run context fuel =
      context.hasMatchingAncestor fuel (context.invariant fuel pending) owner raw args payload := by
  unfold ancestor Context.hasMatchingAncestor
  rw [run]
  simp only [run_any]
  congr 1
  funext members
  congr 1
  funext member
  cases member with
  | applied owner' raw' args' =>
      show (if raw'.toNamed == raw then _ else _ : Plan).run context fuel =
        if raw'.toNamed == raw then _ else _
      split
      · exact run_arguments fuel pending owner owner' args args'
      · rfl
  | named | array | var | wildcard => rfl

end Plan

namespace Context

variable {context : Context}

/-- A raw payload is accepted. -/
theorem run_rawPlan (fuel : Nat) (receiver payload : Ty) :
    (context.rawPlan receiver payload).run context fuel = context.acceptsRaw receiver payload := by
  unfold rawPlan acceptsRaw
  split <;> rfl

/-- Under covariance a comparison follows its plan. -/
theorem covariant_succ (fuel : Nat) (pending : List (Ty × TypeVar)) (receiver payload : Ty) :
    context.covariant (fuel + 1) pending receiver payload =
      (context.covariantPlan pending receiver payload).run context fuel := by
  have hwiden (hvar : receiver.isVar = false) (hwild : receiver.isWildcard = false)
      (param : TypeVar) : context.covariant (fuel + 1) pending receiver (.var param) =
        (if pending.any (fun pair => pair.1 == receiver && pair.2 == param) then Plan.answer false
          else .read param <| Plan.any (Plan.ask .covariant ((receiver, param) :: pending) receiver)
            (context.heap.bounds param)).run context fuel := by
    rw [covariant_var hvar hwild]
    split
    · rfl
    · rw [Plan.run, Plan.run_any]
      simp only [Plan.run_ask]
      rfl
  have hwildcard (upper : Ty) (lower : Option Ty) (hwild : payload.isWildcard = false) :
      context.covariant (fuel + 1) pending (.wildcard upper lower) payload =
        ((Plan.ask .covariant pending upper payload).both <|
          match lower with
          | some bound => Plan.ask .covariant pending payload bound
          | none => .answer true).run context fuel := by
    rw [Plan.run_both, Plan.run_ask]
    cases lower with
    | none => exact covariant_extends hwild fuel pending
    | some bound =>
        rw [covariant_super hwild, Plan.run_ask]
        rfl
  cases receiver with
  | named head =>
      cases payload with
      | named | applied | array => exact (Plan.run_contains fuel head _).symm
      | var param => exact hwiden rfl rfl param
      | wildcard => rfl
  | applied owner raw args =>
      cases payload with
      | named head =>
          show _ = ((Plan.contains raw _).both (Plan.either _ _)).run context fuel
          rw [Plan.run_both, Plan.run_contains, Plan.run_either, Plan.run_ancestor, run_rawPlan]
          rfl
      | applied owner' raw' args' =>
          show _ = ((Plan.contains raw _).both _).run context fuel
          rw [Plan.run_both, Plan.run_contains, Plan.run_ancestor]
          rfl
      | array | wildcard => rfl
      | var param => exact hwiden rfl rfl param
  | array component =>
      cases payload with
      | array component' => exact (Plan.run_ask fuel .covariant pending component component').symm
      | named | applied | wildcard => rfl
      | var param => exact hwiden rfl rfl param
  | var param =>
      cases payload with
      | var param' =>
          show _ = variableAccepts context.heap param fuel [] param' >>= pure
          rw [bind_pure]
          rfl
      | named | applied | array | wildcard => rfl
  | wildcard upper lower =>
      cases payload with
      | wildcard upper' lower' =>
          show _ = ((Plan.ask .covariant pending upper upper').both _).run context fuel
          rw [Plan.run_both, Plan.run_ask]
          cases lower with
          | none => cases lower' <;> rfl
          | some bound =>
              cases lower' with
              | none => rfl
              | some bound' =>
                  rw [Plan.run_ask]
                  rfl
      | named | applied | array | var => exact hwildcard upper lower rfl

/-- Under invariance a comparison follows its plan. -/
theorem invariant_succ (fuel : Nat) (pending : List (Ty × TypeVar)) (receiver payload : Ty) :
    context.invariant (fuel + 1) pending receiver payload =
      (invariantPlan pending receiver payload).run context fuel := by
  cases hwild : receiver.isWildcard || payload.isWildcard with
  | true =>
      have hplan : invariantPlan pending receiver payload =
          Plan.ask .covariant pending receiver payload := by
        cases receiver <;> cases payload <;> first | rfl | cases hwild
      rw [invariant_wildcard hwild, hplan, Plan.run_ask]
      rfl
  | false =>
      cases receiver with
      | named | var => cases payload <;> first | rfl | cases hwild
      | applied owner raw args =>
          cases payload with
          | applied owner' raw' args' =>
              show (if raw.toNamed == raw' then _ else _) =
                (if raw.toNamed == raw' then _ else _ : Plan).run _ fuel
              split
              · exact (Plan.run_arguments fuel pending owner owner' args args').symm
              · rfl
          | named | array | var => rfl
          | wildcard => cases hwild
      | array component =>
          cases payload with
          | array component' =>
              exact (Plan.run_ask fuel .invariant pending component component').symm
          | named | applied | var => rfl
          | wildcard => cases hwild
      | wildcard => cases hwild

/-- A comparison with one step more follows its plan. -/
theorem perform_succ (fuel : Nat) (comparison : Comparison) :
    context.perform (fuel + 1) comparison = (context.plan comparison).run context fuel := by
  obtain ⟨variance, pending, receiver, payload⟩ := comparison
  cases variance with
  | covariant => exact covariant_succ fuel pending receiver payload
  | invariant => exact invariant_succ fuel pending receiver payload

end Context

end Nominal
