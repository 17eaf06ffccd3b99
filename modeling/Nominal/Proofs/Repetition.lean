import Nominal.Proofs.Decision

/-!
# Queries that can be repeated

Where closures are not memoized, a query finds the same however often and from whatever trail it is
asked. `Repeated` says this with the steps counted: an answer that was given once is given again
once enough steps are allowed. Unlike for memoized closures, equal types may differ in their bounds
and kinds.
-/

namespace Nominal

namespace Query

variable {α β : Type}

/-- Whenever the query answers, the other one answers the same from every trail, once it may take
enough steps. -/
def Repeated (query : Query α) (other : Nat → Query α) : Prop :=
  ∀ trail found after, query trail = some (found, after) →
    Halts (fun _ => True) other fun again => again = found

namespace Repeated

/-- A value is given again. -/
theorem pure (found : α) : Repeated (Pure.pure found) fun _ => Pure.pure found := by
  intro trail found' after hrun
  cases hrun
  exact .pure rfl

/-- What answers nothing need not be repeated. -/
theorem exhausted {other : Nat → Query α} : Repeated Query.exhausted other := by
  intro trail found after hrun
  cases hrun

/-- An oblivious query whose answers stay when it may take more steps can be repeated. -/
theorem of_mono {query : Nat → Query α} (hquery : ∀ fuel, (query fuel).Oblivious)
    (hmore : ∀ {fewer more}, fewer ≤ more → (query fewer).AnsweredBy (query more)) (fuel : Nat) :
    Repeated (query fuel) query := by
  intro trail found after hrun
  exact .of_oblivious (hquery fuel) (fun _ => hmore) ((hquery fuel).answer_eq hrun).1

/-- Queries that can be repeated can be repeated one after the other. -/
theorem bind {query : Query α} {other : Nat → Query α} {next : α → Query β}
    {next' : Nat → α → Query β} (hquery : Repeated query other)
    (hnext : ∀ found, Repeated (next found) fun fuel => next' fuel found) :
    Repeated (query >>= next) fun fuel => other fuel >>= next' fuel := by
  intro trail last after hrun
  obtain ⟨found, between, hfound, hlast⟩ := bind_some hrun
  refine (hquery trail found between hfound).bind fun again heq => ?_
  subst heq
  exact hnext again between last after hlast

/-- The other query may spend a step before it starts. -/
theorem step {query : Query α} {other : Nat → Query α}
    (h : Repeated query fun fuel => other (fuel + 1)) : Repeated query other := by
  intro trail found after hrun
  exact (h trail found after hrun).step

variable {check : α → Query Bool} {check' : Nat → α → Query Bool}

/-- A search can be repeated if its checks can. -/
theorem anyM (hcheck : ∀ member, Repeated (check member) fun fuel => check' fuel member)
    (list : List α) : Repeated (list.anyM check) fun fuel => list.anyM (check' fuel) := by
  induction list with
  | nil => exact pure false
  | cons first rest ih =>
      simp only [List.anyM_cons]
      refine (hcheck first).bind fun yes => ?_
      cases yes with
      | true => exact pure true
      | false => exact ih

/-- Going through a list can be repeated if the checks can. -/
theorem allM (hcheck : ∀ member, Repeated (check member) fun fuel => check' fuel member)
    (list : List α) : Repeated (list.allM check) fun fuel => list.allM (check' fuel) := by
  induction list with
  | nil => exact pure true
  | cons first rest ih =>
      simp only [List.allM_cons]
      refine (hcheck first).bind fun yes => ?_
      cases yes with
      | true => exact ih
      | false => exact pure false

variable {query query' : Query Bool} {other other' : Nat → Query Bool}

/-- Asking a second question only after a yes can be repeated. -/
theorem and (hquery : Repeated query other) (hquery' : Repeated query' other') :
    Repeated (query >>= fun yes => if yes = true then query' else Pure.pure false)
      fun fuel =>
        other fuel >>= fun yes => if yes = true then other' fuel else Pure.pure false := by
  refine hquery.bind fun yes => ?_
  cases yes with
  | true => exact hquery'
  | false => exact pure false

/-- Asking a second question only after a no can be repeated. -/
theorem or (hquery : Repeated query other) (hquery' : Repeated query' other') :
    Repeated (query >>= fun yes => if yes = true then Pure.pure true else query')
      fun fuel => other fuel >>= fun yes => if yes = true then Pure.pure true else other' fuel := by
  refine hquery.bind fun yes => ?_
  cases yes with
  | true => exact pure true
  | false => exact hquery'

/-- Reading bounds can be repeated. -/
theorem bounds (heap : Heap) (param : TypeVar) :
    Repeated (Query.bounds heap param) fun _ => Query.bounds heap param :=
  of_mono (fun _ => .bounds heap param) (fun _ => .refl _) 0

end Repeated

end Query

open Query

/-- Walks along sole bounds can be repeated. -/
theorem variableAccepts_repeated (heap : Heap) (receiver : TypeVar) (fuel : Nat)
    (seen : List TypeVar) (payload : TypeVar) :
    Repeated (variableAccepts heap receiver fuel seen payload)
      fun more => variableAccepts heap receiver more seen payload := by
  induction fuel generalizing seen payload with
  | zero => exact .exhausted
  | succ fuel ih =>
      refine .step ?_
      simp only [variableAccepts]
      split
      · exact .pure true
      split
      · exact .pure false
      refine (Repeated.bounds heap payload).bind fun bounds => ?_
      split
      · exact ih _ _
      · exact .pure false

/-- The name that a type erases to can be asked for again. -/
theorem erasedNamed_repeated (heap : Heap) (fuel : Nat) (t : Ty) :
    Repeated (erasedNamed? heap fuel t) fun more => erasedNamed? heap more t :=
  (Repeated.of_mono (fun fuel => erase_along_oblivious heap fuel [] t)
    (erase_along_mono heap [] t) fuel).bind fun _ => .pure _

/-- Comparing arguments can be repeated if the checks can. -/
theorem sameArguments_repeated {check : Ty → Ty → Query Bool} {check' : Nat → Ty → Ty → Query Bool}
    (hcheck : ∀ s t, Repeated (check s t) fun more => check' more s t)
    (owner owner' : Option Ty) (args args' : List Ty) :
    Repeated (sameArguments check owner owner' args args')
      fun more => sameArguments (check' more) owner owner' args args' := by
  have hlists (yes : Bool) : Repeated
      (if yes && args.length == args'.length then
        (args.zip args').allM (fun pair => check pair.1 pair.2) else pure false)
      (fun more => if yes && args.length == args'.length then
        (args.zip args').allM (fun pair => check' more pair.1 pair.2) else pure false) := by
    split
    · exact .allM (fun pair : Ty × Ty => hcheck pair.1 pair.2) _
    · exact .pure false
  cases owner with
  | none => exact hlists true
  | some outer =>
      cases owner' with
      | none => exact hlists true
      | some outer' => exact (hcheck outer outer').bind hlists

namespace Context

variable {context : Context}

/-- Closures that are not memoized can be asked for again. -/
theorem supertypes_repeated (hmemoize : context.memoize = false) (fuel : Nat) (t : Ty) :
    Repeated (context.supertypes fuel t) fun more => context.supertypes more t := by
  simp only [supertypes, hmemoize, Bool.false_eq_true, if_false]
  exact .of_mono (fun fuel => closure_oblivious fuel t) (closure_mono t) fuel

/-- Nominal containment can be asked for again where closures are not memoized. -/
theorem nominallyContains_repeated (hmemoize : context.memoize = false) (fuel : Nat) (head : Named)
    (t : Ty) :
    Repeated (context.nominallyContains fuel head t)
      fun more => context.nominallyContains more head t :=
  (supertypes_repeated hmemoize fuel t).bind fun members =>
    .anyM (fun member => (erasedNamed_repeated context.heap fuel member).bind fun _ => .pure _)
      members

/-- The search for an ancestor can be repeated where closures are not memoized, if the checks
can. -/
theorem hasMatchingAncestor_repeated (hmemoize : context.memoize = false)
    {check : Ty → Ty → Query Bool} {check' : Nat → Ty → Ty → Query Bool}
    (hcheck : ∀ s t, Repeated (check s t) fun more => check' more s t) (fuel : Nat)
    (owner : Option Ty) (raw : ClassName) (args : List Ty) (payload : Ty) :
    Repeated (context.hasMatchingAncestor fuel check owner raw args payload)
      fun more => context.hasMatchingAncestor more (check' more) owner raw args payload := by
  refine (supertypes_repeated hmemoize fuel payload).bind fun members => .anyM (fun member => ?_) _
  cases member with
  | applied owner' raw' args' =>
      dsimp only
      split
      · exact sameArguments_repeated hcheck owner owner' args args'
      · exact .pure false
  | named | array | var | wildcard => exact .pure false

/-- Whether a raw payload is accepted can be asked again. -/
theorem acceptsRaw_repeated (receiver payload : Ty) :
    Repeated (context.acceptsRaw receiver payload)
      fun _ => context.acceptsRaw receiver payload := by
  have hquery : (context.acceptsRaw receiver payload).Oblivious := by
    unfold acceptsRaw
    split
    · exact (Oblivious.report _).bind fun _ => .pure _
    · exact .pure _
  exact .of_mono (fun _ => hquery) (fun _ => .refl _) 0

variable (context) in
/-- Comparisons with the given number of steps can be repeated. -/
def RepeatsComparisons (fuel : Nat) : Prop :=
  ∀ variance pending receiver payload,
    Repeated (context.compare fuel pending variance receiver payload)
      fun more => context.compare more pending variance receiver payload

section Comparisons

variable {fuel : Nat} {pending : List (Ty × TypeVar)}

/-- Comparisons of a wildcard can be repeated. -/
theorem covariant_wildcard_repeated (hsub : context.RepeatsComparisons fuel) (upper : Ty)
    (lower : Option Ty) (payload : Ty) :
    Repeated (context.covariant (fuel + 1) pending (.wildcard upper lower) payload)
      fun more => context.covariant (more + 1) pending (.wildcard upper lower) payload := by
  have hupper (other : Ty) := hsub .covariant pending upper other
  cases hwild : payload.isWildcard with
  | false =>
      cases lower with
      | none =>
          simp only [covariant_extends hwild]
          exact (hupper payload).and (.pure true)
      | some bound =>
          simp only [covariant_super hwild]
          exact (hupper payload).and (hsub .covariant pending payload bound)
  | true =>
      obtain ⟨other, lower', rfl⟩ := Ty.eq_wildcard hwild
      cases lower with
      | none =>
          cases lower' with
          | none => exact (hupper other).and (.pure true)
          | some bound' => exact (hupper other).and (.pure upper.isTop)
      | some bound =>
          cases lower' with
          | none => exact (hupper other).and (.pure false)
          | some bound' => exact (hupper other).and (hsub .covariant pending bound' bound)

/-- Comparisons with the bounds of a variable can be repeated. -/
theorem covariant_var_repeated (hsub : context.RepeatsComparisons fuel) {receiver : Ty}
    (hvar : receiver.isVar = false) (hwild : receiver.isWildcard = false) (param : TypeVar) :
    Repeated (context.covariant (fuel + 1) pending receiver (.var param))
      fun more => context.covariant (more + 1) pending receiver (.var param) := by
  simp only [covariant_var hvar hwild]
  split
  · exact .pure false
  · exact (Repeated.bounds context.heap param).bind fun bounds =>
      .anyM (hsub .covariant _ receiver) bounds

/-- Covariant comparisons can be repeated if comparisons with fewer steps can. -/
theorem covariant_repeated (hmemoize : context.memoize = false)
    (hsub : context.RepeatsComparisons fuel) (receiver payload : Ty) :
    Repeated (context.covariant (fuel + 1) pending receiver payload)
      fun more => context.covariant (more + 1) pending receiver payload := by
  cases receiver with
  | wildcard upper lower => exact covariant_wildcard_repeated hsub upper lower payload
  | var param =>
      cases payload with
      | var other => exact variableAccepts_repeated context.heap param fuel [] other
      | named | applied | array | wildcard => exact .pure false
  | named head =>
      cases payload with
      | var param => exact covariant_var_repeated hsub rfl rfl param
      | wildcard => exact .pure false
      | named | applied | array => exact nominallyContains_repeated hmemoize fuel head _
  | applied owner raw args =>
      have hname (payload : Ty) := nominallyContains_repeated hmemoize fuel raw payload
      have hancestor (payload : Ty) := hasMatchingAncestor_repeated hmemoize
        (hsub .invariant pending) fuel owner raw args payload
      cases payload with
      | var param => exact covariant_var_repeated hsub rfl rfl param
      | named head => exact (hname _).and ((hancestor _).or (acceptsRaw_repeated _ _))
      | applied => exact (hname _).and (hancestor _)
      | array | wildcard => exact .pure false
  | array component =>
      cases payload with
      | var param => exact covariant_var_repeated hsub rfl rfl param
      | array component' => exact hsub .covariant pending component component'
      | named | applied | wildcard => exact .pure false

/-- Invariant comparisons can be repeated if comparisons with fewer steps can. -/
theorem invariant_repeated (hsub : context.RepeatsComparisons fuel) (receiver payload : Ty) :
    Repeated (context.invariant (fuel + 1) pending receiver payload)
      fun more => context.invariant (more + 1) pending receiver payload := by
  cases hwild : receiver.isWildcard || payload.isWildcard with
  | true =>
      simp only [invariant_wildcard hwild]
      exact hsub .covariant pending receiver payload
  | false =>
      cases receiver with
      | wildcard => cases hwild
      | named head =>
          cases payload with
          | named head' => exact .pure _
          | wildcard => cases hwild
          | applied | array | var => exact .pure false
      | applied owner raw args =>
          cases payload with
          | applied owner' raw' args' =>
              simp only [invariant]
              split
              · exact sameArguments_repeated (hsub .invariant pending) owner owner' args args'
              · exact .pure false
          | wildcard => cases hwild
          | named | array | var => exact .pure false
      | array component =>
          cases payload with
          | array component' => exact hsub .invariant pending component component'
          | wildcard => cases hwild
          | named | applied | var => exact .pure false
      | var param =>
          cases payload with
          | var param' => exact .pure _
          | wildcard => cases hwild
          | named | applied | array => exact .pure false

end Comparisons

/-- Where closures are not memoized, a comparison that answers answers the same again. -/
theorem repeatsComparisons (hmemoize : context.memoize = false) (fuel : Nat) :
    context.RepeatsComparisons fuel := by
  induction fuel with
  | zero =>
      intro variance pending receiver payload
      cases variance <;> exact .exhausted
  | succ fuel ih =>
      intro variance pending receiver payload
      refine .step ?_
      cases variance with
      | covariant => exact covariant_repeated hmemoize ih receiver payload
      | invariant => exact invariant_repeated ih receiver payload

end Context

end Nominal
