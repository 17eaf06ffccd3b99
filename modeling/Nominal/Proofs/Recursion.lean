import Nominal.Proofs.CallChains
import Nominal.Proofs.FiniteClosures
import Nominal.Proofs.Unanswered

/-!
# The recursion of comparisons ends

No chain of comparisons goes on for ever, so a comparison ends if the searches for supertypes and
the erasures on the way do. Which those are is told by `Goes`, the steps along the plans of a
comparison and of the comparisons that it makes. Among coherent types the erasures end by
themselves. The main statement is `isAssignable_ends`.
-/

namespace Nominal

/-! ## Questions that end -/

namespace Query

variable {α β : Type}

/-- From a trail the query gives an answer and leaves a trail, once it may take enough steps. -/
def Gives (query : Nat → Query α) (trail : Trail) (first : α) (after : Trail) : Prop :=
  ∃ enough, ∀ fuel, enough ≤ fuel → query fuel trail = some (first, after)

/-- From a trail the query ends. -/
def EndsFrom (query : Nat → Query α) (trail : Trail) : Prop :=
  ∃ first after, Gives query trail first after

/-- From a trail a query gives only one answer and leaves only one trail. -/
theorem Gives.unique {query : Nat → Query α} {trail after after' : Trail} {first first' : α}
    (h : Gives query trail first after) (h' : Gives query trail first' after') :
    first = first' ∧ after = after' := by
  obtain ⟨enough, hrun⟩ := h
  obtain ⟨enough', hrun'⟩ := h'
  have heq := hrun _ (Nat.le_max_left enough enough')
  rw [hrun' _ (Nat.le_max_right enough enough')] at heq
  cases heq
  exact ⟨rfl, rfl⟩

/-- A query and what follows it give what the latter gives. -/
theorem Gives.bind {query : Nat → Query α} {next : Nat → α → Query β} {trail between after : Trail}
    {first : α} {last : β} (hquery : Gives query trail first between)
    (hnext : Gives (fun fuel => next fuel first) between last after) :
    Gives (fun fuel => query fuel >>= next fuel) trail last after := by
  obtain ⟨enough, hrun⟩ := hquery
  obtain ⟨enough', hrun'⟩ := hnext
  refine ⟨max enough enough', fun fuel hfuel => ?_⟩
  show (query fuel >>= next fuel) trail = some (last, after)
  rw [bind_of_some (hrun fuel (by omega))]
  exact hrun' fuel (by omega)

/-- A query may spend a step before it starts. -/
theorem Gives.step {query : Nat → Query α} {trail after : Trail} {first : α}
    (h : Gives (fun fuel => query (fuel + 1)) trail first after) :
    Gives query trail first after := by
  obtain ⟨enough, hrun⟩ := h
  refine ⟨enough + 1, fun fuel hfuel => ?_⟩
  obtain ⟨fuel, rfl⟩ : ∃ less, fuel = less + 1 := ⟨fuel - 1, by omega⟩
  exact hrun fuel (by omega)

/-- A query that answers from every trail ends. -/
theorem Terminates.endsFrom {query : Nat → Query α} (h : Terminates (fun _ => True) query)
    (trail : Trail) : EndsFrom query trail := by
  obtain ⟨first, after, _, _, hrun⟩ := h trail trivial
  exact ⟨first, after, hrun⟩

end Query

namespace Context

open Query

variable {context : Context}

variable (context) in
/-- A step along a plan and the trail that it extends: the first question is answered and left
behind, or it is a comparison and its own plan is entered. -/
inductive Goes : Plan × Trail → Plan × Trail → Prop where
  | supertypes {t : Ty} {next : List Ty → Plan} {trail after : Trail} {members : List Ty} :
      Gives (fun fuel => context.supertypes fuel t) trail members after →
      Goes (.supertypes t next, trail) (next members, after)
  | erasure {t erased : Ty} {next : Ty → Plan} {trail after : Trail} :
      Gives (fun fuel => erase context.heap fuel t) trail erased after →
      Goes (.erasure t next, trail) (next erased, after)
  | read {param : TypeVar} {next : Plan} {trail after : Trail} {bounds : List Ty} :
      Gives (fun _ => Query.bounds context.heap param) trail bounds after →
      Goes (.read param next, trail) (next, after)
  | walk {receiver payload : TypeVar} {next : Bool → Plan} {trail after : Trail} {yes : Bool} :
      Gives (fun fuel => variableAccepts context.heap receiver fuel [] payload) trail yes after →
      Goes (.walk receiver payload next, trail) (next yes, after)
  | report {event : Event} {next : Plan} {trail after : Trail} :
      Gives (fun _ => Query.report event) trail () after →
      Goes (.report event next, trail) (next, after)
  | compare {comparison : Comparison} {next : Bool → Plan} {trail after : Trail} {yes : Bool} :
      Gives (fun fuel => context.perform fuel comparison) trail yes after →
      Goes (.compare comparison next, trail) (next yes, after)
  | enter {comparison : Comparison} {next : Bool → Plan} {trail : Trail} :
      Goes (.compare comparison next, trail) (context.plan comparison, trail)

variable (context) in
/-- Every search for supertypes that is come to from a point ends, and so does every erasure. -/
structure CallsEnd (start : Plan × Trail) : Prop where
  supertypes : ∀ {t next trail},
    Relation.ReflTransGen context.Goes start (.supertypes t next, trail) →
    EndsFrom (fun fuel => context.supertypes fuel t) trail
  erasure : ∀ {t next trail},
    Relation.ReflTransGen context.Goes start (.erasure t next, trail) →
    EndsFrom (fun fuel => erase context.heap fuel t) trail

/-- What is come to after a step is come to before it. -/
theorem CallsEnd.step {start point : Plan × Trail} (h : context.CallsEnd start)
    (hgoes : context.Goes start point) : context.CallsEnd point :=
  ⟨fun hcomes => h.supertypes (.head hgoes hcomes), fun hcomes => h.erasure (.head hgoes hcomes)⟩

/-- A plan can be followed to its end if the comparisons in it end. -/
theorem plan_ends {plan : Plan} {trail : Trail} (hcalls : context.CallsEnd (plan, trail))
    (hcomparisons : ∀ {comparison trail}, plan.Mentions comparison →
      context.CallsEnd (context.plan comparison, trail) →
      EndsFrom (fun fuel => context.perform fuel comparison) trail) :
    EndsFrom (fun fuel => plan.run context fuel) trail := by
  induction plan generalizing trail with
  | answer yes => exact ⟨yes, trail, 0, fun _ _ => rfl⟩
  | supertypes t next ih =>
      obtain ⟨members, between, hgives⟩ := hcalls.supertypes .refl
      obtain ⟨last, after, hrest⟩ := ih members (hcalls.step (.supertypes hgives))
        fun hmentions => hcomparisons ⟨members, hmentions⟩
      exact ⟨last, after, hgives.bind hrest⟩
  | erasure t next ih =>
      obtain ⟨erased, between, hgives⟩ := hcalls.erasure .refl
      obtain ⟨last, after, hrest⟩ := ih erased (hcalls.step (.erasure hgives))
        fun hmentions => hcomparisons ⟨erased, hmentions⟩
      exact ⟨last, after, hgives.bind hrest⟩
  | read param next ih =>
      have hgives : Gives (fun _ => Query.bounds context.heap param) trail _ _ :=
        ⟨0, fun _ _ => rfl⟩
      obtain ⟨last, after, hrest⟩ := ih (hcalls.step (.read hgives)) hcomparisons
      exact ⟨last, after, hgives.bind hrest⟩
  | walk receiver payload next ih =>
      obtain ⟨yes, between, hgives⟩ :=
        (variableAccepts_terminates context.heap receiver [] payload).endsFrom trail
      obtain ⟨last, after, hrest⟩ := ih yes (hcalls.step (.walk hgives))
        fun hmentions => hcomparisons ⟨yes, hmentions⟩
      exact ⟨last, after, hgives.bind hrest⟩
  | report event next ih =>
      have hgives : Gives (fun _ => Query.report event) trail () _ := ⟨0, fun _ _ => rfl⟩
      obtain ⟨last, after, hrest⟩ := ih (hcalls.step (.report hgives)) hcomparisons
      exact ⟨last, after, hgives.bind hrest⟩
  | compare comparison next ih =>
      obtain ⟨yes, between, hgives⟩ := hcomparisons (.inl rfl) (hcalls.step .enter)
      obtain ⟨last, after, hrest⟩ := ih yes (hcalls.step (.compare hgives))
        fun hmentions => hcomparisons (.inr ⟨yes, hmentions⟩)
      exact ⟨last, after, hgives.bind hrest⟩

/-- A comparison ends if no chain of comparisons from it goes on for ever and the calls that are
made on the way end. -/
theorem perform_ends {comparison : Comparison} (hacc : Acc context.Calls comparison)
    {trail : Trail} (hcalls : context.CallsEnd (context.plan comparison, trail)) :
    EndsFrom (fun fuel => context.perform fuel comparison) trail := by
  induction hacc generalizing trail with
  | intro comparison _ ih =>
      have hplan := plan_ends hcalls fun hmentions hlater => ih _ hmentions hlater
      obtain ⟨yes, after, hgives⟩ := hplan
      simp only [← perform_succ] at hgives
      exact ⟨yes, after, hgives.step⟩

/-! ## Erasures of coherent types

Where equal types do not differ in their kinds and bounds, an erasure on the way never fails to end,
because what is erased has come out of a search that ended. -/

variable {roots : List Ty}

variable (context roots) in
/-- All types of a comparison are reached from the given ones. -/
structure InReach (comparison : Comparison) : Prop where
  receiver : context.Reached roots comparison.receiver
  payload : context.Reached roots comparison.payload
  pending : ∀ pair ∈ comparison.pending,
    context.Reached roots pair.1 ∧ context.Reached roots (.var pair.2)

variable (context) in
/-- The type has an erasure. -/
def Erasable (t : Ty) : Prop := ∃ erased, Erases context.heap [] t erased

/-- The erasure of a type that has one ends. -/
theorem Erasable.endsFrom {t : Ty} (h : context.Erasable t) (trail : Trail) :
    EndsFrom (fun fuel => erase context.heap fuel t) trail := by
  obtain ⟨erased, enough, hanswer⟩ := h
  obtain ⟨after, hrun, _⟩ := (erase_along_oblivious context.heap enough [] t).run_eq hanswer trail
  exact ⟨erased, after, enough, fun fuel hfuel => erase_along_mono context.heap [] t hfuel _ _ hrun⟩

variable (context roots) in
/-- The types in a plan are reached, and those that are erased can be, as far as that is true of the
supertypes that are given as answers. -/
def Orderly : Plan → Prop
  | .answer _ => True
  | .supertypes t next => context.Reached roots t ∧ ∀ members,
      (∀ member ∈ members, context.Reached roots member ∧ context.Erasable member) →
      Orderly (next members)
  | .erasure t next => context.Erasable t ∧ ∀ erased, Orderly (next erased)
  | .read _ next => Orderly next
  | .walk _ _ next => ∀ yes, Orderly (next yes)
  | .report _ next => Orderly next
  | .compare comparison next =>
      context.InReach roots comparison ∧ ∀ yes, Orderly (next yes)

/-- Two orderly plans one after the other are orderly. -/
theorem orderly_bind {first : Plan} {next : Bool → Plan} (hfirst : context.Orderly roots first)
    (hnext : ∀ yes, context.Orderly roots (next yes)) :
    context.Orderly roots (first.bind next) := by
  induction first with
  | answer yes => exact hnext yes
  | supertypes t rest ih => exact ⟨hfirst.1, fun members h => ih members (hfirst.2 members h)⟩
  | erasure t rest ih => exact ⟨hfirst.1, fun erased => ih erased (hfirst.2 erased)⟩
  | read param rest ih => exact ih hfirst
  | walk receiver payload rest ih => exact fun yes => ih yes (hfirst yes)
  | report event rest ih => exact ih hfirst
  | compare comparison rest ih => exact ⟨hfirst.1, fun yes => ih yes (hfirst.2 yes)⟩

/-- An orderly plan after a yes is orderly. -/
theorem orderly_both {first second : Plan} (hfirst : context.Orderly roots first)
    (hsecond : context.Orderly roots second) : context.Orderly roots (first.both second) := by
  refine orderly_bind hfirst fun yes => ?_
  cases yes with
  | true => exact hsecond
  | false => trivial

/-- An orderly plan after a no is orderly. -/
theorem orderly_either {first second : Plan} (hfirst : context.Orderly roots first)
    (hsecond : context.Orderly roots second) : context.Orderly roots (first.either second) := by
  refine orderly_bind hfirst fun yes => ?_
  cases yes with
  | true => trivial
  | false => exact hsecond

/-- The search of a list is orderly if the checks are. -/
theorem orderly_any {α : Type} {check : α → Plan} {list : List α}
    (h : ∀ member ∈ list, context.Orderly roots (check member)) :
    context.Orderly roots (Plan.any check list) := by
  induction list with
  | nil => trivial
  | cons first rest ih =>
      rw [List.forall_mem_cons] at h
      exact orderly_either h.1 (ih h.2)

/-- Going through a list is orderly if the checks are. -/
theorem orderly_all {α : Type} {check : α → Plan} {list : List α}
    (h : ∀ member ∈ list, context.Orderly roots (check member)) :
    context.Orderly roots (Plan.all check list) := by
  induction list with
  | nil => trivial
  | cons first rest ih =>
      rw [List.forall_mem_cons] at h
      exact orderly_both h.1 (ih h.2)

section Steps

variable {owner owner' : Option Ty} {raw raw' : ClassName} {args args' : List Ty}
  {pending : List (Ty × TypeVar)} {receiver payload : Ty}

/-- One comparison of types that are reached is orderly. -/
theorem orderly_ask {variance : Variance} (hreceiver : context.Reached roots receiver)
    (hpayload : context.Reached roots payload)
    (hpending : ∀ pair ∈ pending,
      context.Reached roots pair.1 ∧ context.Reached roots (.var pair.2)) :
    context.Orderly roots (Plan.ask variance pending receiver payload) :=
  ⟨⟨hreceiver, hpayload, hpending⟩, fun _ => trivial⟩

/-- Comparing arguments of applied types that are reached is orderly. -/
theorem orderly_arguments (hreceiver : context.Reached roots (.applied owner raw args))
    (hpayload : context.Reached roots (.applied owner' raw' args'))
    (hpending : ∀ pair ∈ pending,
      context.Reached roots pair.1 ∧ context.Reached roots (.var pair.2)) :
    context.Orderly roots (Plan.arguments pending owner owner' args args') := by
  refine orderly_bind ?_ fun yes => ?_
  · cases owner with
    | none => trivial
    | some outer =>
        cases owner' with
        | none => trivial
        | some outer' => exact orderly_ask (hreceiver.owner rfl) (hpayload.owner rfl) hpending
  · split
    · refine orderly_all fun pair hpair => ?_
      obtain ⟨harg, harg'⟩ := List.of_mem_zip hpair
      exact orderly_ask (hreceiver.arg harg) (hpayload.arg harg') hpending
    · trivial

/-- Looking for a name is orderly. -/
theorem orderly_contains (head : Named) (hpayload : context.Reached roots payload) :
    context.Orderly roots (Plan.contains head payload) := by
  refine ⟨hpayload, fun members hmembers => orderly_any fun member hmember => ?_⟩
  exact ⟨(hmembers member hmember).2, fun _ => trivial⟩

/-- Looking for an ancestor is orderly. -/
theorem orderly_ancestor (hreceiver : context.Reached roots (.applied owner raw args))
    (hpayload : context.Reached roots payload)
    (hpending : ∀ pair ∈ pending,
      context.Reached roots pair.1 ∧ context.Reached roots (.var pair.2)) :
    context.Orderly roots (Plan.ancestor pending owner raw args payload) := by
  refine ⟨hpayload, fun members hmembers => orderly_any fun member hmember => ?_⟩
  cases member with
  | applied owner' raw' args' =>
      show context.Orderly roots (if raw'.toNamed == raw then _ else _)
      split
      · exact orderly_arguments hreceiver (hmembers _ hmember).1 hpending
      · trivial
  | named | array | var | wildcard => trivial

/-- Comparing a receiver with the bounds of a variable is orderly. -/
theorem orderly_widen {param : TypeVar} (hreceiver : context.Reached roots receiver)
    (hparam : context.Reached roots (.var param))
    (hpending : ∀ pair ∈ pending,
      context.Reached roots pair.1 ∧ context.Reached roots (.var pair.2)) :
    context.Orderly roots
      (if pending.any (fun pair => pair.1 == receiver && pair.2 == param) then .answer false
        else .read param <| Plan.any (Plan.ask .covariant ((receiver, param) :: pending) receiver)
          (context.heap.bounds param)) := by
  split
  · trivial
  · refine orderly_any fun bound hbound => orderly_ask hreceiver (hparam.bound hbound) ?_
    exact List.forall_mem_cons.2 ⟨⟨hreceiver, hparam⟩, hpending⟩

/-- Under covariance a comparison of types that are reached is orderly. -/
theorem orderly_covariantPlan (hreceiver : context.Reached roots receiver)
    (hpayload : context.Reached roots payload)
    (hpending : ∀ pair ∈ pending,
      context.Reached roots pair.1 ∧ context.Reached roots (.var pair.2)) :
    context.Orderly roots (context.covariantPlan pending receiver payload) := by
  cases receiver with
  | named head =>
      cases payload with
      | named | applied | array => exact orderly_contains head hpayload
      | var param => exact orderly_widen hreceiver hpayload hpending
      | wildcard => trivial
  | applied owner raw args =>
      have hcontains := orderly_contains raw hpayload
      have hancestor := orderly_ancestor hreceiver hpayload hpending
      cases payload with
      | named head =>
          refine orderly_both hcontains (orderly_either hancestor ?_)
          show context.Orderly roots (if _ then _ else _)
          split <;> trivial
      | applied owner' raw' args' => exact orderly_both hcontains hancestor
      | var param => exact orderly_widen hreceiver hpayload hpending
      | array | wildcard => trivial
  | array component =>
      cases payload with
      | array component' => exact orderly_ask hreceiver.component hpayload.component hpending
      | var param => exact orderly_widen hreceiver hpayload hpending
      | named | applied | wildcard => trivial
  | var param =>
      cases payload with
      | var param' => exact fun _ => trivial
      | named | applied | array | wildcard => trivial
  | wildcard upper lower =>
      cases payload with
      | wildcard upper' lower' =>
          refine orderly_both (orderly_ask hreceiver.upper hpayload.upper hpending) ?_
          cases lower with
          | none => cases lower' <;> trivial
          | some bound =>
              cases lower' with
              | none => trivial
              | some bound' => exact orderly_ask hpayload.lower hreceiver.lower hpending
      | named | applied | array | var =>
          refine orderly_both (orderly_ask hreceiver.upper hpayload hpending) ?_
          cases lower with
          | none => trivial
          | some bound => exact orderly_ask hpayload hreceiver.lower hpending

/-- Under invariance a comparison of types that are reached is orderly. -/
theorem orderly_invariantPlan (hreceiver : context.Reached roots receiver)
    (hpayload : context.Reached roots payload)
    (hpending : ∀ pair ∈ pending,
      context.Reached roots pair.1 ∧ context.Reached roots (.var pair.2)) :
    context.Orderly roots (invariantPlan pending receiver payload) := by
  have hcovariant : context.Orderly roots (Plan.ask .covariant pending receiver payload) :=
    orderly_ask hreceiver hpayload hpending
  cases receiver with
  | wildcard upper lower => exact hcovariant
  | named head =>
      cases payload with
      | wildcard => exact hcovariant
      | named | applied | array | var => trivial
  | applied owner raw args =>
      cases payload with
      | wildcard => exact hcovariant
      | applied owner' raw' args' =>
          show context.Orderly roots (if raw.toNamed == raw' then _ else _)
          split
          · exact orderly_arguments hreceiver hpayload hpending
          · trivial
      | named | array | var => trivial
  | array component =>
      cases payload with
      | wildcard => exact hcovariant
      | array component' => exact orderly_ask hreceiver.component hpayload.component hpending
      | named | applied | var => trivial
  | var param =>
      cases payload with
      | wildcard => exact hcovariant
      | named | applied | array | var => trivial

end Steps

/-- A comparison of types that are reached is orderly. -/
theorem orderly_plan {comparison : Comparison} (h : context.InReach roots comparison) :
    context.Orderly roots (context.plan comparison) := by
  obtain ⟨variance, pending, receiver, payload⟩ := comparison
  cases variance with
  | covariant => exact orderly_covariantPlan h.receiver h.payload h.pending
  | invariant => exact orderly_invariantPlan h.receiver h.payload h.pending

/-- What a search that ended has found can be erased. -/
theorem erasable_of_closure (hcoherent : context.Coherent roots) (hformed : context.heap.Formed)
    {t member : Ty} {members : List Ty} (ht : context.Reached roots t)
    (hclosure : context.ClosureOf t members) (hmember : member ∈ members) :
    context.Erasable member := by
  have hreached := ht.supertype (hclosure.reached member hmember)
  have hfinite := hclosure.finiteClosure hcoherent.uniform ht hmember
  obtain ⟨depth, hdepth⟩ := hfinite.exists_depth hcoherent.uniform hreached
  exact exists_erases hformed depth hdepth []

/-- Comparisons of types that are reached keep the memo sound. -/
theorem perform_memoSound (hcoherent : context.Coherent roots) {comparison : Comparison}
    (hreach : context.InReach roots comparison) {trail after : Trail} {yes : Bool}
    (hmemo : context.MemoSound roots trail.memo)
    (h : Gives (fun fuel => context.perform fuel comparison) trail yes after) :
    context.MemoSound roots after.memo := by
  obtain ⟨enough, hrun⟩ := h
  -- nothing is accepted within no height at all
  have hopen : context.Open roots (context.Within 0) comparison.pending := fun pair hpair =>
    ⟨(hreach.pending pair hpair).1, (hreach.pending pair hpair).2, id⟩
  exact (compares_of_staged hcoherent hcoherent.staged hopen comparison.variance comparison.receiver
    comparison.payload hreach.receiver hreach.payload trail hmemo yes after
    (hrun enough (Nat.le_refl _))).1

/-- One step keeps plans orderly and the memo sound. -/
theorem orderly_step (hcoherent : context.Coherent roots) (hformed : context.heap.Formed)
    {point later : Plan × Trail} (hgoes : context.Goes point later)
    (h : context.Orderly roots point.1 ∧ context.MemoSound roots point.2.memo) :
    context.Orderly roots later.1 ∧ context.MemoSound roots later.2.memo := by
  obtain ⟨horderly, hmemo⟩ := h
  cases hgoes with
  | supertypes hgives =>
      obtain ⟨enough, hrun⟩ := hgives
      have hrun := hrun enough (Nat.le_refl _)
      obtain ⟨hafter, hrepresents⟩ := supertypes_ensures hcoherent horderly.1 _ hmemo _ _ hrun
      refine ⟨horderly.2 _ fun member hmember => ⟨hrepresents.reached member hmember, ?_⟩, hafter⟩
      obtain ⟨_, t', ht', _, _, hanswer⟩ := supertypes_closure horderly.1 _ _ hmemo _ _ hrun
      exact erasable_of_closure hcoherent hformed ht' (closure_closureOf hanswer) hmember
  | erasure hgives =>
      obtain ⟨enough, hrun⟩ := hgives
      obtain ⟨_, hkept⟩ := (erase_along_oblivious context.heap enough [] _).answer_eq
        (hrun enough (Nat.le_refl _))
      exact ⟨horderly.2 _, hkept ▸ hmemo⟩
  | read hgives =>
      obtain ⟨enough, hrun⟩ := hgives
      cases hrun enough (Nat.le_refl _)
      exact ⟨horderly, hmemo⟩
  | @walk receiver payload _ _ _ _ hgives =>
      have hwalk : Terminates (context.MemoSound roots) _ :=
        variableAccepts_terminates context.heap receiver [] payload
      obtain ⟨_, _, hafter, _, hgives'⟩ := hwalk _ hmemo
      obtain ⟨rfl, rfl⟩ := hgives.unique hgives'
      exact ⟨horderly _, hafter⟩
  | report hgives =>
      obtain ⟨enough, hrun⟩ := hgives
      cases hrun enough (Nat.le_refl _)
      exact ⟨horderly, hmemo⟩
  | compare hgives => exact ⟨horderly.2 _, perform_memoSound hcoherent horderly.1 hmemo hgives⟩
  | enter => exact ⟨orderly_plan horderly.1, hmemo⟩

/-- Among coherent types the calls on the way end if the searches for supertypes do. -/
theorem callsEnd_of_coherent (hcoherent : context.Coherent roots) (hformed : context.heap.Formed)
    {start : Plan × Trail} (horderly : context.Orderly roots start.1)
    (hmemo : context.MemoSound roots start.2.memo)
    (hsearches : ∀ {t next trail},
      Relation.ReflTransGen context.Goes start (.supertypes t next, trail) →
      EndsFrom (fun fuel => context.supertypes fuel t) trail) :
    context.CallsEnd start := by
  refine ⟨hsearches, fun {t next trail} hcomes => ?_⟩
  have hpoint {point : Plan × Trail} (hcomes : Relation.ReflTransGen context.Goes start point) :
      context.Orderly roots point.1 ∧ context.MemoSound roots point.2.memo := by
    induction hcomes with
    | refl => exact ⟨horderly, hmemo⟩
    | tail _ hgoes ih => exact orderly_step hcoherent hformed hgoes ih
  exact (hpoint hcomes).1.1.endsFrom trail

/-- Boxing gives names for names, and leaves all else alone. -/
theorem lowerBounded_box (boxing : Boxing) {t : Ty}
    (h : t.Everywhere fun t => t.isLowerBounded = false) :
    (boxing.box t).Everywhere fun t => t.isLowerBounded = false := by
  cases t with
  | named head => exact .intro rfl (List.forall_mem_nil _)
  | applied | array | var | wildcard => exact h

/-! ## Questions of assignability -/

/-- A search that ends without a memo ends with every memo. -/
theorem FiniteClosure.endsFrom {t : Ty} (h : context.FiniteClosure t) (trail : Trail) :
    EndsFrom (fun fuel => context.supertypes fuel t) trail := by
  obtain ⟨enough, members, hanswer⟩ := h
  have hmemo : MemoAll (fun _ _ => True) trail.memo := fun _ _ => trivial
  obtain ⟨_, found, _, _, _, after, _, hrun⟩ := supertypes_answers hanswer trivial hmemo
  exact ⟨found, after, hrun⟩

/-- Where the receiver has no lower bounds, no chain of comparisons goes on for ever, and the
question of assignability is answered if all searches for supertypes that it makes end, and all
erasures. Among coherent types, whose bounds have been checked, it is enough that the searches
end. -/
theorem isAssignable_ends (boxing : Boxing) (options : AssignOptions) {receiver : Ty}
    (hlower : receiver.Everywhere fun t => t.isLowerBounded = false) (payload : Ty) :
    let start : Comparison := ⟨options.variance, [],
      if options.boxing then boxing.box receiver else receiver,
      if options.boxing then boxing.box payload else payload⟩
    Acc context.Calls start ∧
    (∀ trail, context.CallsEnd (context.plan start, trail) →
      EndsFrom (fun fuel => context.isAssignable fuel boxing options receiver payload) trail) ∧
    ∀ {roots trail}, context.Coherent roots → context.heap.Formed →
      context.Reached roots start.receiver → context.Reached roots start.payload →
      context.MemoSound roots trail.memo →
      (∀ {t next later}, Relation.ReflTransGen context.Goes (context.plan start, trail)
        (.supertypes t next, later) → EndsFrom (fun fuel => context.supertypes fuel t) later) →
      EndsFrom (fun fuel => context.isAssignable fuel boxing options receiver payload) trail := by
  intro start
  have hacc : Acc context.Calls start := by
    refine acc_calls ?_ _ _ _
    split
    · exact lowerBounded_box boxing hlower
    · exact hlower
  simp only [isAssignable_eq]
  refine ⟨hacc, fun trail hcalls => perform_ends hacc hcalls, ?_⟩
  intro roots trail hcoherent hformed hreceiver hpayload hmemo hsearches
  have hreach : context.InReach roots start := ⟨hreceiver, hpayload, List.forall_mem_nil _⟩
  exact perform_ends hacc
    (callsEnd_of_coherent hcoherent hformed (orderly_plan hreach) hmemo hsearches)

/-- Neither a search for supertypes nor a comparison is planned. -/
def SearchFree : Plan → Prop
  | .answer _ => True
  | .supertypes _ _ | .compare _ _ => False
  | .erasure _ next => ∀ erased, SearchFree (next erased)
  | .walk _ _ next => ∀ yes, SearchFree (next yes)
  | .read _ next | .report _ next => SearchFree next

/-- A plan without searches does not come to any. -/
theorem SearchFree.of_goes {start point : Plan × Trail}
    (hcomes : Relation.ReflTransGen context.Goes start point) (h : SearchFree start.1) :
    SearchFree point.1 := by
  induction hcomes with
  | refl => exact h
  | tail _ hgoes ih =>
      cases hgoes with
      | supertypes | compare | enter => exact ih.elim
      | erasure | walk => exact ih _
      | read | report => exact ih

/-- Among supertypes that were found a name is looked for without a search. -/
theorem searchFree_any (head : Named) (members : List Ty) :
    SearchFree (Plan.any (fun t => .erasure t fun erased =>
      .answer (erased.asNamed?.any (· == head))) members) := by
  induction members with
  | nil => trivial
  | cons first rest ih =>
      intro erased
      show SearchFree (if _ then _ else _)
      split
      · trivial
      · exact ih

/-- Where types are not coherent it is not enough that the searches end. Here the only search is the
first question, and it ends; one of the erasures that come after it does not. -/
theorem split_question_unanswered :
    split.heap.Made ∧ Ty.Everywhere (fun t => t.isLowerBounded = false) .top ∧
    (∀ {t next later}, Relation.ReflTransGen split.Goes
        (split.plan ⟨.covariant, [], .top, splitArray⟩, .empty) (.supertypes t next, later) →
      EndsFrom (fun fuel => split.supertypes fuel t) later) ∧
    ∀ boxing boxes fuel,
      split.isAssignable fuel boxing ⟨.covariant, boxes⟩ .top splitArray .empty = none := by
  refine ⟨split_made, .intro rfl (List.forall_mem_nil _), fun hcomes => ?_, split_never⟩
  obtain ⟨rest, _, hclosure⟩ := split_closure
  rcases hcomes.cases_head with hstart | ⟨point, hfirst, hlater⟩
  · cases hstart
    exact FiniteClosure.endsFrom ⟨11, _, hclosure⟩ _
  · cases hfirst
    exact (SearchFree.of_goes hlater (searchFree_any _ _)).elim

/-- Whether a variable that is bounded by a crate of itself is a depot of some crates is answered,
although the arguments of crates grow on the way up. -/
theorem growing_question_ends :
    EndsFrom (fun fuel => growing.isAssignable fuel .standard .standard
      (.applied none depot [.wildcard (.applied none crate [.unbounded]) none])
      (.var ⟨"S", "m", .owning 4⟩)) .empty := by
  have hlower : Ty.Everywhere (fun t => t.isLowerBounded = false)
      (.applied none depot [.wildcard (.applied none crate [.unbounded]) none]) := by
    have htop : Ty.Everywhere (fun t => t.isLowerBounded = false) .top :=
      .intro rfl (List.forall_mem_nil _)
    have hcrate : Ty.Everywhere (fun t => t.isLowerBounded = false)
        (.applied none crate [.unbounded]) :=
      .intro rfl (List.forall_mem_singleton.2 (.intro rfl (List.forall_mem_singleton.2 htop)))
    exact .intro rfl (List.forall_mem_singleton.2 (.intro rfl (List.forall_mem_singleton.2 hcrate)))
  have hconfined (t : Ty) : growing.Confined t :=
    confined_of_chains growing_headed growing_chains growing_formed growing_arrays t
  refine (isAssignable_ends .standard .standard hlower _).2.1 .empty ⟨?_, ?_⟩
  · intro t next trail _
    exact (hconfined t).finiteClosure.endsFrom trail
  · intro t next trail _
    exact Erasable.endsFrom ((hconfined t).exists_erases growing_formed) trail

end Context

end Nominal
