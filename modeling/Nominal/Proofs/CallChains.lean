import Nominal.Proofs.Plans
import Nominal.Proofs.Termination

/-!
# Chains of comparisons

A comparison of a receiver without lower bounds makes comparisons of three kinds only: of a part of
the receiver, of the same types under covariance, or of the same receiver with a bound of a variable
that was not being decided. So no chain of comparisons goes on for ever, whatever supertypes the
payloads have (`acc_calls`).
-/

namespace Nominal

/-- Whether this is a wildcard with a lower bound. -/
def Ty.isLowerBounded : Ty → Bool
  | .wildcard _ (some _) => true
  | _ => false

/-! ## The comparisons in a plan -/

namespace Plan

/-- The comparison is among the questions for some answers to those before it. -/
def Mentions (comparison : Comparison) : Plan → Prop
  | .answer _ => False
  | .supertypes _ next => ∃ members, (next members).Mentions comparison
  | .erasure _ next => ∃ erased, (next erased).Mentions comparison
  | .read _ next => next.Mentions comparison
  | .walk _ _ next => ∃ yes, (next yes).Mentions comparison
  | .report _ next => next.Mentions comparison
  | .compare other next => comparison = other ∨ ∃ yes, (next yes).Mentions comparison

variable {comparison : Comparison}

/-- What is asked in two courses is asked in one of them. -/
theorem mentions_bind {first : Plan} {next : Bool → Plan}
    (h : (first.bind next).Mentions comparison) :
    first.Mentions comparison ∨ ∃ yes, (next yes).Mentions comparison := by
  induction first with
  | answer yes => exact .inr ⟨yes, h⟩
  | supertypes t rest ih =>
      obtain ⟨members, h⟩ := h
      exact (ih members h).imp_left fun h => ⟨members, h⟩
  | erasure t rest ih =>
      obtain ⟨erased, h⟩ := h
      exact (ih erased h).imp_left fun h => ⟨erased, h⟩
  | read param rest ih => exact ih h
  | walk receiver payload rest ih =>
      obtain ⟨yes, h⟩ := h
      exact (ih yes h).imp_left fun h => ⟨yes, h⟩
  | report event rest ih => exact ih h
  | compare other rest ih =>
      rcases h with rfl | ⟨yes, h⟩
      · exact .inl (.inl rfl)
      · exact (ih yes h).imp_left fun h => .inr ⟨yes, h⟩

/-- What is asked with a second course after a yes is asked in one of the two. -/
theorem mentions_both {first second : Plan} (h : (first.both second).Mentions comparison) :
    first.Mentions comparison ∨ second.Mentions comparison := by
  rcases mentions_bind h with h | ⟨yes, h⟩
  · exact .inl h
  · cases yes with
    | true => exact .inr h
    | false => cases h

/-- What is asked with a second course after a no is asked in one of the two. -/
theorem mentions_either {first second : Plan} (h : (first.either second).Mentions comparison) :
    first.Mentions comparison ∨ second.Mentions comparison := by
  rcases mentions_bind h with h | ⟨yes, h⟩
  · exact .inl h
  · cases yes with
    | true => cases h
    | false => exact .inr h

/-- What is asked in the search of a list is asked about a member. -/
theorem mentions_any {α : Type} {check : α → Plan} {list : List α}
    (h : (any check list).Mentions comparison) :
    ∃ member ∈ list, (check member).Mentions comparison := by
  induction list with
  | nil => cases h
  | cons first rest ih =>
      rcases mentions_either h with h | h
      · exact ⟨first, List.mem_cons_self, h⟩
      · obtain ⟨member, hmember, h⟩ := ih h
        exact ⟨member, List.mem_cons_of_mem _ hmember, h⟩

/-- What is asked while going through a list is asked about a member. -/
theorem mentions_all {α : Type} {check : α → Plan} {list : List α}
    (h : (all check list).Mentions comparison) :
    ∃ member ∈ list, (check member).Mentions comparison := by
  induction list with
  | nil => cases h
  | cons first rest ih =>
      rcases mentions_both h with h | h
      · exact ⟨first, List.mem_cons_self, h⟩
      · obtain ⟨member, hmember, h⟩ := ih h
        exact ⟨member, List.mem_cons_of_mem _ hmember, h⟩

/-- One comparison is asked at the end. -/
theorem mentions_ask {variance : Variance} {pending : List (Ty × TypeVar)} {receiver payload : Ty}
    (h : (ask variance pending receiver payload).Mentions comparison) :
    comparison = ⟨variance, pending, receiver, payload⟩ := by
  rcases h with rfl | ⟨_, h⟩
  · rfl
  · cases h

/-- Comparing arguments, owners and arguments of the receiver are compared. -/
theorem mentions_arguments {pending : List (Ty × TypeVar)} {owner owner' : Option Ty}
    {args args' : List Ty}
    (h : (arguments pending owner owner' args args').Mentions comparison) :
    comparison.receiver ∈ owner.toList ++ args := by
  rcases mentions_bind h with h | ⟨yes, h⟩
  · cases owner with
    | none => cases h
    | some outer =>
        cases owner' with
        | none => cases h
        | some outer' =>
            cases mentions_ask h
            exact List.mem_append_left _ (List.mem_singleton.2 rfl)
  · split at h
    · obtain ⟨pair, hpair, h⟩ := mentions_all h
      cases mentions_ask h
      exact List.mem_append_right _ (List.of_mem_zip hpair).1
    · cases h

/-- Looking for a name, nothing is compared. -/
theorem not_mentions_contains (head : Named) (payload : Ty) :
    ¬ (contains head payload).Mentions comparison := by
  rintro ⟨members, h⟩
  obtain ⟨member, _, erased, h⟩ := mentions_any h
  cases h

/-- Looking for an ancestor, owners and arguments of the receiver are compared. -/
theorem mentions_ancestor {pending : List (Ty × TypeVar)} {owner : Option Ty} {raw : ClassName}
    {args : List Ty} {payload : Ty}
    (h : (ancestor pending owner raw args payload).Mentions comparison) :
    comparison.receiver ∈ owner.toList ++ args := by
  obtain ⟨members, h⟩ := h
  obtain ⟨member, _, h⟩ := mentions_any h
  cases member with
  | applied owner' raw' args' =>
      change (if raw'.toNamed == raw then arguments pending owner owner' args args'
        else .answer false).Mentions comparison at h
      split at h
      · exact mentions_arguments h
      · cases h
  | named | array | var | wildcard => cases h

end Plan

namespace Context

variable {context : Context} {comparison : Comparison} {pending : List (Ty × TypeVar)}
  {receiver payload : Ty}

/-- What a comparison under covariance compares, if the receiver is no wildcard with a lower bound:
parts of the receiver, or the receiver with the bounds of a variable that is not being decided. -/
theorem mentions_covariantPlan (hlower : receiver.isLowerBounded = false)
    (h : (context.covariantPlan pending receiver payload).Mentions comparison) :
    comparison.receiver ∈ receiver.parts ∨
      ∃ param, payload = .var param ∧
        pending.any (fun pair => pair.1 == receiver && pair.2 == param) = false ∧
        ∃ bound ∈ context.heap.bounds param,
          comparison = ⟨.covariant, (receiver, param) :: pending, receiver, bound⟩ := by
  have hwiden (param : TypeVar)
      (h : (if pending.any (fun pair => pair.1 == receiver && pair.2 == param)
        then Plan.answer false
        else .read param <| Plan.any (Plan.ask .covariant ((receiver, param) :: pending) receiver)
          (context.heap.bounds param)).Mentions comparison) :
      pending.any (fun pair => pair.1 == receiver && pair.2 == param) = false ∧
        ∃ bound ∈ context.heap.bounds param,
          comparison = ⟨.covariant, (receiver, param) :: pending, receiver, bound⟩ := by
    split at h
    · cases h
    · rename_i hnew
      obtain ⟨bound, hbound, h⟩ := Plan.mentions_any h
      exact ⟨Bool.eq_false_iff.2 hnew, bound, hbound, Plan.mentions_ask h⟩
  cases receiver with
  | named head =>
      cases payload with
      | named | applied | array => exact absurd h (Plan.not_mentions_contains head _)
      | var param => exact .inr ⟨param, rfl, hwiden param h⟩
      | wildcard => cases h
  | applied owner raw args =>
      cases payload with
      | named head =>
          rcases Plan.mentions_both h with h | h
          · exact absurd h (Plan.not_mentions_contains raw _)
          · rcases Plan.mentions_either h with h | h
            · exact .inl (Plan.mentions_ancestor h)
            · change (if _ then _ else _ : Plan).Mentions comparison at h
              split at h <;> cases h
      | applied owner' raw' args' =>
          rcases Plan.mentions_both h with h | h
          · exact absurd h (Plan.not_mentions_contains raw _)
          · exact .inl (Plan.mentions_ancestor h)
      | var param => exact .inr ⟨param, rfl, hwiden param h⟩
      | array | wildcard => cases h
  | array component =>
      cases payload with
      | array component' =>
          cases Plan.mentions_ask h
          exact .inl (List.mem_singleton.2 rfl)
      | var param => exact .inr ⟨param, rfl, hwiden param h⟩
      | named | applied | wildcard => cases h
  | var param =>
      cases payload with
      | var param' =>
          obtain ⟨yes, h⟩ := h
          cases h
      | named | applied | array | wildcard => cases h
  | wildcard upper lower =>
      cases lower with
      | some bound => cases hlower
      | none =>
          -- without a lower bound only the upper one is compared, whatever the payload is
          have hupper {other : Ty} {yes : Bool}
              (h : ((Plan.ask .covariant pending upper other).both
                (.answer yes)).Mentions comparison) :
              comparison.receiver ∈ (Ty.wildcard upper none).parts := by
            rcases Plan.mentions_both h with h | h
            · cases Plan.mentions_ask h
              exact List.mem_singleton.2 rfl
            · cases h
          cases payload with
          | wildcard upper' lower' => cases lower' <;> exact .inl (hupper h)
          | named | applied | array | var => exact .inl (hupper h)

/-- What a comparison under invariance compares: parts of the receiver, or the same types under
covariance. -/
theorem mentions_invariantPlan
    (h : (invariantPlan pending receiver payload).Mentions comparison) :
    comparison.receiver ∈ receiver.parts ∨
      comparison = ⟨.covariant, pending, receiver, payload⟩ := by
  cases hwild : receiver.isWildcard || payload.isWildcard with
  | true => exact .inr (by
      cases receiver <;> cases payload <;> first | exact Plan.mentions_ask h | cases hwild)
  | false =>
      cases receiver with
      | named | var =>
          cases payload with
          | named | applied | array | var => cases h
          | wildcard => cases hwild
      | applied owner raw args =>
          cases payload with
          | applied owner' raw' args' =>
              change (if raw.toNamed == raw' then _ else _ : Plan).Mentions comparison at h
              split at h
              · exact .inl (Plan.mentions_arguments h)
              · cases h
          | named | array | var => cases h
          | wildcard => cases hwild
      | array component =>
          cases payload with
          | array component' =>
              cases Plan.mentions_ask h
              exact .inl (List.mem_singleton.2 rfl)
          | named | applied | var => cases h
          | wildcard => cases hwild
      | wildcard => cases hwild

/-! ## Chains of comparisons end -/

variable (context) in
/-- One comparison may make another one. -/
def Calls (called caller : Comparison) : Prop := (context.plan caller).Mentions called

/-- No chain of comparisons goes on for ever if the receiver has no lower bounds. -/
theorem acc_calls (hlower : receiver.Everywhere fun t => t.isLowerBounded = false) :
    ∀ variance pending payload, Acc context.Calls ⟨variance, pending, receiver, payload⟩ := by
  induction receiver using Ty.parts_induction with
  | step receiver ih =>
      have hparts {called : Comparison} (h : called.receiver ∈ receiver.parts) :
          Acc context.Calls called :=
        ih called.receiver h (hlower.part h) called.variance called.pending called.payload
      -- a payload that is no variable leads to parts of the receiver at once
      have hcore {pending : List (Ty × TypeVar)} {payload : Ty} (hvar : payload.isVar = false) :
          Acc context.Calls ⟨.covariant, pending, receiver, payload⟩ := by
        refine .intro _ fun called hcalls => ?_
        rcases mentions_covariantPlan hlower.self hcalls with h | ⟨param, rfl, _⟩
        · exact hparts h
        · cases hvar
      have hwiden (pending : List (Ty × TypeVar)) (param : TypeVar) :
          Acc context.Calls ⟨.covariant, pending, receiver, .var param⟩ := by
        induction pending, param using walk_induction context.heap
          (fun (pending : List (Ty × TypeVar)) param =>
            pending.any (fun pair => pair.1 == receiver && pair.2 == param)) with
        | step pending param ihwalk =>
            refine .intro _ fun called hcalls => ?_
            rcases mentions_covariantPlan hlower.self hcalls with
              h | ⟨_, heq, hnew, bound, hbound, rfl⟩
            · exact hparts h
            · cases heq
              cases hvar : bound.isVar with
              | false => exact hcore hvar
              | true =>
                  obtain ⟨next, rfl⟩ := Ty.eq_var hvar
                  exact ihwalk ((receiver, param) :: pending) next hbound hnew (by simp)
                    (by simp +contextual)
      have hcovariant (pending : List (Ty × TypeVar)) (payload : Ty) :
          Acc context.Calls ⟨.covariant, pending, receiver, payload⟩ := by
        cases hvar : payload.isVar with
        | false => exact hcore hvar
        | true =>
            obtain ⟨param, rfl⟩ := Ty.eq_var hvar
            exact hwiden pending param
      intro variance pending payload
      cases variance with
      | covariant => exact hcovariant pending payload
      | invariant =>
          refine .intro _ fun called hcalls => ?_
          rcases mentions_invariantPlan hcalls with h | rfl
          · exact hparts h
          · exact hcovariant pending payload

end Context

end Nominal
