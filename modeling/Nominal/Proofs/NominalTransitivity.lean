import Nominal.Proofs.Decision
import Nominal.Proofs.Names

/-!
# Acceptance by names is transitive

What a name accepts is closed under acceptance, whatever the types in between are: raw uses,
members of enclosing types, wildcards with lower bounds, variables or arrays. Each way in which the
second type accepts the third keeps the names that can be reached.
-/

namespace Nominal.Context

open Query

variable {context : Context} {roots : List Ty}

/-- Nominal containment is transitive where the last type has a head. -/
theorem contains_trans_head (hcoherent : context.Coherent roots) (hregular : context.env.Regular)
    (hrooted : context.env.Rooted) {first second : Named} {t : Ty} {name : String}
    (hsecond : context.Reached roots (.named second)) (ht : context.Reached roots t)
    (hname : t.headName? = some name) (h : context.NominallyContains first (.named second))
    (h' : context.NominallyContains second t) : context.NominallyContains first t := by
  cases hprimitive : t.isPrimitive with
  | true =>
      -- a primitive contains only what is equal to it
      cases t with
      | named head =>
          have heq := nominallyContains_primitive hprimitive h'
          exact hcoherent.nominallyContains hsecond ht BEq.rfl (BEq.symm heq) h
      | applied | array | var | wildcard => cases hprimitive
  | false =>
      have ht : t.Headed name := ⟨hname, hprimitive⟩
      cases hsecondary : second.isPrimitive with
      | true =>
          obtain ⟨s, found, hs, herases, hfound⟩ := h'
          exact ⟨s, found, hs, herases, BEq.trans hfound (nominallyContains_primitive hsecondary h)⟩
      | false =>
          have hheaded : (Ty.named second).Headed second.name := ⟨rfl, hsecondary⟩
          rw [nominallyContains_iff hregular hrooted ht] at h' ⊢
          rw [nominallyContains_iff hregular hrooted hheaded] at h
          exact h'.trans h

/-- Nominal containment is transitive. -/
theorem contains_trans (hcoherent : context.Coherent roots) (hregular : context.env.Regular)
    (hrooted : context.env.Rooted) {first second : Named} {t : Ty}
    (hsecond : context.Reached roots (.named second)) (ht : context.Reached roots t)
    (hvar : t.isVar = false) (hwild : t.isWildcard = false)
    (h : context.NominallyContains first (.named second))
    (h' : context.NominallyContains second t) : context.NominallyContains first t := by
  cases t with
  | named | applied => exact contains_trans_head hcoherent hregular hrooted hsecond ht rfl h h'
  | array component =>
      obtain ⟨s, hs, h'⟩ := (nominallyContains_array hregular).1 h'
      have hreached := ht.direct (direct_array hregular component hs)
      refine (nominallyContains_array hregular).2 ⟨s, hs, ?_⟩
      rcases exists_of_mem_arraySupertypes hs with rfl | rfl | rfl <;>
        exact contains_trans_head hcoherent hregular hrooted hsecond hreached rfl h h'
  | var => cases hvar
  | wildcard => cases hwild

/-- What contains the name of an applied type contains what the applied type contains. -/
theorem contains_of_applied (hregular : context.env.Regular) (hrooted : context.env.Rooted)
    {head : Named} {raw : ClassName} {owner : Option Ty} {args : List Ty} {t : Ty} {name : String}
    (ht : t.Headed name) (h : context.NominallyContains head (.applied owner raw args))
    (h' : context.NominallyContains raw t) : context.NominallyContains head t := by
  have hheaded : (Ty.applied owner raw args).Headed raw.name := ⟨rfl, rfl⟩
  rw [nominallyContains_iff hregular hrooted ht] at h' ⊢
  rw [nominallyContains_iff hregular hrooted hheaded] at h
  exact h'.trans h

/-- What a type other than a wildcard accepts is no wildcard. -/
theorem Accepts.not_wildcard {receiver payload : Ty}
    (h : context.Accepts .covariant receiver payload)
    (hwild : receiver.isWildcard = false) : payload.isWildcard = false := by
  cases payload with
  | named | applied | array | var => rfl
  | wildcard upper lower => exact absurd (accepts_iff_rule.1 h) (rule_wildcard hwild)

/-- Variables need no thought: if what a receiver accepts is closed under acceptance among types
that are no variables, then it is closed under acceptance, since variables are accepted through
bounds. The types may be restricted to some that bounds belong to. -/
theorem accepts_trans_of_core (hcoherent : context.Coherent roots) {good : Ty → Prop}
    (hgood : ∀ {param bound}, context.Reached roots (.var param) →
      bound ∈ context.heap.bounds param → good bound)
    {receiver : Ty} (hreceiver : context.Reached roots receiver)
    (hwild : receiver.isWildcard = false)
    (hcore : ∀ {middle payload}, context.Reached roots middle → context.Reached roots payload →
      good middle → good payload → middle.isVar = false → payload.isVar = false →
      context.Accepts .covariant receiver middle → context.Accepts .covariant middle payload →
      context.Accepts .covariant receiver payload)
    {middle payload : Ty} (hmiddle : context.Reached roots middle)
    (hpayload : context.Reached roots payload) (hgood' : good middle) (hgood'' : good payload)
    (h : context.Accepts .covariant receiver middle)
    (h' : context.Accepts .covariant middle payload) :
    context.Accepts .covariant receiver payload := by
  -- on the height of the second derivation: a payload that is a variable gives way to its bound
  rw [accepts_iff_within] at h'
  obtain ⟨height, h'⟩ := h'
  induction height generalizing payload with
  | zero => cases h'
  | succ height ih =>
      cases hvar' : payload.isVar with
      | false =>
          cases hvar : middle.isVar with
          | false =>
              exact hcore hmiddle hpayload hgood' hgood'' hvar hvar' h
                (accepts_iff_within.2 ⟨_, h'⟩)
          | true =>
              obtain ⟨param, rfl⟩ := Ty.eq_var hvar
              exact absurd h' (rule_var hvar')
      | true =>
          obtain ⟨param, rfl⟩ := Ty.eq_var hvar'
          -- the receiver accepts a bound of the variable, which stands alone if both are variables
          have hwiden {bound : Ty} (hbound : bound ∈ context.heap.bounds param)
              (hnext : context.Within height .covariant middle bound)
              (halone : receiver.isVar = true → ∃ next, context.heap.bounds param = [.var next]) :
              context.Accepts .covariant receiver (.var param) := by
            have haccepts := ih (hpayload.bound hbound) (hgood hpayload hbound) hnext
            cases hvar : receiver.isVar with
            | false => exact accepts_iff_rule.2 (.widen hvar hwild hbound haccepts)
            | true =>
                obtain ⟨first, rfl⟩ := Ty.eq_var hvar
                obtain ⟨next, hbounds⟩ := halone hvar
                cases List.mem_singleton.1 (hbounds ▸ hbound)
                exact accepts_iff_rule.2 (.var_bound hbounds haccepts)
          cases hvar : middle.isVar with
          | true =>
              obtain ⟨between, rfl⟩ := Ty.eq_var hvar
              rcases rule_var_var.1 h' with heq | ⟨next, hbounds, hnext⟩
              · exact hcoherent.accepts (.refl hreceiver) ⟨hmiddle, hpayload, BEq.symm heq⟩ h
              · exact hwiden (hbounds ▸ List.mem_cons_self) hnext fun _ => ⟨next, hbounds⟩
          | false =>
              obtain ⟨bound, hbound, hnext⟩ := (rule_widen hvar (h.not_wildcard hwild)).1 h'
              refine hwiden hbound hnext fun hfirst => ?_
              obtain ⟨first, rfl⟩ := Ty.eq_var hfirst
              exact absurd (accepts_iff_rule.1 h) (rule_var hvar)

/-- What a name accepts is closed under acceptance. -/
theorem named_accepts_trans (hcoherent : context.Coherent roots) (hregular : context.env.Regular)
    (hrooted : context.env.Rooted) {head : Named} {middle payload : Ty}
    (hhead : context.Reached roots (.named head)) (hmiddle : context.Reached roots middle)
    (hpayload : context.Reached roots payload) (h : context.Accepts .covariant (.named head) middle)
    (h' : context.Accepts .covariant middle payload) :
    context.Accepts .covariant (.named head) payload := by
  refine accepts_trans_of_core hcoherent (fun _ _ => trivial) hhead rfl ?_ hmiddle hpayload trivial
    trivial h h'
  intro middle payload hmiddle hpayload _ _ hvar hvar' h h'
  have hwild := h.not_wildcard rfl
  have hwild' := h'.not_wildcard hwild
  have hcontains := (rule_named hvar hwild).1 (accepts_iff_rule.1 h)
  rw [accepts_iff_rule] at h' ⊢
  rw [rule_named hvar' hwild']
  cases middle with
  | named second =>
      exact contains_trans hcoherent hregular hrooted hmiddle hpayload hvar' hwild' hcontains
        ((rule_named hvar' hwild').1 h')
  | applied owner raw args =>
      cases payload with
      | named last =>
          obtain ⟨hcontains', hmatch⟩ := rule_applied_named.1 h'
          cases hprimitive : last.isPrimitive with
          | false =>
              exact contains_of_applied hregular hrooted ⟨rfl, hprimitive⟩ hcontains hcontains'
          | true =>
              rcases hmatch with ⟨_, _, _, hs, _⟩ | hraw
              · cases supertype_primitive hprimitive hs
              · cases hprimitive ▸ (Env.exists_of_isRaw hraw).1
      | applied owner' raw' args' =>
          exact contains_of_applied hregular hrooted ⟨rfl, rfl⟩ hcontains
            (rule_applied_applied.1 h').1
      | array component => exact absurd h' rule_applied_array
      | var => cases hvar'
      | wildcard => cases hwild'
  | array component =>
      cases payload with
      | named | applied => exact absurd h' (rule_array_head rfl)
      | array component' =>
          exact (nominallyContains_array hregular).2
            ((nominallyContains_array hregular).1 hcontains)
      | var => cases hvar'
      | wildcard => cases hwild'
  | var => cases hvar
  | wildcard => cases hwild

/-- Nominal assignability is transitive: without boxing, if a name accepts a second type and that
accepts a third, then the name accepts the third, whenever the three questions are answered. -/
theorem named_isAssignable_trans (hcoherent : context.Coherent roots)
    (hregular : context.env.Regular) (hrooted : context.env.Rooted) {a : Named} {b c : Ty}
    (ha : .named a ∈ roots) (hb : b ∈ roots) (hc : c ∈ roots) (boxing : Boxing) {answer : Bool}
    (hab : context.Answers roots boxing ⟨.covariant, false⟩ (.named a) b true)
    (hbc : context.Answers roots boxing ⟨.covariant, false⟩ b c true)
    (hac : context.Answers roots boxing ⟨.covariant, false⟩ (.named a) c answer) :
    answer = true := by
  rw [hac.iff_accepts hcoherent (.root ha) (.root hc)]
  have hfirst := (hab.iff_accepts hcoherent (.root ha) (.root hb)).1 rfl
  have hsecond := (hbc.iff_accepts hcoherent (.root hb) (.root hc)).1 rfl
  exact named_accepts_trans hcoherent hregular hrooted (.root ha) (.root hb) (.root hc) hfirst
    hsecond

section RawLists

/-- Lists without variables that have bounds. -/
def lists : Context := ⟨listEnv, ⟨#[.unbound, .unbound], []⟩, true⟩

/-- The wildcard for supertypes of strings. -/
def aboveString : Ty := .wildcard .top (some (.named ⟨"String", .classType, 0⟩))

/-- The types that are met when raw lists are compared with lists of supertypes of strings. -/
def listTypes : List Ty :=
  [.named list, .applied none arrayList [aboveString], .named arrayList,
    .applied none list [aboveString], aboveString, .named ⟨"String", .classType, 0⟩, .top]

/-- Lists are coherent. -/
theorem lists_coherent : lists.Coherent listTypes := by
  have hmem {t : Ty} (h : lists.Reached listTypes t) : t ∈ listTypes := by
    refine h.mem_of_closed (fun _ => id) ?_ ?_ ?_
    · simp [listTypes, Ty.parts, Ty.top, aboveString]
    · intro param hparam
      simp [listTypes, aboveString, Ty.top] at hparam
    · simp only [listTypes, List.forall_mem_cons]
      refine ⟨⟨[.top], ⟨1, rfl⟩, ?_⟩, ⟨[.applied none list [aboveString]], ⟨1, rfl⟩, ?_⟩,
        ⟨[.named list], ⟨1, rfl⟩, ?_⟩, ⟨[.top], ⟨1, rfl⟩, ?_⟩, ⟨[], ⟨1, rfl⟩, ?_⟩,
        ⟨[], ⟨1, rfl⟩, ?_⟩, ⟨[], ⟨1, rfl⟩, ?_⟩, List.forall_mem_nil _⟩ <;> simp
  constructor
  · intro first _ hfirst
    have hvar := hmem hfirst
    simp [listTypes, aboveString, Ty.top] at hvar
  · intro first second hfirst hsecond heq
    have hnamed {head : Named} (h : .named head ∈ listTypes) :
        head = list ∨ head = arrayList ∨ head = ⟨"String", .classType, 0⟩ ∨ head = .top := by
      simpa [listTypes, aboveString, Ty.top] using h
    rcases hnamed (hmem hfirst) with rfl | rfl | rfl | rfl <;>
      rcases hnamed (hmem hsecond) with rfl | rfl | rfl | rfl <;> first | rfl | cases heq

/-- Raw lists accept a class of lists with a lower bound for the members, which accepts the raw
class because it is raw. So raw lists accept the raw class. -/
theorem list_accepts_raw_arrayList :
    lists.Answers listTypes .empty ⟨.covariant, false⟩ (.named list)
        (.applied none arrayList [aboveString]) true ∧
      lists.Answers listTypes .empty ⟨.covariant, false⟩ (.applied none arrayList [aboveString])
        (.named arrayList) true ∧
      lists.Answers listTypes .empty ⟨.covariant, false⟩ (.named list) (.named arrayList) true := by
  have hanswers (receiver payload : Ty) (answer : Bool) (after : Trail)
      (h : lists.isAssignable 9 .empty ⟨.covariant, false⟩ receiver payload .empty =
        some (answer, after)) :
      lists.Answers listTypes .empty ⟨.covariant, false⟩ receiver payload answer :=
    ⟨9, .empty, after, memoSound_empty, h⟩
  have hfirst := hanswers (.named list) (.applied none arrayList [aboveString]) true _ rfl
  have hsecond := hanswers (.applied none arrayList [aboveString]) (.named arrayList) true _ rfl
  refine ⟨hfirst, hsecond, ?_⟩
  obtain ⟨answer, after, hrun⟩ : ∃ answer after, lists.isAssignable 9 .empty ⟨.covariant, false⟩
      (.named list) (.named arrayList) .empty = some (answer, after) := ⟨_, _, rfl⟩
  have hthird := hanswers (.named list) (.named arrayList) answer after hrun
  have hyes : answer = true := named_isAssignable_trans lists_coherent listEnv_regular
    listEnv_rooted (by simp [listTypes]) (by simp [listTypes]) (by simp [listTypes])
    .empty hfirst hsecond hthird
  exact hyes ▸ hthird

end RawLists

end Nominal.Context
