import Mathlib.Order.RelClasses
import Nominal.Proofs.BreadthFirst
import Nominal.Proofs.FiniteClosures

/-!
# What lies above a name or a variable

Where declared supertypes are names or applied types, a supertype of a type with a head is the type
itself, the universal supertype, or has a head above. So a name that accepts such a type is its
head or lies above it, and the arguments of an applied type are compared with those of another one
of the same name only if the latter is that type itself. A variable that accepts another one is
reached from it through bounds. Where neither chains of names nor chains of variables go round,
nothing lies above itself.
-/

namespace Nominal

open Query

/-! ## Names above names -/

namespace Context

variable {context : Context} {domain : Ty → Prop}

variable (context) in
/-- A chain of declared supertypes leads from one name up to another. -/
abbrev Above (below above : String) : Prop := Relation.TransGen context.env.Declares below above

/-- No name lies above itself where chains of declared names end. -/
theorem not_above_self (hchains : WellFounded fun above below => context.env.Declares below above)
    (name : String) : ¬ context.Above name name := by
  intro h
  have hswap := Relation.transGen_swap.2 h
  exact hchains.transGen.asymmetric _ _ hswap hswap

/-- A supertype of a type with a head is the type itself, or else the universal supertype or a type
whose head lies above. The universal supertype has no supertypes but itself. -/
theorem supertype_of_head (hheaded : context.env.Headed) {t s : Ty} {head : Named}
    (ht : t.head? = some head) (hs : context.Supertype t s) :
    s = t ∨ t.isTop = false ∧
      (s = .top ∨ ∃ above, s.head? = some above ∧ context.Above head.name above.name) := by
  induction hs with
  | refl => exact .inl rfl
  | @tail u v hu hdirect ih =>
      obtain ⟨types, htypes, hv⟩ := hdirect
      rcases ih with rfl | ⟨htop, rfl | ⟨above, habove, hchain⟩⟩
      · obtain ⟨known, hknown, hheads⟩ := exists_directs_of_head hheaded ht
        have htop : u.isTop = false := by
          by_contra hne
          cases u with
          | named other =>
              have hleaf : (other.isTop || other.isPrimitive) = true := by
                rw [Bool.or_eq_true]
                exact .inl (Bool.not_eq_false _ ▸ hne)
              cases (directs_leaf hleaf).1 htypes
              cases hv
          | applied | array | var | wildcard => exact hne rfl
        refine .inr ⟨htop, ?_⟩
        rcases hheads v (hknown.unique htypes ▸ hv) with rfl | ⟨above, habove, hdeclares⟩
        · exact .inl rfl
        · exact .inr ⟨above, habove, .single hdeclares⟩
      · cases (directs_leaf rfl).1 htypes
        cases hv
      · obtain ⟨known, hknown, hheads⟩ := exists_directs_of_head hheaded habove
        refine .inr ⟨htop, ?_⟩
        rcases hheads v (hknown.unique htypes ▸ hv) with rfl | ⟨next, hnext, hdeclares⟩
        · exact .inl rfl
        · exact .inr ⟨next, hnext, hchain.tail hdeclares⟩

/-- A name accepts a type with a head only if it is that name or lies above it, or is the universal
supertype. -/
theorem nominallyContains_head (hheaded : context.env.Headed) {payload : Ty} {head : Named}
    (hpayload : domain payload) (hhead : payload.head? = some head) (receiver : Named)
    (fuel : Nat) :
    Ensures (context.HoldsClosures domain) (context.nominallyContains fuel receiver payload)
      fun yes => yes = true → head.name = receiver.name ∨
        payload.isTop = false ∧
          (receiver.isTop = true ∨ context.Above head.name receiver.name) := by
  refine (supertypes_closure hpayload fuel).bind fun members hmembers => ?_
  obtain ⟨t', ht', heq, enough, hanswer⟩ := hmembers
  refine Ensures.mono (Decides.anyM fun t _ =>
    erased_named_decides context.heap receiver t fuel) fun yes hyes hsaid => ?_
  obtain ⟨member, hmember, found, herases, hfound⟩ := hyes.1 hsaid
  obtain ⟨head', hhead', hname⟩ := Ty.exists_head_congr heq hhead
  rw [Named.beq_iff.1 hname, ← Named.beq_iff.1 hfound, Ty.isTop_congr heq]
  rcases supertype_of_head hheaded hhead' ((closure_closureOf hanswer).reached member hmember) with
    rfl | ⟨htop, rfl | ⟨above, habove, hchain⟩⟩
  · cases (Ty.erases_head hhead').unique herases
    exact .inl rfl
  · cases erases_named.1 herases
    exact .inr ⟨htop, .inl (beq_iff_eq.2 (Named.beq_iff.1 hfound).symm)⟩
  · cases (Ty.erases_head habove).unique herases
    exact .inr ⟨htop, .inr hchain⟩

/-- A search that nothing satisfies says no. -/
theorem anyM_eq_no {check : Ty → Query Bool} {list : List Ty}
    (h : ∀ t ∈ list, check t = pure false) : list.anyM check = pure false := by
  induction list with
  | nil => rfl
  | cons t rest ih =>
      rw [List.forall_mem_cons] at h
      rw [List.anyM_cons, h.1, pure_bind]
      exact ih h.2

/-- A type with a head has a matching ancestor only if the name lies above that head, or if it is
itself an application of that name, up to equality, and its own arguments match. -/
theorem hasMatchingAncestor_yes (hheaded : context.env.Headed) {payload : Ty} {head : Named}
    (hpayload : domain payload) (hhead : payload.head? = some head)
    {check : Ty → Ty → Query Bool} {owner : Option Ty} {raw : ClassName} {args : List Ty}
    {fuel : Nat} {trail after : Trail} (hmemo : context.HoldsClosures domain trail.memo)
    (h : context.hasMatchingAncestor fuel check owner raw args payload trail = some (true, after)) :
    payload.isTop = false ∧ context.Above head.name raw.name ∨
      head.name = raw.name ∧ ∃ owner' raw' args' between, domain (.applied owner' raw' args') ∧
        (payload == .applied owner' raw' args') = true ∧
        context.HoldsClosures domain between.memo ∧
        sameArguments check owner owner' args args' between = some (true, after) := by
  obtain ⟨members, between, hmembers, hany⟩ := bind_some h
  obtain ⟨hbetween, t', ht', heq, enough, hanswer⟩ :=
    supertypes_closure hpayload fuel trail hmemo members between hmembers
  obtain ⟨head', hhead', hname⟩ := Ty.exists_head_congr heq hhead
  have hsearch := breadthFirst_closure hanswer
  obtain ⟨rest, rfl⟩ : ∃ rest, members = t' :: rest := List.head?_eq_some_iff.1 hsearch.first
  by_cases habove : payload.isTop = false ∧ context.Above head.name raw.name
  · exact .inl habove
  · -- no other member applies the name, so that the answer is that about the first one
    have hrest (member : Ty) (hmember : member ∈ rest) {owner' : Option Ty} {raw' : ClassName}
        {args' : List Ty} (happlied : member = .applied owner' raw' args') :
        ¬ (raw'.toNamed == raw) = true := by
      intro hraw
      subst happlied
      have hreached := (closure_closureOf hanswer).reached _ (List.mem_cons_of_mem _ hmember)
      rcases supertype_of_head hheaded hhead' hreached with
        hself | ⟨htop, htop' | ⟨above, hfound, hchain⟩⟩
      · have hdifferent := (List.pairwise_cons.1 hsearch.unequal).1 _ hmember
        rw [hself, BEq.rfl] at hdifferent
        cases hdifferent
      · cases htop'
      · cases Option.some.inj hfound
        rw [← Named.beq_iff.1 hname, Named.beq_iff.1 hraw] at hchain
        exact habove ⟨Ty.isTop_congr heq ▸ htop, hchain⟩
    rw [List.anyM_cons, @anyM_eq_no _ rest] at hany
    · obtain ⟨yes, last, hfirst, hlast⟩ := bind_some hany
      obtain ⟨rfl, rfl⟩ : yes = true ∧ last = after := by
        cases yes <;> cases hlast
        exact ⟨rfl, rfl⟩
      cases t' with
      | applied owner' raw' args' =>
          dsimp only at hfirst
          split at hfirst
          · rename_i hraw
            have hfound : raw' = head' := Option.some.inj hhead'
            have hsame : head.name = raw.name := by
              rw [Named.beq_iff.1 hname, ← hfound, Named.beq_iff.1 hraw]
            exact .inr ⟨hsame, owner', raw', args', between, ht', heq, hbetween, hfirst⟩
          · cases hfirst
      | named | array | var | wildcard => cases hfirst
    · intro member hmember
      cases member with
      | applied owner' raw' args' => exact if_neg (hrest _ hmember rfl)
      | named | array | var | wildcard => rfl

end Context

/-! ## Chains of variables -/

/-- The second variable is a bound of the first. -/
def Heap.BoundedBy (heap : Heap) (param bound : TypeVar) : Prop := .var bound ∈ heap.bounds param

/-- The search among variables finds a chain of bounds. -/
theorem variableAccepts_chain {keeps : Memo → Prop} (heap : Heap) (receiver : TypeVar) (fuel : Nat)
    (seen : List TypeVar) (payload : TypeVar) :
    Ensures keeps (variableAccepts heap receiver fuel seen payload) fun yes => yes = true →
      ∃ last, Relation.ReflTransGen heap.BoundedBy payload last ∧ (last == receiver) = true := by
  induction fuel generalizing seen payload with
  | zero => exact .exhausted
  | succ fuel ih =>
      rw [variableAccepts]
      split
      · rename_i hsame
        exact .pure fun _ => ⟨payload, .refl, hsame⟩
      · split
        · exact .pure fun hsaid => absurd hsaid Bool.false_ne_true
        · refine (Ensures.of_oblivious (Oblivious.bounds _ _)).bind fun bounds hbounds => ?_
          obtain rfl : heap.bounds payload = bounds := Option.some.inj hbounds
          split
          · rename_i next hsole
            refine (ih (payload :: seen) next).mono fun yes hyes hsaid => ?_
            obtain ⟨last, hchain, hsame⟩ := hyes hsaid
            have hnext : .var next ∈ heap.bounds payload := hsole ▸ List.mem_cons_self
            exact ⟨last, hchain.head hnext, hsame⟩
          · exact .pure fun hsaid => absurd hsaid Bool.false_ne_true

namespace Context

/-- A domain of types, closed under parts and under variables that are bounds, in which equal
variables share their bounds, equal names are raw uses together, as they are where no name is one or
where equal names share their kind, and no variable is bounded by itself, directly or through other
variables. -/
structure Acyclic (context : Context) (domain : Ty → Prop) : Prop where
  part : ∀ {t u}, domain t → u ∈ t.parts → domain u
  next : ∀ {param bound}, domain (.var param) → context.heap.BoundedBy param bound →
    domain (.var bound)
  bounds : ∀ {first second}, domain (.var first) → domain (.var second) →
    (first == second) = true → (context.heap.bounds first == context.heap.bounds second) = true
  raw : ∀ {first second}, domain (.named first) → domain (.named second) →
    (first == second) = true → context.env.isRaw (.named first) = context.env.isRaw (.named second)
  ends : ∀ {param last}, domain (.var param) →
    Relation.TransGen context.heap.BoundedBy param last → (param == last) = false

namespace Acyclic

variable {context : Context} {domain : Ty → Prop}

/-- Chains of bounds stay in the domain. -/
theorem chain (h : context.Acyclic domain) {param last : TypeVar} (hparam : domain (.var param))
    (hchain : Relation.ReflTransGen context.heap.BoundedBy param last) : domain (.var last) := by
  induction hchain with
  | refl => exact hparam
  | tail _ hnext ih => exact h.next ih hnext

/-- Equal variables have equal chains of bounds. -/
theorem chain_congr (h : context.Acyclic domain) {param param' last : TypeVar}
    (hparam : domain (.var param)) (hparam' : domain (.var param'))
    (heq : (param == param') = true)
    (hchain : Relation.ReflTransGen context.heap.BoundedBy param last) :
    ∃ last', Relation.ReflTransGen context.heap.BoundedBy param' last' ∧
      (last == last') = true := by
  induction hchain with
  | refl => exact ⟨param', .refl, heq⟩
  | tail hbefore hnext ih =>
      obtain ⟨middle, hmiddle, hequal⟩ := ih
      have hbounds := Ty.list_beq_iff.1
        (h.bounds (h.chain hparam hbefore) (h.chain hparam' hmiddle) hequal)
      obtain ⟨bound, hbound, hsame⟩ := hbounds.exists_mem hnext
      obtain ⟨last', rfl, hlast⟩ := Ty.var_beq hsame
      exact ⟨last', hmiddle.tail hbound, hlast⟩

/-- Variables that are reached from each other are equal. -/
theorem equal_of_chains (h : context.Acyclic domain) {first first' second second' : TypeVar}
    (hfirst' : domain (.var first')) (hsecond : domain (.var second))
    (heq : (first == first') = true) (heq' : (second == second') = true)
    (hchain : ∃ last, Relation.ReflTransGen context.heap.BoundedBy second last ∧
      (last == first) = true)
    (hchain' : ∃ last, Relation.ReflTransGen context.heap.BoundedBy first' last ∧
      (last == second') = true) : (first == second) = true := by
  obtain ⟨last, hchain, hlast⟩ := hchain
  obtain ⟨last', hchain', hlast'⟩ := hchain'
  rcases Relation.reflTransGen_iff_eq_or_transGen.1 hchain with rfl | hup
  · exact BEq.symm hlast
  · -- from the first variable the chain goes on to the second one, which closes a circle
    obtain ⟨end', hend, hequal⟩ := h.chain_congr hfirst' (h.chain hsecond hchain)
      (BEq.symm (BEq.trans hlast heq)) hchain'
    have hcircle := h.ends hsecond (hup.trans_left hend)
    rw [BEq.trans heq' (BEq.trans (BEq.symm hlast') hequal)] at hcircle
    cases hcircle

end Acyclic

end Context

end Nominal
