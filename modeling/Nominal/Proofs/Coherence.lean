import Nominal.Proofs.Supertypes

/-!
# Coherent types

Equal types can differ in the kinds of their names and in the cells of their variables, and then
their supertypes differ. `Reached` collects what an algorithm can come upon when it starts from
some types, and `Coherent` says that no two of those types differ in that way. Among coherent types
equality is a congruence: equal types have equal direct supertypes, equal supertypes and equal
erasures. So a closure that was memoized for one type serves for all equal ones.
-/

namespace Nominal

namespace Context

/-- The types that can be met when one starts from the given ones and goes on to parts, bounds and
direct supertypes. -/
inductive Reached (context : Context) (roots : List Ty) : Ty → Prop where
  | root {t : Ty} : t ∈ roots → Reached context roots t
  | part {t u : Ty} : Reached context roots t → u ∈ t.parts → Reached context roots u
  | bound {param : TypeVar} {bound : Ty} : Reached context roots (.var param) →
      bound ∈ context.heap.bounds param → Reached context roots bound
  | direct {t s : Ty} : Reached context roots t → context.Direct t s → Reached context roots s

/-- Among the types reached from the given ones, equal variables share their bounds and equal names
their kind. -/
structure Coherent (context : Context) (roots : List Ty) : Prop where
  bounds : ∀ {first second : TypeVar}, context.Reached roots (.var first) →
    context.Reached roots (.var second) → (first == second) = true →
    (context.heap.bounds first == context.heap.bounds second) = true
  kinds : ∀ {first second : Named}, context.Reached roots (.named first) →
    context.Reached roots (.named second) → (first == second) = true → first.kind = second.kind

variable {context : Context} {roots : List Ty}

/-- Supertypes of a type that is reached are reached. -/
theorem Reached.supertype {t s : Ty} (h : context.Reached roots t) (hs : context.Supertype t s) :
    context.Reached roots s := by
  induction hs with
  | refl => exact h
  | tail _ hdirect ih => exact ih.direct hdirect

/-- The arguments of an applied type that is reached are reached. -/
theorem Reached.arg {owner : Option Ty} {raw : ClassName} {args : List Ty} {arg : Ty}
    (h : context.Reached roots (.applied owner raw args)) (harg : arg ∈ args) :
    context.Reached roots arg :=
  h.part (List.mem_append_right _ harg)

/-- The owner of an applied type that is reached is reached. -/
theorem Reached.owner {owner : Option Ty} {raw : ClassName} {args : List Ty} {outer : Ty}
    (h : context.Reached roots (.applied owner raw args)) (houter : outer ∈ owner) :
    context.Reached roots outer :=
  h.part (List.mem_append_left _ (Option.mem_toList.2 houter))

/-- The component of an array that is reached is reached. -/
theorem Reached.component {component : Ty} (h : context.Reached roots (.array component)) :
    context.Reached roots component :=
  h.part (List.mem_singleton.2 rfl)

/-- The upper bound of a wildcard that is reached is reached. -/
theorem Reached.upper {upper : Ty} {lower : Option Ty}
    (h : context.Reached roots (.wildcard upper lower)) : context.Reached roots upper :=
  h.part List.mem_cons_self

/-- The lower bound of a wildcard that is reached is reached. -/
theorem Reached.lower {upper lower : Ty}
    (h : context.Reached roots (.wildcard upper (some lower))) :
    context.Reached roots lower :=
  h.part (List.mem_cons_of_mem _ (List.mem_singleton.2 rfl))

/-- What is reached has every property that the given types have and that goes over to the parts,
the bounds and the direct supertypes of a type. -/
theorem Reached.of_closed (holds : Ty → Prop) (hroots : ∀ t ∈ roots, holds t)
    (hparts : ∀ t, holds t → ∀ part ∈ t.parts, holds part)
    (hbounds : ∀ param, holds (.var param) → ∀ bound ∈ context.heap.bounds param, holds bound)
    (hdirects : ∀ t, holds t → ∃ types, context.Directs t types ∧ ∀ s ∈ types, holds s) {t : Ty}
    (h : context.Reached roots t) : holds t := by
  induction h with
  | root hroot => exact hroots _ hroot
  | part _ hpart ih => exact hparts _ ih _ hpart
  | bound _ hbound ih => exact hbounds _ ih _ hbound
  | direct _ hdirect ih =>
      obtain ⟨types, htypes, hmem⟩ := hdirect
      obtain ⟨known, hknown, hclosed⟩ := hdirects _ ih
      exact hclosed _ (htypes.unique hknown ▸ hmem)

/-- What is reached lies in every list that has the given types and with each type its parts, its
bounds and its direct supertypes. -/
theorem Reached.mem_of_closed {pool : List Ty} (hroots : ∀ t ∈ roots, t ∈ pool)
    (hparts : ∀ t ∈ pool, ∀ part ∈ t.parts, part ∈ pool)
    (hbounds : ∀ param, .var param ∈ pool → ∀ bound ∈ context.heap.bounds param, bound ∈ pool)
    (hdirects : ∀ t ∈ pool, ∃ types, context.Directs t types ∧ ∀ s ∈ types, s ∈ pool) {t : Ty}
    (h : context.Reached roots t) : t ∈ pool :=
  h.of_closed (· ∈ pool) hroots hparts hbounds hdirects

/-! ## Equal types have equal supertypes -/

/-- Names with one spelling and one kind have the same direct supertypes. -/
theorem directs_named_congr {first second : Named} (hname : first.name = second.name)
    (hkind : first.kind = second.kind) {types : List Ty}
    (h : context.Directs (.named first) types) :
    context.Directs (.named second) types := by
  -- the two differ in their arities alone, which are not looked at
  obtain ⟨name, kind, arity⟩ := first
  obtain ⟨name', kind', arity'⟩ := second
  cases hname
  cases hkind
  exact h

variable (context) in
/-- Equal arguments and owners give substitutions with equal values. -/
theorem related_argumentsOf (declaration : Declaration) {owner owner' : Option Ty}
    {args args' : List Ty} (howner : (owner == owner') = true) (hargs : Ty.Matches args args') :
    Substitution.Related (fun s t => (s == t) = true)
      (context.argumentsOf declaration owner args)
      (context.argumentsOf declaration owner' args') := by
  have hown := Substitution.related_ofArgs declaration hargs
  rcases Ty.option_beq howner with ⟨rfl, rfl⟩ | ⟨outer, outer', rfl, rfl, heq⟩
  · exact hown
  · cases outer with
    | applied outerOwner outerRaw outerArgs =>
        obtain ⟨_, raw', outerArgs', rfl, hraw, _, houter⟩ := Ty.applied_beq heq
        rw [argumentsOf, argumentsOf, Named.beq_iff.1 hraw]
        cases context.env.find? raw'.name with
        | none => exact hown
        | some enclosing => exact (Substitution.related_ofArgs enclosing houter).insertNew_all hown
    | named head =>
        obtain ⟨_, rfl, _⟩ := Ty.named_beq heq
        exact hown
    | array component =>
        obtain ⟨_, rfl, _⟩ := Ty.array_beq heq
        exact hown
    | var param =>
        obtain ⟨_, rfl, _⟩ := Ty.var_beq heq
        exact hown
    | wildcard upper lower =>
        obtain ⟨_, _, rfl, _, _⟩ := Ty.wildcard_beq heq
        exact hown

/-- Substitutions with equal values do the same to a list of types. -/
theorem substitute_all_congr {map map' : Substitution}
    (h : Substitution.Related (fun s t => (s == t) = true) map map') (types : List Ty) :
    Ty.Matches (types.map (fun t => t.substitute map)) (types.map (fun t => t.substitute map')) :=
  List.forall₂_map_left_iff.2 (List.forall₂_map_right_iff.2
    (List.forall₂_same.2 fun t _ => Ty.substitute_congr h t))

/-- Lists that match stay so when the universal supertype stands in for an empty one. -/
theorem orTop_congr {types types' : List Ty} (h : Ty.Matches types types') :
    Ty.Matches (orTop types) (orTop types') := by
  cases h with
  | nil => exact Ty.matches_refl _
  | cons hfirst hrest => exact .cons hfirst hrest

/-- Equal applied types have equal direct supertypes. -/
theorem directs_applied_congr {owner owner' : Option Ty} {raw raw' : ClassName}
    {args args' types : List Ty} (hraw : (raw.toNamed == raw') = true)
    (howner : (owner == owner') = true) (hargs : Ty.Matches args args')
    (h : context.Directs (.applied owner raw args) types) :
    ∃ types', context.Directs (.applied owner' raw' args') types' ∧ Ty.Matches types types' := by
  have hname := Named.beq_iff.1 hraw
  cases hfound : context.env.find? raw.name with
  | none =>
      rw [directs_applied_missing hfound] at h
      subst h
      exact ⟨[], (directs_applied_missing (hname ▸ hfound)).2 rfl, .nil⟩
  | some declaration =>
      rw [directs_applied hfound] at h
      subst h
      refine ⟨_, (directs_applied (hname ▸ hfound)).2 rfl, ?_⟩
      -- the same declaration, with substitutions whose values are equal
      have hdistinct := Ty.distinct_congr
        (substitute_all_congr (context.related_argumentsOf declaration howner hargs)
          declaration.supertypes)
      have htop : raw.isTop = raw'.isTop := by rw [Named.isTop, Named.isTop, hname]
      rw [htop]
      dsimp only
      split
      · exact hdistinct
      · exact orTop_congr hdistinct

/-- Equal types have equal direct supertypes. -/
theorem Coherent.directs (hcoherent : context.Coherent roots) {t t' : Ty} {types : List Ty}
    (ht : context.Reached roots t) (ht' : context.Reached roots t') (heq : (t == t') = true)
    (h : context.Directs t types) :
    ∃ types', context.Directs t' types' ∧ Ty.Matches types types' := by
  induction t using Ty.parts_induction generalizing t' types with
  | step t ih =>
      cases t with
      | named head =>
          obtain ⟨head', rfl, hhead⟩ := Ty.named_beq heq
          exact ⟨types,
            directs_named_congr (Named.beq_iff.1 hhead) (hcoherent.kinds ht ht' hhead) h,
            Ty.matches_refl types⟩
      | applied owner raw args =>
          obtain ⟨owner', raw', args', rfl, hraw, howner, hargs⟩ := Ty.applied_beq heq
          exact directs_applied_congr hraw howner hargs h
      | array component =>
          obtain ⟨component', rfl, hcomponent⟩ := Ty.array_beq heq
          obtain ⟨types, htypes, rfl⟩ := directs_array.1 h
          obtain ⟨types', htypes', hmatches⟩ :=
            ih component (List.mem_singleton.2 rfl) ht.component ht'.component hcomponent htypes
          refine ⟨_, directs_array.2 ⟨types', htypes', rfl⟩, ?_⟩
          refine List.rel_append ?_ (Ty.matches_refl _)
          exact List.forall₂_map_left_iff.2 (List.forall₂_map_right_iff.2 hmatches)
      | var param =>
          obtain ⟨param', rfl, hparam⟩ := Ty.var_beq heq
          rw [directs_var] at h
          subst h
          exact ⟨_, directs_var.2 rfl,
            Ty.distinct_congr (Ty.list_beq_iff.1 (hcoherent.bounds ht ht' hparam))⟩
      | wildcard upper lower =>
          obtain ⟨upper', lower', rfl, hupper, _⟩ := Ty.wildcard_beq heq
          obtain ⟨types', htypes', hmatches⟩ :=
            ih upper List.mem_cons_self ht.upper ht'.upper hupper (directs_wildcard.1 h)
          exact ⟨types', directs_wildcard.2 htypes', hmatches⟩

/-- Among the types of a domain, which has their direct supertypes too, equal types have equal sets
of direct supertypes. -/
structure Uniform (context : Context) (domain : Ty → Prop) : Prop where
  direct : ∀ {t s}, domain t → context.Direct t s → domain s
  directs : ∀ {t t' types}, domain t → domain t' → (t == t') = true → context.Directs t types →
    ∃ types', context.Directs t' types' ∧ ∀ s, types.contains s = types'.contains s

namespace Uniform

variable {domain : Ty → Prop}

/-- Supertypes of a type of the domain are in the domain. -/
theorem mem_domain (huniform : context.Uniform domain) {t s : Ty} (ht : domain t)
    (h : context.Supertype t s) : domain s := by
  induction h with
  | refl => exact ht
  | tail _ hdirect ih => exact huniform.direct ih hdirect

/-- What is a direct supertype of a type is one of every equal type, up to equality. -/
theorem exists_direct (huniform : context.Uniform domain) {t t' s : Ty} (ht : domain t)
    (ht' : domain t') (heq : (t == t') = true) (h : context.Direct t s) :
    ∃ s', context.Direct t' s' ∧ (s == s') = true := by
  obtain ⟨types, htypes, hs⟩ := h
  obtain ⟨types', htypes', hsame⟩ := huniform.directs ht ht' heq htypes
  have hcontains := hsame s
  rw [List.contains_iff_exists_mem_beq.2 ⟨s, hs, BEq.rfl⟩] at hcontains
  obtain ⟨s', hs', hequal⟩ := List.contains_iff_exists_mem_beq.1 hcontains.symm
  exact ⟨s', ⟨types', htypes', hs'⟩, hequal⟩

/-- Equal types have equal supertypes. -/
theorem supertype (huniform : context.Uniform domain) {t t' s : Ty} (ht : domain t)
    (ht' : domain t') (heq : (t == t') = true) (h : context.Supertype t s) :
    ∃ s', context.Supertype t' s' ∧ (s == s') = true := by
  induction h with
  | refl => exact ⟨t', .refl, heq⟩
  | tail hbefore hdirect ih =>
      obtain ⟨middle, hmiddle, hequal⟩ := ih
      obtain ⟨s', hs', hsame⟩ := huniform.exists_direct (huniform.mem_domain ht hbefore)
        (huniform.mem_domain ht' hmiddle) hequal hdirect
      exact ⟨s', hmiddle.tail hs', hsame⟩

/-- The closure of an equal type has all supertypes of a type, up to equality. -/
theorem exists_mem (huniform : context.Uniform domain) {t t' s : Ty} {members : List Ty}
    (ht : domain t) (ht' : domain t') (heq : (t == t') = true) (h : context.ClosureOf t' members)
    (hs : context.Supertype t s) : ∃ member ∈ members, (s == member) = true := by
  induction hs with
  | refl => exact ⟨t', h.self, heq⟩
  | tail hbefore hdirect ih =>
      obtain ⟨member, hmember, hequal⟩ := ih
      obtain ⟨next, ⟨types, htypes, hnext⟩, hequal'⟩ :=
        huniform.exists_direct (huniform.mem_domain ht hbefore)
          (huniform.mem_domain ht' (h.reached member hmember)) hequal hdirect
      obtain ⟨followed, hfollowed, hcontains⟩ := h.followed member hmember
      obtain ⟨last, hlast, hequal''⟩ := List.contains_iff_exists_mem_beq.1
        (hcontains next (htypes.unique hfollowed ▸ hnext))
      exact ⟨last, hlast, BEq.trans hequal' hequal''⟩

end Uniform

/-- Coherent types have equal direct supertypes where they are equal. -/
theorem Coherent.uniform (hcoherent : context.Coherent roots) :
    context.Uniform (context.Reached roots) where
  direct ht hdirect := ht.direct hdirect
  directs ht ht' heq h := by
    obtain ⟨types', htypes', hmatches⟩ := hcoherent.directs ht ht' heq h
    exact ⟨types', htypes', fun s => Ty.contains_matches hmatches BEq.rfl⟩

/-! ## Equal types have equal erasures -/

/-- Lists of equal variables have equal members. -/
theorem contains_var_congr {seen seen' : List TypeVar} {param param' : TypeVar}
    (hseen : List.Forall₂ (fun first second => (first == second) = true) seen seen')
    (hparam : (param == param') = true) : seen.contains param = seen'.contains param' := by
  induction hseen with
  | nil => rfl
  | cons hfirst _ ih =>
      rw [List.contains_cons, List.contains_cons, ih, BEq.congr_left hparam, BEq.congr_right hfirst]

/-- A list that contains a variable contains every equal one. -/
theorem contains_of_beq {seen : List TypeVar} {param param' : TypeVar}
    (hparam : (param == param') = true) (h : seen.contains param = true) :
    seen.contains param' = true :=
  (contains_var_congr (List.forall₂_same.2 fun _ _ => BEq.rfl) hparam).symm.trans h

/-- Erasing related types, reached through equal variables, gives equal types, if the bounds of
related variables are related. -/
theorem erases_congr {heap heap' : Heap} {related : Ty → Ty → Prop}
    (hcongruent : Ty.Congruent related)
    (hbounds : ∀ {param param'}, related (.var param) (.var param') →
      List.Forall₂ related (heap.bounds param) (heap'.bounds param'))
    {seen seen' : List TypeVar} {t t' erased : Ty} (ht : related t t')
    (hseen : List.Forall₂ (fun first second => (first == second) = true) seen seen')
    (h : Erases heap seen t erased) :
    ∃ erased', Erases heap' seen' t' erased' ∧ (erased == erased') = true := by
  obtain ⟨fuel, hanswer⟩ := h
  -- on the number of steps, since bounds of variables are not parts of the type
  induction fuel generalizing seen seen' t t' erased with
  | zero => cases hanswer
  | succ fuel ih =>
      cases t with
      | named head =>
          obtain ⟨head', rfl, hhead⟩ := hcongruent.named ht
          cases Option.some.inj hanswer
          exact ⟨.named head', erases_named.2 rfl, hhead⟩
      | applied owner raw args =>
          obtain ⟨_, raw', _, rfl, hraw, _⟩ := hcongruent.applied ht
          cases Option.some.inj hanswer
          exact ⟨.named raw', erases_applied.2 rfl, hraw⟩
      | array component =>
          obtain ⟨component', rfl, hcomponent⟩ := hcongruent.array ht
          rw [erase_along_array] at hanswer
          obtain ⟨inner, hinner, rfl⟩ := Option.map_eq_some_iff.1 hanswer
          obtain ⟨inner', herases, hequal⟩ := ih hcomponent .nil hinner
          exact ⟨.array inner', erases_array.2 ⟨inner', herases, rfl⟩, hequal⟩
      | wildcard upper lower =>
          obtain ⟨upper', lower', rfl, _, _⟩ := Ty.wildcard_beq (hcongruent.equal ht)
          have hparts := hcongruent.parts ht
          cases hparts with
          | cons hupper _ =>
              obtain ⟨erased', herases, hequal⟩ := ih hupper .nil hanswer
              exact ⟨erased', erases_wildcard.2 herases, hequal⟩
      | var param =>
          obtain ⟨param', rfl, hparam⟩ := hcongruent.var ht
          have hbounds := hbounds ht
          cases hcontains : seen.contains param with
          | true =>
              rw [erase_along_seen hcontains] at hanswer
              cases Option.some.inj hanswer
              rw [contains_var_congr hseen hparam] at hcontains
              exact ⟨.top, (erases_seen hcontains).2 rfl, BEq.rfl⟩
          | false =>
              have hcontains' := contains_var_congr hseen hparam ▸ hcontains
              rw [erase_along_fresh hcontains] at hanswer
              cases hfirst : heap.bounds param with
              | nil =>
                  rw [hfirst] at hanswer hbounds
                  cases Option.some.inj hanswer
                  have hnone := List.forall₂_nil_left_iff.1 hbounds
                  exact ⟨.top, (erases_unbounded hcontains' (by rw [hnone]; rfl)).2 rfl, BEq.rfl⟩
              | cons bound rest =>
                  rw [hfirst] at hanswer hbounds
                  obtain ⟨bound', rest', hbound, _, hfirst'⟩ := List.forall₂_cons_left_iff.1 hbounds
                  obtain ⟨erased', herases, hequal⟩ := ih hbound (.cons hparam hseen) hanswer
                  exact ⟨erased', (erases_fresh hcontains' (by rw [hfirst']; rfl)).2 herases,
                    hequal⟩

/-- Two equal types that are reached from the given ones. -/
structure Twins (context : Context) (roots : List Ty) (t t' : Ty) : Prop where
  left : context.Reached roots t
  right : context.Reached roots t'
  equal : (t == t') = true

namespace Twins

/-- A type that is reached is its own twin. -/
theorem refl {t : Ty} (h : context.Reached roots t) : context.Twins roots t t := ⟨h, h, BEq.rfl⟩

/-- Members of equal lists are twins when they are reached. -/
theorem of_matches {types types' : List Ty} (h : Ty.Matches types types')
    (hleft : ∀ t ∈ types, context.Reached roots t)
    (hright : ∀ t ∈ types', context.Reached roots t) :
    List.Forall₂ (context.Twins roots) types types' :=
  (h.within hleft hright).imp fun _ _ h => ⟨h.1, h.2.1, h.2.2⟩

/-- Twins have twins for parts. -/
theorem congruent : Ty.Congruent (context.Twins roots) where
  equal h := h.equal
  parts h := of_matches (Ty.matches_parts h.equal) (fun _ => h.left.part) (fun _ => h.right.part)

end Twins

/-- The bounds of twins are twins. -/
theorem Coherent.twins_bounds (hcoherent : context.Coherent roots) {param param' : TypeVar}
    (h : context.Twins roots (.var param) (.var param')) :
    List.Forall₂ (context.Twins roots) (context.heap.bounds param) (context.heap.bounds param') :=
  Twins.of_matches (Ty.list_beq_iff.1 (hcoherent.bounds h.left h.right h.equal))
    (fun _ => h.left.bound) (fun _ => h.right.bound)

/-- Equal types that were reached through equal variables have equal erasures. -/
theorem Coherent.erases (hcoherent : context.Coherent roots) {seen seen' : List TypeVar}
    {t t' erased : Ty} (ht : context.Reached roots t) (ht' : context.Reached roots t')
    (hseen : List.Forall₂ (fun first second => (first == second) = true) seen seen')
    (heq : (t == t') = true) (h : Erases context.heap seen t erased) :
    ∃ erased', Erases context.heap seen' t' erased' ∧ (erased == erased') = true :=
  erases_congr Twins.congruent hcoherent.twins_bounds ⟨ht, ht', heq⟩ hseen h

end Context

end Nominal
