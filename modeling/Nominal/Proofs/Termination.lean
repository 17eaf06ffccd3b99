import Nominal.Proofs.Decision
import Nominal.Proofs.FormedBounds
import Nominal.Proofs.PlainTypes

/-!
# Comparisons that end

Some questions have no answer: closures may be infinite, and lower bounds make a comparison turn
round. Where all closures are finite and the receiver has no lower bounds, every comparison ends.
Its receiver only gets smaller, except where a variable is replaced by its bounds. Such walks along
variables end because the heap has finitely many variables as bounds and none is followed twice
(`walk_induction`). Erasure walks so too, until it ends or comes to an array, behind which it starts
afresh (`Heap.leadsTo_or_erases`).
-/

namespace Nominal

/-! ## Walks along variables -/

/-- All types that stand as bounds in the heap. -/
def Heap.boundTypes (heap : Heap) : List Ty :=
  heap.slots.toList.flatMap fun
    | .bound bounds => bounds
    | _ => []

/-- What readers see as a bound stands in the heap, apart from the universal supertype. -/
theorem Heap.eq_top_or_mem_boundTypes {heap : Heap} {cell : CellId} {bound : Ty}
    (h : bound ∈ heap.boundsAt cell) : bound = .top ∨ bound ∈ heap.boundTypes := by
  rw [boundsAt, slot] at h
  cases hslot : heap.slots[cell]? with
  | none =>
      rw [hslot] at h
      exact .inl (List.mem_singleton.1 h)
  | some content =>
      rw [hslot] at h
      cases content with
      | bound bounds =>
          have hcontent := Array.mem_toList_iff.2 (Array.mem_of_getElem? hslot)
          exact .inr (List.mem_flatMap.2 ⟨.bound bounds, hcontent, h⟩)
      | unbound | released => exact .inl (List.mem_singleton.1 h)

/-- A variable that is a bound stands in the heap. -/
theorem Heap.mem_boundTypes {heap : Heap} {param next : TypeVar}
    (h : .var next ∈ heap.bounds param) : .var next ∈ heap.boundTypes := by
  rcases eq_top_or_mem_boundTypes h with heq | hmem
  · cases heq
  · exact hmem

/-- The number of variables in a list that have not been seen. -/
def unseen (pool : List Ty) (seen : TypeVar → Bool) : Nat :=
  pool.countP fun
    | .var param => !seen param
    | _ => false

/-- Seeing a variable of the list leaves fewer. -/
theorem unseen_lt {pool : List Ty} {seen seen' : TypeVar → Bool} {param : TypeVar}
    (hparam : .var param ∈ pool) (hle : ∀ other, seen other = true → seen' other = true)
    (hseen : seen param = false) (hseen' : seen' param = true) :
    unseen pool seen' < unseen pool seen := by
  have hmono (list : List Ty) : unseen list seen' ≤ unseen list seen := by
    refine List.countP_mono_left fun t _ ht => ?_
    cases t with
    | var other =>
        rw [Bool.not_eq_true'] at ht ⊢
        exact Bool.eq_false_iff.2 fun hother => Bool.eq_false_iff.1 ht (hle other hother)
    | named | applied | array | wildcard => exact ht
  obtain ⟨before, after, rfl⟩ := List.append_of_mem hparam
  have hbefore := hmono before
  have hafter := hmono after
  simp only [unseen, List.countP_append, List.countP_cons, hseen, hseen', Bool.not_true,
    Bool.not_false, Bool.false_eq_true, if_true, if_false] at hbefore hafter ⊢
  omega

/-- Induction along variables and their bounds: a step may rely on what holds of the variables
among the bounds, once the variable itself counts as seen and was not seen before. -/
theorem walk_induction (heap : Heap) {σ : Type} (seen : σ → TypeVar → Bool)
    {motive : σ → TypeVar → Prop}
    (step : ∀ state param,
      (∀ state' next, .var next ∈ heap.bounds param → seen state param = false →
        seen state' param = true → (∀ other, seen state other = true → seen state' other = true) →
        motive state' next) → motive state param) (state : σ) (param : TypeVar) :
    motive state param := by
  suffices h : ∀ count state other, .var other ∈ .var param :: heap.boundTypes →
      unseen (.var param :: heap.boundTypes) (seen state) = count → motive state other from
    h _ state param List.mem_cons_self rfl
  -- on the number of variables in the pool that have not been seen
  intro count
  induction count using Nat.strongRecOn with
  | ind count ih =>
      intro state other hother hcount
      refine step state other fun state' next hnext hseen hseen' hle => ?_
      exact ih _ (hcount ▸ unseen_lt hother hle hseen hseen') state' next
        (List.mem_cons_of_mem _ (Heap.mem_boundTypes hnext)) rfl

/-! ## Erasure -/

namespace Ty

/-- How many arrays a type is nested in. -/
def arrayDepth : Ty → Nat
  | .array component => component.arrayDepth + 1
  | .wildcard upper _ => upper.arrayDepth
  | _ => 0

/-- Equal types are nested in as many arrays. -/
theorem arrayDepth_congr {s t : Ty} (h : (s == t) = true) : s.arrayDepth = t.arrayDepth := by
  induction s using parts_induction generalizing t with
  | step s ih =>
      cases s with
      | named head =>
          obtain ⟨_, rfl, _⟩ := named_beq h
          rfl
      | applied owner raw args =>
          obtain ⟨_, _, _, rfl, _⟩ := applied_beq h
          rfl
      | array component =>
          obtain ⟨_, rfl, hcomponent⟩ := array_beq h
          exact congrArg (· + 1) (ih component (List.mem_singleton.2 rfl) hcomponent)
      | var param =>
          obtain ⟨_, rfl, _⟩ := var_beq h
          rfl
      | wildcard upper lower =>
          obtain ⟨_, _, rfl, hupper, _⟩ := wildcard_beq h
          exact (ih upper List.mem_cons_self hupper : upper.arrayDepth = _)

/-- Finitely many types have the property, up to equality. -/
def FinitelyMany (holds : Ty → Prop) : Prop :=
  ∃ pool : List Ty, ∀ t, holds t → ∃ p ∈ pool, (t == p) = true

end Ty

namespace Heap

/-- Erasing a type that was reached through the variables in `seen` comes to an array with the given
component. -/
inductive LeadsTo (heap : Heap) (component : Ty) : List TypeVar → Ty → Prop where
  | array {seen : List TypeVar} : LeadsTo heap component seen (.array component)
  | wildcard {seen : List TypeVar} {upper : Ty} {lower : Option Ty} :
      LeadsTo heap component [] upper → LeadsTo heap component seen (.wildcard upper lower)
  | var {seen : List TypeVar} {param : TypeVar} {bound : Ty} :
      seen.contains param = false → (heap.bounds param).head? = some bound →
      LeadsTo heap component (param :: seen) bound → LeadsTo heap component seen (.var param)

variable {heap : Heap} {seen : List TypeVar} {t component erased : Ty}

/-- Where an array is reached, its component has to be erased. -/
theorem LeadsTo.erases_iff (h : heap.LeadsTo component seen t) :
    Erases heap seen t erased ↔
      ∃ inner, Erases heap [] component inner ∧ erased = .array inner := by
  induction h with
  | array => exact erases_array
  | wildcard _ ih => exact erases_wildcard.trans ih
  | var hseen hbound _ ih => exact (erases_fresh hseen hbound).trans ih

/-- Where no array is reached, erasure ends with a name. -/
theorem leadsTo_or_erases (hformed : heap.Formed) (seen : List TypeVar) (t : Ty) :
    (∃ component, heap.LeadsTo component seen t) ∨ ∃ head, Erases heap seen t (.named head) := by
  have hvar (seen : List TypeVar) (param : TypeVar) :
      (∃ component, heap.LeadsTo component seen (.var param)) ∨
        ∃ head, Erases heap seen (.var param) (.named head) := by
    induction seen, param using walk_induction heap List.contains with
    | step seen param ih =>
        cases hseen : seen.contains param with
        | true => exact .inr ⟨_, (erases_seen hseen).2 rfl⟩
        | false =>
            cases hbound : (heap.bounds param).head? with
            | none => exact .inr ⟨_, (erases_unbounded hseen hbound).2 rfl⟩
            | some bound =>
                simp only [erases_fresh hseen hbound]
                have hmem := List.mem_of_head? hbound
                cases bound with
                | named head => exact .inr ⟨_, erases_named.2 rfl⟩
                | applied owner raw args => exact .inr ⟨_, erases_applied.2 rfl⟩
                | array component => exact .inl ⟨component, .var hseen hbound .array⟩
                | var next =>
                    refine (ih (param :: seen) next hmem hseen (by simp)
                      (by simp +contextual)).imp_left ?_
                    rintro ⟨component, h⟩
                    exact ⟨component, .var hseen hbound h⟩
                -- bounds are no wildcards, behind which the variables seen so far are forgotten
                | wildcard => cases ((hformed param.cell).reference _ hmem).2
  induction t using Ty.parts_induction generalizing seen with
  | step t ih =>
      cases t with
      | named head => exact .inr ⟨_, erases_named.2 rfl⟩
      | applied owner raw args => exact .inr ⟨_, erases_applied.2 rfl⟩
      | array component => exact .inl ⟨component, .array⟩
      | var param => exact hvar seen param
      | wildcard upper lower =>
          simp only [erases_wildcard]
          refine (ih upper List.mem_cons_self []).imp_left ?_
          rintro ⟨component, h⟩
          exact ⟨component, .wildcard h⟩

end Heap

namespace Context

variable {context : Context} {roots : List Ty}

variable (context) in
/-- The closure of the type is found with some number of steps. -/
def FiniteClosure (t : Ty) : Prop := ∃ fuel members, (context.closure fuel t).answer = some members

variable (context) in
/-- The type has finitely many supertypes up to equality. Where equal types have equal direct
supertypes, it is enough that its closure is found (`FiniteClosure.finitelyAbove`). -/
def FinitelyAbove (t : Ty) : Prop := Ty.FinitelyMany (context.Supertype t)

/-- A finite closure covers the supertypes of the type. -/
theorem FiniteClosure.finitelyAbove {domain : Ty → Prop} (huniform : context.Uniform domain)
    {t : Ty} (ht : domain t) (h : context.FiniteClosure t) : context.FinitelyAbove t := by
  obtain ⟨fuel, members, hanswer⟩ := h
  exact ⟨members, fun s => huniform.exists_mem ht ht BEq.rfl (closure_closureOf hanswer)⟩

namespace FinitelyAbove

/-- What lies above a supertype lies above the type. -/
theorem supertype {t s : Ty} (h : context.FinitelyAbove t) (hs : context.Supertype t s) :
    context.FinitelyAbove s := by
  obtain ⟨pool, hpool⟩ := h
  exact ⟨pool, fun u hu => hpool u (hs.trans hu)⟩

/-- Finitely many supertypes are nested in boundedly many arrays. -/
theorem exists_depth {t : Ty} (h : context.FinitelyAbove t) :
    ∃ depth, ∀ s, context.Supertype t s → s.arrayDepth ≤ depth := by
  obtain ⟨pool, hpool⟩ := h
  obtain ⟨p, hp, _⟩ := hpool t .refl
  have hself := List.mem_map_of_mem (f := Ty.arrayDepth) hp
  refine ⟨(pool.map Ty.arrayDepth).max (List.ne_nil_of_mem hself), fun s hs => ?_⟩
  obtain ⟨member, hmember, heq⟩ := hpool s hs
  rw [Ty.arrayDepth_congr heq]
  exact List.le_max_of_mem (List.mem_map_of_mem hmember)

end FinitelyAbove

/-- The supertypes of a type with a finite closure are nested in boundedly many arrays. -/
theorem FiniteClosure.exists_depth {domain : Ty → Prop} (huniform : context.Uniform domain)
    {t : Ty} (ht : domain t) (h : context.FiniteClosure t) :
    ∃ depth, ∀ s, context.Supertype t s → s.arrayDepth ≤ depth :=
  (h.finitelyAbove huniform ht).exists_depth

/-- Arrays follow the supertypes of their components. -/
theorem supertype_array_of_component {component s : Ty} (h : context.Supertype component s) :
    context.Supertype (.array component) (.array s) := by
  refine Relation.ReflTransGen.lift Ty.array (fun t u hdirect => ?_) _ _ h
  obtain ⟨types, htypes, hu⟩ := hdirect
  exact ⟨_, directs_array.2 ⟨types, htypes, rfl⟩, List.mem_append_left _ (List.mem_map_of_mem hu)⟩

/-- The first bound of a variable is a direct supertype of it. -/
theorem direct_first_bound {param : TypeVar} {bound : Ty}
    (h : (context.heap.bounds param).head? = some bound) : context.Direct (.var param) bound := by
  refine ⟨_, directs_var.2 rfl, ?_⟩
  obtain ⟨rest, hbounds⟩ := List.head?_eq_some_iff.1 h
  rw [hbounds, Ty.distinct_eq_addNew, Ty.addNew_cons]
  exact (Ty.prefix_addNew _ rest).subset (List.mem_singleton.2 rfl)

/-- Above a type that leads to an array, supertypes are nested deeper than above its component. -/
theorem exists_supertype_of_leadsTo {seen : List TypeVar} {t component s : Ty}
    (h : context.heap.LeadsTo component seen t) (hs : context.Supertype component s) :
    ∃ above, context.Supertype t above ∧ s.arrayDepth < above.arrayDepth := by
  induction h with
  | array => exact ⟨.array s, supertype_array_of_component hs, Nat.lt_succ_self _⟩
  | @wildcard _ upper lower _ ih =>
      obtain ⟨above, habove, hlt⟩ := ih
      -- the upper bound is no supertype of the wildcard, but is nested as deep as the wildcard
      rcases habove.cases_head with rfl | ⟨u, hdirect, hrest⟩
      · exact ⟨.wildcard upper lower, .refl, hlt⟩
      · exact ⟨above, .head hdirect hrest, hlt⟩
  | var _ hbound _ ih =>
      obtain ⟨above, habove, hlt⟩ := ih
      exact ⟨above, .head (direct_first_bound hbound) habove, hlt⟩

/-- Erasure ends if the supertypes are nested in boundedly many arrays: behind each array that it
comes to, they are nested less. -/
theorem exists_erases (hformed : context.heap.Formed) (depth : Nat) {t : Ty}
    (h : ∀ s, context.Supertype t s → s.arrayDepth ≤ depth) (seen : List TypeVar) :
    ∃ erased, Erases context.heap seen t erased := by
  induction depth using Nat.strongRecOn generalizing t seen with
  | ind depth ih =>
      rcases Heap.leadsTo_or_erases hformed seen t with ⟨component, hleads⟩ | ⟨head, hhead⟩
      · have hless (s : Ty) (hs : context.Supertype component s) : s.arrayDepth < depth := by
          obtain ⟨above, habove, hlt⟩ := exists_supertype_of_leadsTo hleads hs
          exact Nat.lt_of_lt_of_le hlt (h above habove)
        have hself := hless component .refl
        obtain ⟨erased, herased⟩ := ih (depth - 1) (by omega) (fun s hs => by
          have hs' := hless s hs
          omega) []
        exact ⟨.array erased, hleads.erases_iff.2 ⟨erased, herased, rfl⟩⟩
      · exact ⟨.named head, hhead⟩

/-! ## Supertypes -/

open Query

variable (context roots) in
/-- Bounds have been checked, and the closures of all types that are reached are finite. -/
structure FiniteHierarchy : Prop where
  formed : context.heap.Formed
  closures : ∀ {t}, context.Reached roots t → context.FiniteClosure t

/-- The supertypes of a type are found if its closure is finite: the closure of an equal type where
that is memoized, and otherwise its own. -/
theorem supertypes_halts_closure {domain : Ty → Prop} {t : Ty} (ht : domain t)
    (hfinite : context.FiniteClosure t) :
    Halts (context.HoldsClosures domain) (fun fuel => context.supertypes fuel t)
      (fun members => ∃ t', domain t' ∧ (t == t') = true ∧
        ∃ enough, (context.closure enough t').answer = some members) := by
  intro trail hmemo
  obtain ⟨enough, members, hanswer⟩ := hfinite
  obtain ⟨t', found, heq, ⟨ht', hclosure⟩, _, after, hafter, hrun⟩ :=
    supertypes_answers hanswer ⟨ht, enough, hanswer⟩ hmemo
  exact ⟨found, after, hafter, ⟨t', ht', heq, hclosure⟩, hrun⟩

/-- What is found for a type is the closure of an equal type. -/
theorem supertypes_halts {domain : Ty → Prop} {t : Ty} (ht : domain t)
    (hfinite : context.FiniteClosure t) :
    Halts (context.HoldsClosures domain) (fun fuel => context.supertypes fuel t)
      (fun members => ∃ t', domain t' ∧ (t == t') = true ∧ context.ClosureOf t' members) := by
  refine (supertypes_halts_closure ht hfinite).mono fun members hmembers => ?_
  obtain ⟨t', ht', heq, _, hanswer⟩ := hmembers
  exact ⟨t', ht', heq, closure_closureOf hanswer⟩

variable (context) in
/-- The memo holds closures, and what is equal to a type of the given sort has a closure in it only
if it is of that sort too. -/
def MemoRespects (sort : Ty → Prop) : Memo → Prop :=
  context.HoldsClosures fun t' => ∀ t, sort t → (t == t') = true → sort t'

/-- An empty memo respects every sort of types. -/
theorem memoRespects_empty (sort : Ty → Prop) : context.MemoRespects sort Trail.empty.memo :=
  holdsClosures_empty _

/-- What is found for a type of some sort is the closure of an equal type of that sort, where the
memo respects it. -/
theorem supertypes_halts_sort {sort : Ty → Prop} {t : Ty} (ht : sort t)
    (hfinite : context.FiniteClosure t) :
    Halts (context.MemoRespects sort) (fun fuel => context.supertypes fuel t)
      (fun members => ∃ t', sort t' ∧ (t == t') = true ∧
        ∃ enough, (context.closure enough t').answer = some members) := by
  have hdomain : ∀ other, sort other → (other == t) = true → sort t := fun _ _ _ => ht
  refine (supertypes_halts_closure hdomain hfinite).mono fun members hmembers => ?_
  obtain ⟨t', ht', heq, hanswer⟩ := hmembers
  exact ⟨t', ht' t ht heq, heq, hanswer⟩

/-- Among coherent types, the supertypes that are found are those of the type. -/
theorem supertypes_represent (hcoherent : context.Coherent roots) {t : Ty}
    (ht : context.Reached roots t) (hfinite : context.FiniteClosure t) :
    Halts (context.MemoSound roots) (fun fuel => context.supertypes fuel t)
      (context.Represents roots t) := by
  refine Halts.mono (supertypes_halts ht hfinite) fun members hmembers => ?_
  obtain ⟨t', ht', heq, hclosure⟩ := hmembers
  exact hcoherent.represents ht ht' heq hclosure

/-- What a type erases to is found if its erasure ends. -/
theorem erase_halts {keeps : Memo → Prop} {heap : Heap} {t erased : Ty}
    (h : Erases heap [] t erased) :
    Halts keeps (fun fuel => erase heap fuel t) fun found => found = erased := by
  obtain ⟨enough, hanswer⟩ := h
  exact .of_oblivious (erase_along_oblivious heap enough [] t)
    (fun fuel hfuel => erase_along_mono heap [] t hfuel) hanswer

/-- The name that a type erases to is found if its erasure ends. -/
theorem erasedNamed_halts {keeps : Memo → Prop} {heap : Heap} {t erased : Ty}
    (h : Erases heap [] t erased) :
    Halts keeps (fun fuel => erasedNamed? heap fuel t) fun found => found = erased.asNamed? := by
  refine (erase_halts h).bind fun other hother => .pure ?_
  rw [hother]

/-- Nominal containment is decided where closures are finite. -/
theorem nominallyContains_terminates (hcoherent : context.Coherent roots)
    (hfinite : context.FiniteHierarchy roots) {payload : Ty}
    (hpayload : context.Reached roots payload) (head : Named) :
    Terminates (context.MemoSound roots)
      (fun fuel => context.nominallyContains fuel head payload) := by
  refine (supertypes_represent hcoherent hpayload (hfinite.closures hpayload)).bind
    fun members hmembers => ?_
  refine Terminates.anyM fun member hmember => ?_
  have hreached := hmembers.reached member hmember
  obtain ⟨depth, hdepth⟩ := (hfinite.closures hreached).exists_depth hcoherent.uniform hreached
  obtain ⟨erased, herased⟩ := exists_erases hfinite.formed depth hdepth []
  exact (erasedNamed_halts herased).bind fun _ _ => .pure trivial

/-! ## Comparisons -/

/-- Looking for a variable among the bounds of another ends. -/
theorem variableAccepts_terminates {keeps : Memo → Prop} (heap : Heap) (param : TypeVar)
    (seen : List TypeVar) (param' : TypeVar) :
    Terminates keeps fun fuel => variableAccepts heap param fuel seen param' := by
  induction seen, param' using walk_induction heap List.contains with
  | step seen param' ih =>
      refine .step ?_
      simp only [variableAccepts]
      cases param' == param with
      | true => exact .pure trivial
      | false =>
          cases hseen : seen.contains param' with
          | true => exact .pure trivial
          | false =>
              refine (Halts.of_answer (Oblivious.bounds heap param')
                (answer_bounds heap param')).bind
                fun bounds heq => ?_
              split
              · rename_i next
                exact ih (param' :: seen) next (heq ▸ List.mem_cons_self) hseen (by simp)
                  (by simp +contextual)
              · exact .pure trivial

variable (context roots) in
/-- Comparisons of the receiver with types that are reached end. -/
def Ends (receiver : Ty) : Prop :=
  ∀ {payload}, context.Reached roots payload → ∀ variance pending,
    Terminates (context.MemoSound roots)
      fun fuel => context.compare fuel pending variance receiver payload

/-- Comparing arguments ends if each argument of the receiver can be compared. -/
theorem arguments_terminate {args args' : List Ty} (ih : ∀ arg ∈ args, context.Ends roots arg)
    (hargs : ∀ arg ∈ args', context.Reached roots arg) (owner : Option Ty)
    (pending : List (Ty × TypeVar)) :
    Terminates (context.MemoSound roots)
      (fun fuel => sameArguments (context.invariant fuel pending) none owner args args') := by
  show Terminates _ fun fuel => if args.length == args'.length then _ else _
  cases args.length == args'.length with
  | true =>
      refine Terminates.allM fun pair hpair => ?_
      exact ih _ (List.of_mem_zip hpair).1 (hargs _ (List.of_mem_zip hpair).2) .invariant pending
  | false => exact .pure trivial

/-- Comparing with the arguments of ancestors ends if each argument of the receiver can be
compared. -/
theorem hasMatchingAncestor_terminates (hcoherent : context.Coherent roots)
    (hfinite : context.FiniteHierarchy roots) {args : List Ty}
    (ih : ∀ arg ∈ args, context.Ends roots arg) {payload : Ty}
    (hpayload : context.Reached roots payload) (raw : ClassName) (pending : List (Ty × TypeVar)) :
    Terminates (context.MemoSound roots) (fun fuel =>
      context.hasMatchingAncestor fuel (context.invariant fuel pending) none raw args payload) := by
  refine (supertypes_represent hcoherent hpayload (hfinite.closures hpayload)).bind
    fun members hmembers => ?_
  refine Terminates.anyM fun member hmember => ?_
  have hreached := hmembers.reached member hmember
  cases member with
  | applied owner' raw' args' =>
      show Terminates _ fun fuel => if raw'.toNamed == raw then _ else _
      cases raw'.toNamed == raw with
      | true => exact arguments_terminate ih (fun _ => hreached.arg) owner' pending
      | false => exact .pure trivial
  | named | array | var | wildcard => exact .pure trivial

/-- Covariant comparisons of an applied type end, apart from variables. -/
theorem applied_terminates (hcoherent : context.Coherent roots)
    (hfinite : context.FiniteHierarchy roots) {args : List Ty}
    (ih : ∀ arg ∈ args, context.Ends roots arg) {payload : Ty}
    (hpayload : context.Reached roots payload) (hvar : payload.isVar = false) (raw : ClassName)
    (pending : List (Ty × TypeVar)) :
    Terminates (context.MemoSound roots)
      fun fuel => context.covariant fuel pending (.applied none raw args) payload := by
  refine .step ?_
  have hcontains := nominallyContains_terminates hcoherent hfinite hpayload raw
  have hancestor := hasMatchingAncestor_terminates hcoherent hfinite ih hpayload raw pending
  cases payload with
  | named head =>
      have hraw : Terminates (context.MemoSound roots)
          fun _ => context.acceptsRaw (.applied none raw args) (.named head) := by
        simp only [acceptsRaw]
        cases context.env.isRaw (.named head) with
        | true =>
            exact (Halts.of_answer (Oblivious.report _) rfl).bind fun _ _ => .pure trivial
        | false => exact .pure trivial
      exact hcontains.and (hancestor.or hraw)
  | applied owner' raw' args' => exact hcontains.and hancestor
  | array | wildcard => exact .pure trivial
  | var => cases hvar

/-- Comparisons with variables end if the receiver can be compared with everything else. -/
theorem widen_terminates {receiver : Ty} (hvar : receiver.isVar = false)
    (hwild : receiver.isWildcard = false)
    (hcore : ∀ {payload}, context.Reached roots payload → payload.isVar = false → ∀ pending,
      Terminates (context.MemoSound roots)
        fun fuel => context.covariant fuel pending receiver payload)
    (pending : List (Ty × TypeVar)) (param : TypeVar)
    (hparam : context.Reached roots (.var param)) :
    Terminates (context.MemoSound roots)
      fun fuel => context.covariant fuel pending receiver (.var param) := by
  induction pending, param using walk_induction context.heap
    (fun (pending : List (Ty × TypeVar)) param =>
      pending.any (fun pair => pair.1 == receiver && pair.2 == param)) with
  | step pending param ih =>
      refine .step ?_
      simp only [covariant_var hvar hwild]
      cases hmet : pending.any (fun pair => pair.1 == receiver && pair.2 == param) with
      | true => exact .pure trivial
      | false =>
          refine (Halts.of_answer (Oblivious.bounds _ param)
            (answer_bounds context.heap param)).bind
            fun bounds heq => ?_
          subst heq
          refine Terminates.anyM fun bound hbound => ?_
          cases hvar' : bound.isVar with
          | false => exact hcore (hparam.bound hbound) hvar' _
          | true =>
              obtain ⟨next, rfl⟩ := Ty.eq_var hvar'
              exact ih ((receiver, param) :: pending) next hbound hmet (by simp)
                (by simp +contextual)
                (hparam.bound hbound)

/-- Invariant comparisons end if covariant ones do, and if the parts of the receiver can be
compared. -/
theorem invariant_terminates {receiver : Ty} (hplain : receiver.Plain fun _ => True)
    (ih : ∀ part ∈ receiver.parts, context.Ends roots part) {payload : Ty}
    (hpayload : context.Reached roots payload) (pending : List (Ty × TypeVar))
    (hcovariant : Terminates (context.MemoSound roots)
      fun fuel => context.covariant fuel pending receiver payload) :
    Terminates (context.MemoSound roots)
      fun fuel => context.invariant fuel pending receiver payload := by
  refine .step ?_
  cases hwild : receiver.isWildcard || payload.isWildcard with
  | true =>
      simp only [invariant_wildcard hwild]
      exact hcovariant
  | false =>
      cases receiver with
      | named | var => cases payload <;> first | exact .pure trivial | cases hwild
      | applied owner raw args =>
          cases hplain.owner_eq
          cases payload with
          | applied owner' raw' args' =>
              show Terminates _ fun fuel => if raw.toNamed == raw' then _ else _
              cases raw.toNamed == raw' with
              | true => exact arguments_terminate ih (fun _ => hpayload.arg) owner' pending
              | false => exact .pure trivial
          | named | array | var => exact .pure trivial
          | wildcard => cases hwild
      | array component =>
          cases payload with
          | array component' =>
              exact ih component (List.mem_singleton.2 rfl) hpayload.component .invariant pending
          | named | applied | var => exact .pure trivial
          | wildcard => cases hwild
      | wildcard => cases hwild

/-- Covariant comparisons end if the parts of the receiver can be compared. -/
theorem covariant_terminates (hcoherent : context.Coherent roots)
    (hfinite : context.FiniteHierarchy roots) {receiver : Ty}
    (hplain : receiver.Plain fun _ => True)
    (ih : ∀ part ∈ receiver.parts, context.Ends roots part) {payload : Ty}
    (hpayload : context.Reached roots payload) (pending : List (Ty × TypeVar)) :
    Terminates (context.MemoSound roots)
      fun fuel => context.covariant fuel pending receiver payload := by
  have hwiden (hvar : receiver.isVar = false) (hwild : receiver.isWildcard = false)
      (hcore : ∀ {payload}, context.Reached roots payload → payload.isVar = false → ∀ pending,
        Terminates (context.MemoSound roots)
          fun fuel => context.covariant fuel pending receiver payload) :
      Terminates (context.MemoSound roots)
        fun fuel => context.covariant fuel pending receiver payload := by
    cases hvar' : payload.isVar with
    | false => exact hcore hpayload hvar' pending
    | true =>
        obtain ⟨param, rfl⟩ := Ty.eq_var hvar'
        exact widen_terminates hvar hwild hcore pending param hpayload
  cases receiver with
  | named head =>
      refine hwiden rfl rfl fun {payload} hpayload hvar pending => .step ?_
      cases payload with
      | named | applied | array =>
          exact nominallyContains_terminates hcoherent hfinite hpayload head
      | var => cases hvar
      | wildcard => exact .pure trivial
  | applied owner raw args =>
      cases hplain.owner_eq
      exact hwiden rfl rfl fun hpayload hvar =>
        applied_terminates hcoherent hfinite ih hpayload hvar raw
  | array component =>
      refine hwiden rfl rfl fun {payload} hpayload hvar pending => .step ?_
      cases payload with
      | array component' =>
          exact ih component (List.mem_singleton.2 rfl) hpayload.component .covariant pending
      | named | applied | wildcard => exact .pure trivial
      | var => cases hvar
  | var param =>
      refine .step ?_
      cases payload with
      | var param' => exact variableAccepts_terminates context.heap param [] param'
      | named | applied | array | wildcard => exact .pure trivial
  | wildcard upper lower =>
      cases hplain.lower_eq
      refine .step ?_
      have hupper {payload : Ty} (hpayload : context.Reached roots payload) :
          Terminates (context.MemoSound roots)
            fun fuel => context.covariant fuel pending upper payload :=
        ih upper List.mem_cons_self hpayload .covariant pending
      cases payload with
      | wildcard upper' lower' =>
          refine (hupper hpayload.upper).and ?_
          cases lower' <;> exact .pure trivial
      | named | applied | array | var => exact (hupper hpayload).and (.pure trivial)

/-- Comparisons of a receiver without owners and lower bounds end, where closures are finite. -/
theorem ends_of_plain (hcoherent : context.Coherent roots) (hfinite : context.FiniteHierarchy roots)
    {receiver : Ty} (hplain : receiver.Plain fun _ => True) : context.Ends roots receiver := by
  induction receiver using Ty.parts_induction with
  | step receiver ih =>
      have hparts (part : Ty) (hpart : part ∈ receiver.parts) : context.Ends roots part :=
        ih part hpart (hplain.part hpart)
      intro payload hpayload variance pending
      have hcovariant := covariant_terminates hcoherent hfinite hplain hparts hpayload pending
      cases variance with
      | covariant => exact hcovariant
      | invariant => exact invariant_terminates hplain hparts hpayload pending hcovariant

end Context

end Nominal
