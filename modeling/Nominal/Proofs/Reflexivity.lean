import Nominal.Proofs.FiniteClosures
import Nominal.Proofs.Unanswered

/-!
# Every type accepts itself

A comparison of equal types ends and says yes, under covariance and invariance, whatever is declared
of the names in them. The closure that is looked up for a type starts with the type itself or with
the equal one that it was memoized for, so searches through it succeed in the first place; what is
compared after that are parts of equal types, and these are equal again. Since the memo may bring in
a third type, and lower bounds exchange receiver and payload, the induction is about any two types
that are equal to a given one (`selfAgrees`).
-/

namespace Nominal

open Query

/-- Comparing arguments says yes if the owners that are both there and all arguments are
accepted. -/
theorem sameArguments_yes {keeps : Memo → Prop} {check : Nat → Ty → Ty → Query Bool}
    {owner owner' : Option Ty} {args args' : List Ty}
    (howners : ∀ outer ∈ owner, ∀ outer' ∈ owner',
      Halts keeps (fun fuel => check fuel outer outer') fun yes => yes = true)
    (hargs : List.Forall₂
      (fun arg arg' => Halts keeps (fun fuel => check fuel arg arg') fun yes => yes = true)
      args args') :
    Halts keeps (fun fuel => sameArguments (check fuel) owner owner' args args')
      fun yes => yes = true := by
  obtain ⟨hlength, hpairs⟩ := List.forall₂_iff_zip.1 hargs
  have hall : Halts keeps
      (fun fuel => (args.zip args').allM fun pair => check fuel pair.1 pair.2)
      fun yes => yes = true := Halts.allM_yes fun pair hpair => hpairs hpair
  have hlists : Halts keeps
      (fun fuel => if (true && args.length == args'.length) = true then
        (args.zip args').allM fun pair => check fuel pair.1 pair.2 else pure false)
      fun yes => yes = true := by
    simp only [Bool.true_and, beq_iff_eq.2 hlength, if_true]
    exact hall
  cases owner with
  | none => exact hlists
  | some outer =>
      cases owner' with
      | none => exact hlists
      | some outer' =>
          refine (howners outer rfl outer' rfl).bind fun yes hyes => ?_
          subst hyes
          exact hlists

/-- A variable is equal to itself before any bound is read. -/
theorem variableAccepts_self {keeps : Memo → Prop} (heap : Heap) {param param' : TypeVar}
    (h : (param' == param) = true) :
    Halts keeps (fun fuel => variableAccepts heap param fuel [] param') fun yes => yes = true := by
  refine .step ?_
  simp only [variableAccepts, h, if_true]
  exact .pure rfl

namespace Context

variable {context : Context}

variable (context) in
/-- The search for the closure ends for the type and for everything inside it. -/
abbrev Searchable (t : Ty) : Prop := t.Everywhere context.FiniteClosure

variable (context) in
/-- Each comparison of the two types ends and says yes, whatever is being decided. -/
def Agrees (receiver payload : Ty) : Prop :=
  ∀ variance pending, Halts (context.MemoRespects context.Searchable)
    (fun fuel => context.compare fuel pending variance receiver payload) fun yes => yes = true

/-! ## Searches that succeed in the first place -/

/-- The supertypes of a type start with an equal type. -/
theorem supertypes_first {t : Ty} (ht : context.Searchable t) :
    Halts (context.MemoRespects context.Searchable) (fun fuel => context.supertypes fuel t)
      fun members => ∃ first rest, members = first :: rest ∧ context.Searchable first ∧
        (t == first) = true := by
  refine (supertypes_halts_sort ht ht.self).mono fun members hmembers => ?_
  obtain ⟨first, hfirst, heq, _, hanswer⟩ := hmembers
  obtain ⟨rest, hrest⟩ := List.head?_eq_some_iff.1 (breadthFirst_closure hanswer).first
  exact ⟨first, rest, hrest, hfirst, heq⟩

/-- A type whose supertypes start with an equal type contains its head nominally. -/
theorem nominallyContains_first {keeps : Memo → Prop} {t : Ty} {head head' : Named}
    (hmembers : Halts keeps (fun fuel => context.supertypes fuel t)
      fun members => ∃ first rest, members = first :: rest ∧ (t == first) = true)
    (hhead : t.head? = some head') (heq : (head' == head) = true) :
    Halts keeps (fun fuel => context.nominallyContains fuel head t) fun yes => yes = true := by
  refine hmembers.bind fun members hmembers => ?_
  obtain ⟨first, rest, rfl, hfirst⟩ := hmembers
  obtain ⟨found, hfound, hequal⟩ := Ty.exists_head_congr hfirst hhead
  refine Halts.anyM_yes [] (List.forall_mem_nil _)
    ((erasedNamed_halts (Ty.erases_head hfound)).bind fun named hnamed => .pure ?_)
  rw [hnamed]
  exact BEq.trans (BEq.symm hequal) heq

/-- A type with a head contains it nominally. -/
theorem nominallyContains_self {t : Ty} {head head' : Named} (ht : context.Searchable t)
    (hhead : t.head? = some head') (heq : (head' == head) = true) :
    Halts (context.MemoRespects context.Searchable)
      (fun fuel => context.nominallyContains fuel head t) fun yes => yes = true := by
  refine nominallyContains_first ((supertypes_first ht).mono fun members hmembers => ?_) hhead heq
  obtain ⟨first, rest, hrest, _, hfirst⟩ := hmembers
  exact ⟨first, rest, hrest, hfirst⟩

/-- The search for an ancestor succeeds in the first place if the supertypes start with an
application of the name to arguments that match. -/
theorem hasMatchingAncestor_first {keeps : Memo → Prop} {check : Nat → Ty → Ty → Query Bool}
    {owner : Option Ty} {raw : ClassName} {args : List Ty} {payload : Ty}
    (hmembers : Halts keeps (fun fuel => context.supertypes fuel payload)
      fun members => ∃ owner' raw' args' rest, members = .applied owner' raw' args' :: rest ∧
        (raw'.toNamed == raw) = true ∧
        Halts keeps (fun fuel => sameArguments (check fuel) owner owner' args args')
          fun yes => yes = true) :
    Halts keeps
      (fun fuel => context.hasMatchingAncestor fuel (check fuel) owner raw args payload)
      fun yes => yes = true := by
  refine hmembers.bind fun members hmembers => ?_
  obtain ⟨owner', raw', args', rest, rfl, hraw, hsame⟩ := hmembers
  refine Halts.anyM_yes [] (List.forall_mem_nil _) ?_
  show Halts _ (fun fuel => if (raw'.toNamed == raw) = true then _ else _) _
  rw [hraw]
  exact hsame

/-- An applied type has an equal application among its supertypes, if arguments of equal types
agree. -/
theorem hasMatchingAncestor_self {owner owner' : Option Ty} {raw raw' : ClassName}
    {args args' : List Ty} (pending : List (Ty × TypeVar))
    (hpayload : context.Searchable (.applied owner' raw' args'))
    (hraw : (raw'.toNamed == raw) = true)
    (hparts : ∀ {owner'' raw'' args''}, context.Searchable (.applied owner'' raw'' args'') →
      (Ty.applied owner' raw' args' == .applied owner'' raw'' args'') = true →
      (∀ outer ∈ owner, ∀ outer'' ∈ owner'', context.Agrees outer outer'') ∧
        List.Forall₂ context.Agrees args args'') :
    Halts (context.MemoRespects context.Searchable)
      (fun fuel => context.hasMatchingAncestor fuel (context.invariant fuel pending) owner raw args
        (.applied owner' raw' args')) fun yes => yes = true := by
  refine hasMatchingAncestor_first ((supertypes_first hpayload).mono fun members hmembers => ?_)
  obtain ⟨first, rest, rfl, hfirst, heq⟩ := hmembers
  obtain ⟨owner'', raw'', args'', rfl, hraw', _⟩ := Ty.applied_beq heq
  obtain ⟨howners, hargs⟩ := hparts hfirst heq
  refine ⟨owner'', raw'', args'', rest, rfl, BEq.trans (BEq.symm hraw') hraw, ?_⟩
  exact sameArguments_yes (fun outer houter outer' houter' => howners outer houter outer' houter'
    .invariant pending) (hargs.imp fun _ _ h => h .invariant pending)

/-! ## Equal types -/

variable (context) in
/-- Any two types that are equal to the given one agree. -/
def SelfAgrees (t : Ty) : Prop :=
  ∀ {s s'}, (t == s) = true → (t == s') = true → context.Searchable s → context.Searchable s' →
    context.Agrees s s'

/-- Names of one spelling agree. -/
theorem named_agrees {head head' : Named} (hname : (head' == head) = true)
    (hpayload : context.Searchable (.named head')) :
    context.Agrees (.named head) (.named head') := by
  intro variance pending
  refine .step ?_
  cases variance with
  | covariant => exact nominallyContains_self hpayload rfl hname
  | invariant => exact .pure (BEq.symm hname)

/-- Equal variables agree at once. -/
theorem var_agrees {param param' : TypeVar} (h : (param' == param) = true) :
    context.Agrees (.var param) (.var param') := by
  intro variance pending
  refine .step ?_
  cases variance with
  | covariant => exact variableAccepts_self context.heap h
  | invariant => exact .pure (BEq.symm h)

/-- Arrays agree if their components do. -/
theorem array_agrees {component component' : Ty} (h : context.Agrees component component') :
    context.Agrees (.array component) (.array component') := by
  intro variance pending
  refine .step ?_
  cases variance with
  | covariant => exact h .covariant pending
  | invariant => exact h .invariant pending

/-- Wildcards agree if their upper bounds do, and their lower bounds the other way round. -/
theorem wildcard_agrees {upper upper' : Ty} {lower lower' : Option Ty}
    (hupper : context.Agrees upper upper')
    (hlower : (lower = none ∧ lower' = none) ∨
      ∃ bound bound', lower = some bound ∧ lower' = some bound' ∧ context.Agrees bound' bound) :
    context.Agrees (.wildcard upper lower) (.wildcard upper' lower') := by
  have hcovariant (pending : List (Ty × TypeVar)) :
      Halts (context.MemoRespects context.Searchable)
        (fun fuel => context.covariant fuel pending (.wildcard upper lower)
          (.wildcard upper' lower')) fun yes => yes = true := by
    refine .step ((hupper .covariant pending).bind fun yes hyes => ?_)
    subst hyes
    rcases hlower with ⟨rfl, rfl⟩ | ⟨bound, bound', rfl, rfl, hbounds⟩
    · exact .pure rfl
    · exact hbounds .covariant pending
  intro variance pending
  cases variance with
  | covariant => exact hcovariant pending
  | invariant => exact .step (hcovariant pending)

/-- Applied types with one name agree if any two types equal to an argument or to the owner do. -/
theorem applied_agrees {owner : Option Ty} {raw : ClassName} {args : List Ty}
    (ih : ∀ part ∈ (Ty.applied owner raw args).parts, context.SelfAgrees part) :
    context.SelfAgrees (.applied owner raw args) := by
  -- the parts of any two types that are equal to the given one agree
  have hparts {owner₁ owner₂ : Option Ty} {raw₁ raw₂ : ClassName} {args₁ args₂ : List Ty}
      (h₁ : (Ty.applied owner raw args == .applied owner₁ raw₁ args₁) = true)
      (h₂ : (Ty.applied owner raw args == .applied owner₂ raw₂ args₂) = true)
      (ht₁ : context.Searchable (.applied owner₁ raw₁ args₁))
      (ht₂ : context.Searchable (.applied owner₂ raw₂ args₂)) :
      (∀ outer ∈ owner₁, ∀ outer' ∈ owner₂, context.Agrees outer outer') ∧
        List.Forall₂ context.Agrees args₁ args₂ := by
    obtain ⟨_, _, _, heq₁, _, howner₁, hargs₁⟩ := Ty.applied_beq h₁
    obtain ⟨_, _, _, heq₂, _, howner₂, hargs₂⟩ := Ty.applied_beq h₂
    cases heq₁
    cases heq₂
    constructor
    · rintro outer₁ ⟨⟩ outer₂ ⟨⟩
      cases owner with
      | none => cases howner₁
      | some outer =>
          exact ih outer (List.mem_append_left _ (Option.mem_toList.2 rfl)) howner₁ howner₂
            (ht₁.part (List.mem_append_left _ (Option.mem_toList.2 rfl)))
            (ht₂.part (List.mem_append_left _ (Option.mem_toList.2 rfl)))
    · refine hargs₁.join hargs₂ fun arg harg arg₁ harg₁ arg₂ harg₂ heq₁ heq₂ => ?_
      exact ih arg (List.mem_append_right _ harg) heq₁ heq₂
        (ht₁.part (List.mem_append_right _ harg₁)) (ht₂.part (List.mem_append_right _ harg₂))
  intro s s' hs hs' ht ht' variance pending
  obtain ⟨owner₁, raw₁, args₁, rfl, hraw₁, _⟩ := Ty.applied_beq hs
  obtain ⟨owner₂, raw₂, args₂, rfl, hraw₂, _⟩ := Ty.applied_beq hs'
  have hraw : (raw₂.toNamed == raw₁) = true := BEq.trans (BEq.symm hraw₂) hraw₁
  refine .step ?_
  cases variance with
  | covariant =>
      refine (nominallyContains_self ht' rfl hraw).bind fun yes hyes => ?_
      subst hyes
      exact hasMatchingAncestor_self pending ht' hraw
        fun hfirst heq => hparts hs (BEq.trans hs' heq) ht hfirst
  | invariant =>
      show Halts _ (fun fuel => if (raw₁.toNamed == raw₂) = true then _ else _) _
      rw [BEq.symm hraw]
      obtain ⟨howners, hargs⟩ := hparts hs hs' ht ht'
      exact sameArguments_yes (fun outer houter outer' houter' =>
        howners outer houter outer' houter' .invariant pending)
        (hargs.imp fun _ _ h => h .invariant pending)

/-- Types that are equal to one type agree, if the closures of everything in them are finite. -/
theorem selfAgrees (t : Ty) : context.SelfAgrees t := by
  induction t using Ty.parts_induction with
  | step t ih =>
      cases t with
      | applied owner raw args => exact applied_agrees ih
      | named head =>
          intro s s' hs hs' _ ht'
          obtain ⟨head₁, rfl, hname₁⟩ := Ty.named_beq hs
          obtain ⟨head₂, rfl, hname₂⟩ := Ty.named_beq hs'
          exact named_agrees (BEq.trans (BEq.symm hname₂) hname₁) ht'
      | var param =>
          intro s s' hs hs' _ _
          obtain ⟨param₁, rfl, hparam₁⟩ := Ty.var_beq hs
          obtain ⟨param₂, rfl, hparam₂⟩ := Ty.var_beq hs'
          exact var_agrees (BEq.trans (BEq.symm hparam₂) hparam₁)
      | array component =>
          intro s s' hs hs' ht ht'
          obtain ⟨component₁, rfl, hcomponent₁⟩ := Ty.array_beq hs
          obtain ⟨component₂, rfl, hcomponent₂⟩ := Ty.array_beq hs'
          have hmem {component : Ty} : component ∈ (Ty.array component).parts :=
            List.mem_singleton.2 rfl
          exact array_agrees (ih component hmem hcomponent₁ hcomponent₂ (ht.part hmem)
            (ht'.part hmem))
      | wildcard upper lower =>
          intro s s' hs hs' ht ht'
          cases lower with
          | none =>
              obtain ⟨upper₁, rfl, hupper₁⟩ := Ty.congruent_beq.wildcard_none hs
              obtain ⟨upper₂, rfl, hupper₂⟩ := Ty.congruent_beq.wildcard_none hs'
              exact wildcard_agrees (ih upper List.mem_cons_self hupper₁ hupper₂
                (ht.part List.mem_cons_self) (ht'.part List.mem_cons_self)) (.inl ⟨rfl, rfl⟩)
          | some bound =>
              obtain ⟨upper₁, bound₁, rfl, hupper₁, hbound₁⟩ := Ty.congruent_beq.wildcard_some hs
              obtain ⟨upper₂, bound₂, rfl, hupper₂, hbound₂⟩ := Ty.congruent_beq.wildcard_some hs'
              have hmem {upper lower : Ty} : lower ∈ (Ty.wildcard upper (some lower)).parts :=
                List.mem_cons_of_mem _ (List.mem_singleton.2 rfl)
              refine wildcard_agrees (ih upper List.mem_cons_self hupper₁ hupper₂
                (ht.part List.mem_cons_self) (ht'.part List.mem_cons_self)) (.inr ?_)
              exact ⟨bound₁, bound₂, rfl, rfl,
                ih bound hmem hbound₂ hbound₁ (ht'.part hmem) (ht.part hmem)⟩

/-- Every type accepts itself under covariance and invariance, with any table of reference types and
whether or not primitives are boxed, if the closures of everything inside it are finite. If it is a
primitive that is boxed, its reference type is what covariance looks up. -/
theorem isAssignable_self (boxing : Boxing) (options : AssignOptions) {t : Ty}
    (ht : t.Everywhere context.FiniteClosure)
    (hboxed : options.variance = .covariant → options.boxing = true →
      context.FiniteClosure (boxing.box t)) :
    Halts (context.MemoRespects context.Searchable)
      (fun fuel => context.isAssignable fuel boxing options t t) fun answer => answer = true := by
  obtain ⟨variance, boxes⟩ := options
  simp only [isAssignable_eq]
  have hself : Halts (context.MemoRespects context.Searchable)
      (fun fuel => context.compare fuel [] variance t t) fun answer => answer = true :=
    selfAgrees t BEq.rfl BEq.rfl ht ht variance []
  cases boxes with
  | false => exact hself
  | true =>
      cases t with
      | named head =>
          cases variance with
          | covariant =>
              have hreference : context.Searchable (boxing.box (.named head)) :=
                .intro (hboxed rfl rfl) (List.forall_mem_nil _)
              exact named_agrees BEq.rfl hreference .covariant []
          | invariant => exact .step (.pure BEq.rfl)
      | applied | array | var | wildcard => exact hself

/-- The closure of a primitive alone is not enough: whether it accepts itself has no answer if the
supertypes of its reference type grow without end. -/
theorem boxed_int_unanswered :
    unboxed.Everywhere nesting.FiniteClosure ∧
      Boxing.standard.box unboxed = integer ∧ ¬ nesting.FiniteClosure integer ∧
      ∀ fuel, nesting.isAssignable fuel .standard .standard unboxed unboxed .empty = none := by
  have hclosure : nesting.FiniteClosure unboxed := ⟨2, _, rfl⟩
  have hbox : Boxing.standard.box unboxed = integer := rfl
  refine ⟨.intro hclosure (List.forall_mem_nil _), hbox, integer_not_finite, fun fuel => ?_⟩
  rw [isAssignable_eq, AssignOptions.standard, if_pos rfl, hbox]
  exact integer_never.eq_none (holdsClosures_empty _)

/-- A crate of wildcards inside a depot of arrays. Its arguments are bounded by variables that bound
each other and by a primitive, and one of them is not declared. -/
def packedCrate : Ty :=
  .applied (some (.applied none depot [.array (.wildcard .top none)])) crate
    [.wildcard .top (some (.array (.var ⟨"T", "m", .owning 2⟩))),
      .wildcard (.array (.named ⟨"int", .primitiveType, 0⟩)) none,
      .applied none ⟨⟨"Missing", .classType, 1⟩, rfl⟩ [.var ⟨"S", "m", .owning 4⟩]]

/-- The crate accepts itself when nothing is memoized yet. -/
theorem packedCrate_accepts_itself :
    ∃ after enough, ∀ fuel, enough ≤ fuel →
      growing.isAssignable fuel .standard .standard packedCrate packedCrate .empty =
        some (true, after) := by
  have hfinite (t : Ty) : growing.FiniteClosure t :=
    (confined_of_chains growing_headed growing_chains growing_formed growing_arrays t).finiteClosure
  have hparts (t : Ty) : t.Everywhere growing.FiniteClosure := by
    induction t using Ty.parts_induction with
    | step t ih => exact .intro (hfinite t) ih
  obtain ⟨answer, after, _, rfl, enough, hrun⟩ :=
    isAssignable_self .standard .standard (hparts packedCrate) (fun _ _ => hfinite _) .empty
      (memoRespects_empty _)
  exact ⟨after, enough, hrun⟩

end Context

end Nominal
