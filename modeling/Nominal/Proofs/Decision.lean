import Nominal.Proofs.Congruence

/-!
# Comparisons decide acceptance

The comparison of two types keeps the pairs of receiver and variable that are being decided, and
answers no when it meets one again. Main result: whenever it answers, the answer is yes exactly
when the rules of acceptance, which know nothing of such pairs, accept. A pair that is cut off has
been shown not to be accepted within the height that is looked for (`Open`), because a derivation
of least height never comes back to its own conclusion. All that matters of heights is that they
are stages of a relation that lead back to each other by the rules (`Staged`).
-/

namespace Nominal

open Query

/-- Comparing arguments decides whether they are accepted. -/
theorem sameArguments_decides {keeps : Memo → Prop} {check : Ty → Ty → Query Bool}
    {may must : Ty → Ty → Prop} {owner owner' : Option Ty} {args args' : List Ty}
    (howners : ∀ outer ∈ owner, ∀ outer' ∈ owner',
      Decides keeps (check outer outer') (may outer outer') (must outer outer'))
    (hargs : ∀ arg ∈ args, ∀ arg' ∈ args',
      Decides keeps (check arg arg') (may arg arg') (must arg arg')) :
    Decides keeps (sameArguments check owner owner' args args')
      (ArgumentsAccepted may owner owner' args args')
      (ArgumentsAccepted must owner owner' args args') := by
  have hpairs : Decides keeps ((args.zip args').allM fun pair => check pair.1 pair.2)
      (∀ pair ∈ args.zip args', may pair.1 pair.2) (∀ pair ∈ args.zip args', must pair.1 pair.2) :=
    Decides.allM fun pair hpair => hargs _ (List.of_mem_zip hpair).1 _ (List.of_mem_zip hpair).2
  have hlists : Decides keeps
      (if args.length == args'.length then (args.zip args').allM (fun pair => check pair.1 pair.2)
        else pure false) (List.Forall₂ may args args') (List.Forall₂ must args args') := by
    rw [List.forall₂_iff_zip, List.forall₂_iff_zip]
    cases hlength : args.length == args'.length with
    | true =>
        have hlength := beq_iff_eq.1 hlength
        exact hpairs.mono (fun h => ⟨hlength, fun hpair => h _ hpair⟩)
          (fun h pair hpair => h.2 hpair)
    | false =>
        exact Decides.no.mono False.elim fun h => beq_eq_false_iff_ne.1 hlength h.1
  cases owner with
  | none => exact hlists.mono (.without_owners (.inl rfl)) ArgumentsAccepted.args
  | some outer =>
      cases owner' with
      | none => exact hlists.mono (.without_owners (.inr rfl)) ArgumentsAccepted.args
      | some outer' =>
          refine Ensures.bind (howners outer rfl outer' rfl) fun yes hyes => ?_
          cases yes with
          | true =>
              refine hlists.mono (fun h => ⟨?_, h⟩) ArgumentsAccepted.args
              rintro _ ⟨⟩ _ ⟨⟩
              exact hyes.1 rfl
          | false =>
              refine Decides.no.mono False.elim fun h => Bool.false_ne_true (hyes.2 ?_)
              exact h.owners outer rfl outer' rfl

namespace Context

variable {context : Context} {roots : List Ty}

/-- The comparison under a variance. -/
def compare (context : Context) (fuel : Nat) (pending : List (Ty × TypeVar)) :
    Variance → Ty → Ty → Query Bool
  | .covariant => context.covariant fuel pending
  | .invariant => context.invariant fuel pending

/-- Where there is a wildcard, an invariant comparison is a covariant one. -/
theorem invariant_wildcard {receiver payload : Ty}
    (hwild : (receiver.isWildcard || payload.isWildcard) = true) (fuel : Nat)
    (pending : List (Ty × TypeVar)) :
    context.invariant (fuel + 1) pending receiver payload =
      context.covariant fuel pending receiver payload := by
  cases receiver <;> cases payload <;> first | rfl | cases hwild

/-- A wildcard without a lower bound compares its upper bound with other types. -/
theorem covariant_extends {upper payload : Ty} (hwild : payload.isWildcard = false) (fuel : Nat)
    (pending : List (Ty × TypeVar)) :
    context.covariant (fuel + 1) pending (.wildcard upper none) payload =
      (context.covariant fuel pending upper payload >>= fun yes =>
        if yes = true then pure true else pure false) := by
  cases payload with
  | wildcard upper' lower' => cases hwild
  | named | applied | array | var => rfl

/-- A wildcard with a lower bound compares both bounds with other types. -/
theorem covariant_super {upper lower payload : Ty} (hwild : payload.isWildcard = false) (fuel : Nat)
    (pending : List (Ty × TypeVar)) :
    context.covariant (fuel + 1) pending (.wildcard upper (some lower)) payload =
      (context.covariant fuel pending upper payload >>= fun yes =>
        if yes = true then context.covariant fuel pending payload lower else pure false) := by
  cases payload with
  | wildcard upper' lower' => cases hwild
  | named | applied | array | var => rfl

/-- A variable is compared through its bounds, unless the pair is being decided. -/
theorem covariant_var {receiver : Ty} (hvar : receiver.isVar = false)
    (hwild : receiver.isWildcard = false) (fuel : Nat) (pending : List (Ty × TypeVar))
    (param : TypeVar) :
    context.covariant (fuel + 1) pending receiver (.var param) =
      if pending.any (fun pair => pair.1 == receiver && pair.2 == param) then pure false
      else Query.bounds context.heap param >>= fun bounds =>
        bounds.anyM (context.covariant fuel ((receiver, param) :: pending) receiver) := by
  cases receiver with
  | var => cases hvar
  | wildcard => cases hwild
  | named | applied | array => rfl

variable (context roots) in
/-- The closure of an equal type is known. -/
def ClosureKnown (t : Ty) : Prop :=
  ∃ t' members, context.Reached roots t' ∧ (t == t') = true ∧ context.ClosureOf t' members

variable (context roots) in
/-- Stages of a relation that does not tell twins apart. The first one is empty, and each one
follows by a rule from the one before, given the closure of the payload where a comparison begins
with it. -/
structure Staged (stage : Nat → Variance → Ty → Ty → Prop) : Prop where
  zero : ∀ {variance receiver payload}, ¬ stage 0 variance receiver payload
  mono : ∀ {height more variance receiver payload}, height ≤ more →
    stage height variance receiver payload → stage more variance receiver payload
  twins : ∀ {height variance receiver receiver' payload payload'},
    context.Twins roots receiver receiver' → context.Twins roots payload payload' →
    stage height variance receiver payload → stage height variance receiver' payload'
  rule : ∀ {height variance receiver payload}, context.Reached roots receiver →
    context.Reached roots payload →
    (variance = .covariant → LooksAbove receiver payload → context.ClosureKnown roots payload) →
    stage (height + 1) variance receiver payload →
    context.Rule (stage height) variance receiver payload

/-- The heights of derivations are stages of acceptance. -/
theorem Coherent.staged (hcoherent : context.Coherent roots) :
    context.Staged roots context.Within where
  zero := id
  mono hle h := h.mono hle
  twins hreceiver hpayload h := hcoherent.within hreceiver hpayload h
  rule _ _ _ h := h

/-- Some stage does not hold of a pair while the next one does, if a given stage does at all. -/
theorem Staged.exists_last {stage : Nat → Variance → Ty → Ty → Prop}
    (hstaged : context.Staged roots stage) (height : Nat) (variance : Variance)
    (receiver payload : Ty) :
    ∃ below ≤ height, ¬ stage below variance receiver payload ∧
      (stage height variance receiver payload → stage (below + 1) variance receiver payload) := by
  induction height with
  | zero => exact ⟨0, Nat.le_refl 0, hstaged.zero, fun h => absurd h hstaged.zero⟩
  | succ height ih =>
      by_cases h : stage height variance receiver payload
      · obtain ⟨below, hle, hnot, hnext⟩ := ih
        exact ⟨below, Nat.le_succ_of_le hle, hnot, fun _ => hnext h⟩
      · exact ⟨height, Nat.le_succ height, h, id⟩

variable (context roots) in
/-- Comparisons of types that are reached say yes only to what is accepted, and do so wherever a
given relation holds. -/
def Compares (fuel : Nat) (must : Variance → Ty → Ty → Prop) (pending : List (Ty × TypeVar)) :
    Prop :=
  ∀ variance receiver payload, context.Reached roots receiver → context.Reached roots payload →
    Decides (context.MemoSound roots) (context.compare fuel pending variance receiver payload)
      (context.Accepts variance receiver payload) (must variance receiver payload)

variable (context roots) in
/-- The relation does not hold of the pairs that are being decided. -/
def Open (must : Variance → Ty → Ty → Prop) (pending : List (Ty × TypeVar)) : Prop :=
  ∀ pair ∈ pending, context.Reached roots pair.1 ∧ context.Reached roots (.var pair.2) ∧
    ¬ must .covariant pair.1 (.var pair.2)

variable {stage : Nat → Variance → Ty → Ty → Prop} {must : Variance → Ty → Ty → Prop}

/-- What does not hold at a stage does not hold at an earlier one. -/
theorem Open.mono (hstaged : context.Staged roots stage) {height below : Nat}
    {pending : List (Ty × TypeVar)} (hle : below ≤ height)
    (h : context.Open roots (stage height) pending) : context.Open roots (stage below) pending := by
  intro pair hpair
  obtain ⟨hreceiver, hparam, hnot⟩ := h pair hpair
  exact ⟨hreceiver, hparam, fun hbelow => hnot (hstaged.mono hle hbelow)⟩

/-- The relation does not hold of a pair that is met again. -/
theorem Open.not_met (hstaged : context.Staged roots stage) {height : Nat}
    {pending : List (Ty × TypeVar)} (h : context.Open roots (stage height) pending) {receiver : Ty}
    {param : TypeVar} (hreceiver : context.Reached roots receiver)
    (hparam : context.Reached roots (.var param))
    (hmet : pending.any (fun pair => pair.1 == receiver && pair.2 == param) = true) :
    ¬ stage height .covariant receiver (.var param) := by
  obtain ⟨pair, hpair, heq⟩ := List.any_eq_true.1 hmet
  rw [Bool.and_eq_true] at heq
  obtain ⟨hreceiver', hparam', hnot⟩ := h pair hpair
  intro hheld
  exact hnot (hstaged.twins ⟨hreceiver, hreceiver', BEq.symm heq.1⟩
    ⟨hparam, hparam', BEq.symm heq.2⟩ hheld)

/-- The search among variables decides acceptance. The relation does not hold of the variables that
were seen. -/
theorem variableAccepts_decides (hstaged : context.Staged roots stage) {fuel height : Nat}
    {seen : List TypeVar} {param param' : TypeVar} (hparam : context.Reached roots (.var param))
    (hparam' : context.Reached roots (.var param'))
    (hseen : ∀ other ∈ seen, context.Reached roots (.var other) ∧
      ¬ stage height .covariant (.var param) (.var other)) :
    Decides (context.MemoSound roots) (variableAccepts context.heap param fuel seen param')
      (context.Accepts .covariant (.var param) (.var param'))
      (stage height .covariant (.var param) (.var param')) := by
  induction fuel generalizing height seen param' with
  | zero => exact .exhausted
  | succ fuel ih =>
      obtain ⟨below, hle, hnot, hnext⟩ :=
        hstaged.exists_last height .covariant (.var param) (.var param')
      have hrule (h : stage height .covariant (.var param) (.var param')) :=
        hstaged.rule hparam hparam' (fun _ => False.elim) (hnext h)
      rw [variableAccepts]
      split
      · rename_i hsame
        exact Decides.yes.mono (fun _ => accepts_iff_rule.2 (.var_same hsame)) (fun _ => trivial)
      · rename_i hdifferent
        split
        · -- the relation does not hold of a variable that was met before
          rename_i hmet
          obtain ⟨other, hother, heq⟩ := List.contains_iff_exists_mem_beq.1 hmet
          refine Decides.no.mono False.elim fun h => (hseen other hother).2 ?_
          exact hstaged.twins (.refl hparam) ⟨hparam', (hseen other hother).1, heq⟩ h
        · refine (Ensures.of_oblivious (Oblivious.bounds _ _)).bind fun bounds hbounds => ?_
          obtain rfl : context.heap.bounds param' = bounds := Option.some.inj hbounds
          split
          · rename_i next hsole
            have hnext : context.Reached roots (.var next) :=
              hparam'.bound (hsole ▸ List.mem_cons_self)
            refine (@ih below _ _ hnext ?_).mono (fun h => accepts_iff_rule.2 (.var_bound hsole h))
              fun h => ?_
            · intro other hother
              rcases List.mem_cons.1 hother with rfl | hother
              · exact ⟨hparam', hnot⟩
              · exact ⟨(hseen other hother).1, fun h => (hseen other hother).2 (hstaged.mono hle h)⟩
            · rcases rule_var_var.1 (hrule h) with hsame | ⟨next', hsole', hbefore⟩
              · exact absurd hsame hdifferent
              · rw [hsole] at hsole'
                cases hsole'
                exact hbefore
          · rename_i hsole
            refine Decides.no.mono False.elim fun h => ?_
            rcases rule_var_var.1 (hrule h) with hsame | ⟨next, hsole', _⟩
            · exact hdifferent hsame
            · exact hsole next hsole'

/-! ## One step of a comparison -/

section Steps

variable {fuel : Nat} {pending : List (Ty × TypeVar)} {owner : Option Ty} {raw : ClassName}
  {args : List Ty} {payload : Ty}

/-- Comparing the arguments of two applied types decides whether they are accepted. -/
theorem arguments_decide (hsub : context.Compares roots fuel must pending) {owner' : Option Ty}
    {raw' : ClassName} {args' : List Ty}
    (hreceiver : context.Reached roots (.applied owner raw args))
    (hpayload : context.Reached roots (.applied owner' raw' args')) :
    Decides (context.MemoSound roots)
      (sameArguments (context.invariant fuel pending) owner owner' args args')
      (ArgumentsAccepted (context.Accepts .invariant) owner owner' args args')
      (ArgumentsAccepted (must .invariant) owner owner' args args') :=
  sameArguments_decides
    (fun outer houter outer' houter' => hsub .invariant outer outer' (hreceiver.owner houter)
      (hpayload.owner houter'))
    (fun arg harg arg' harg' => hsub .invariant arg arg' (hreceiver.arg harg) (hpayload.arg harg'))

/-- Comparing with the arguments of ancestors decides whether one matches. -/
theorem hasMatchingAncestor_decides (hcoherent : context.Coherent roots)
    (hsub : context.Compares roots fuel must pending)
    (htwins : ∀ {variance s s' t t'}, context.Twins roots s s' → context.Twins roots t t' →
      must variance s t → must variance s' t')
    (hreceiver : context.Reached roots (.applied owner raw args))
    (hpayload : context.Reached roots payload) :
    Decides (context.MemoSound roots)
      (context.hasMatchingAncestor fuel (context.invariant fuel pending) owner raw args payload)
      (context.MatchingAncestor context.Accepts owner raw args payload)
      (context.MatchingAncestor must owner raw args payload) := by
  refine (supertypes_ensures hcoherent hpayload).bind fun members hmembers => ?_
  let matching (accepts : Variance → Ty → Ty → Prop) (member : Ty) : Prop :=
    ∃ owner' raw' args', member = .applied owner' raw' args' ∧ (raw'.toNamed == raw) = true ∧
      ArgumentsAccepted (accepts .invariant) owner owner' args args'
  -- members are equal to supertypes, and equal arguments are accepted alike
  refine Decides.mono (@Decides.anyM Ty _ _ (matching context.Accepts)
    (matching must) members fun member hmember => ?_) ?_ ?_
  · have hreached := hmembers.reached member hmember
    cases member with
    | applied owner' raw' args' =>
        show Decides _ (if raw'.toNamed == raw then _ else _) _ _
        split
        · rename_i hraw
          refine (arguments_decide hsub hreceiver hreached).mono
            (fun h => ⟨_, _, _, rfl, hraw, h⟩) ?_
          rintro ⟨_, _, _, heq, _, h⟩
          cases heq
          exact h
        · rename_i hraw
          refine Decides.no.mono False.elim ?_
          rintro ⟨_, _, _, heq, hsame, _⟩
          cases heq
          exact hraw hsame
    | named | array | var | wildcard =>
        refine Decides.no.mono False.elim ?_
        rintro ⟨_, _, _, heq, _⟩
        cases heq
  · rintro ⟨_, hmem, owner', raw', args', rfl, hraw, h⟩
    obtain ⟨s, hs, heq⟩ := hmembers.sound _ hmem
    have hequal : context.Twins roots (.applied owner' raw' args') s :=
      ⟨hmembers.reached _ hmem, hpayload.supertype hs, BEq.symm heq⟩
    obtain ⟨outer, other, others, rfl, hother, howner, hargs⟩ := hequal.applied
    obtain ⟨_, _, _, hsame, _, howner', hargs'⟩ := (Twins.refl hreceiver).applied
    cases hsame
    exact ⟨outer, other, others, hs, BEq.trans (BEq.symm hother) hraw,
      h.congr howner' howner hargs' hargs fun hs ht => hcoherent.accepts hs ht⟩
  · rintro ⟨owner', raw', args', hs, hraw, h⟩
    obtain ⟨member, hmem, heq⟩ := hmembers.complete _ hs
    have hequal : context.Twins roots (.applied owner' raw' args') member :=
      ⟨hpayload.supertype hs, hmembers.reached _ hmem, heq⟩
    obtain ⟨outer, other, others, rfl, hother, howner, hargs⟩ := hequal.applied
    obtain ⟨_, _, _, hsame, _, howner', hargs'⟩ := (Twins.refl hreceiver).applied
    cases hsame
    exact ⟨_, hmem, outer, other, others, rfl, BEq.trans (BEq.symm hother) hraw,
      h.congr howner' howner hargs' hargs fun hs ht => htwins hs ht⟩

/-- A wildcard compares its bounds. -/
theorem wildcard_decides (hsub : context.Compares roots fuel must pending) {upper : Ty}
    {lower : Option Ty} (hreceiver : context.Reached roots (.wildcard upper lower))
    (hpayload : context.Reached roots payload) :
    Decides (context.MemoSound roots)
      (context.covariant (fuel + 1) pending (.wildcard upper lower) payload)
      (context.Rule context.Accepts .covariant (.wildcard upper lower) payload)
      (context.Rule must .covariant (.wildcard upper lower) payload) := by
  cases hwild : payload.isWildcard with
  | true =>
      obtain ⟨upper', lower', rfl⟩ := Ty.eq_wildcard hwild
      have hupper := hsub .covariant upper upper' hreceiver.upper hpayload.upper
      cases lower with
      | none =>
          cases lower' with
          | none =>
              exact (hupper.and .yes).mono (fun h => .extends_extends h.1)
                (fun h => ⟨rule_extends_extends.1 h, trivial⟩)
          | some lower' =>
              exact (hupper.and (.pure upper.isTop)).mono rule_extends_super.2 rule_extends_super.1
      | some lower =>
          cases lower' with
          | none =>
              exact (hupper.and .no).mono (fun h => h.2.elim)
                (fun h => (rule_super_extends h).elim)
          | some lower' =>
              have hlower := hsub .covariant lower' lower hpayload.lower hreceiver.lower
              exact (hupper.and hlower).mono rule_super_super.2 rule_super_super.1
  | false =>
      have hupper := hsub .covariant upper payload hreceiver.upper hpayload
      cases lower with
      | none =>
          rw [covariant_extends hwild]
          exact (hupper.and .yes).mono (fun h => (rule_extends hwild).2 h.1)
            (fun h => ⟨(rule_extends hwild).1 h, trivial⟩)
      | some lower =>
          have hlower := hsub .covariant payload lower hpayload hreceiver.lower
          rw [covariant_super hwild]
          exact (hupper.and hlower).mono (rule_super hwild).2 (rule_super hwild).1

/-- A name looks for itself among the erased supertypes of the payload. -/
theorem named_decides (pending : List (Ty × TypeVar)) (hcoherent : context.Coherent roots)
    {head : Named}
    (hpayload : context.Reached roots payload) (hvar : payload.isVar = false)
    (hwild : payload.isWildcard = false) :
    Decides (context.MemoSound roots) (context.covariant (fuel + 1) pending (.named head) payload)
      (context.Rule context.Accepts .covariant (.named head) payload)
      (context.Rule must .covariant (.named head) payload) := by
  have hstep : context.covariant (fuel + 1) pending (.named head) payload =
      context.nominallyContains fuel head payload := by
    cases payload with
    | var => cases hvar
    | wildcard => cases hwild
    | named | applied | array => rfl
  rw [hstep]
  exact (nominallyContains_decides hcoherent hpayload head).mono (rule_named hvar hwild).2
    (rule_named hvar hwild).1

/-- An applied type looks for a matching ancestor of the payload, or for a raw payload. -/
theorem applied_decides (hcoherent : context.Coherent roots)
    (hsub : context.Compares roots fuel must pending)
    (htwins : ∀ {variance s s' t t'}, context.Twins roots s s' → context.Twins roots t t' →
      must variance s t → must variance s' t')
    (hreceiver : context.Reached roots (.applied owner raw args))
    (hpayload : context.Reached roots payload) (hvar : payload.isVar = false)
    (hwild : payload.isWildcard = false) :
    Decides (context.MemoSound roots)
      (context.covariant (fuel + 1) pending (.applied owner raw args) payload)
      (context.Rule context.Accepts .covariant (.applied owner raw args) payload)
      (context.Rule must .covariant (.applied owner raw args) payload) := by
  have hcontains := @nominallyContains_decides context roots hcoherent payload fuel hpayload raw
  have hancestor := hasMatchingAncestor_decides hcoherent hsub htwins hreceiver hpayload
  cases payload with
  | named head =>
      have hraw : Decides (context.MemoSound roots)
          (context.acceptsRaw (.applied owner raw args) (.named head))
          (context.env.isRaw (.named head) = true) (context.env.isRaw (.named head) = true) := by
        rw [acceptsRaw]
        split
        · rename_i hraw
          refine (Ensures.of_oblivious (Oblivious.report _)).bind fun _ _ => ?_
          exact Decides.yes.mono (fun _ => hraw) (fun _ => trivial)
        · rename_i hraw
          exact Decides.no.mono False.elim hraw
      exact (hcontains.and (hancestor.or hraw)).mono rule_applied_named.2 rule_applied_named.1
  | applied owner' raw' args' =>
      exact (hcontains.and hancestor).mono rule_applied_applied.2 rule_applied_applied.1
  | array component => exact Decides.no.mono False.elim rule_applied_array
  | var => cases hvar
  | wildcard => cases hwild

/-- An array compares components. -/
theorem array_decides (hsub : context.Compares roots fuel must pending) {component : Ty}
    (hreceiver : context.Reached roots (.array component))
    (hpayload : context.Reached roots payload) (hvar : payload.isVar = false)
    (hwild : payload.isWildcard = false) :
    Decides (context.MemoSound roots)
      (context.covariant (fuel + 1) pending (.array component) payload)
      (context.Rule context.Accepts .covariant (.array component) payload)
      (context.Rule must .covariant (.array component) payload) := by
  cases payload with
  | array component' =>
      exact (hsub .covariant component component' hreceiver.component hpayload.component).mono
        rule_array_array.2 rule_array_array.1
  | named head => exact Decides.no.mono False.elim (rule_array_head rfl)
  | applied owner raw args => exact Decides.no.mono False.elim (rule_array_head rfl)
  | var => cases hvar
  | wildcard => cases hwild

/-- What one step compares under invariance. -/
theorem invariant_decides (hsub : context.Compares roots fuel must pending) {receiver : Ty}
    (hreceiver : context.Reached roots receiver) (hpayload : context.Reached roots payload) :
    Decides (context.MemoSound roots) (context.invariant (fuel + 1) pending receiver payload)
      (context.Rule context.Accepts .invariant receiver payload)
      (context.Rule must .invariant receiver payload) := by
  have hcovariant := hsub .covariant receiver payload hreceiver hpayload
  cases hwild : receiver.isWildcard || payload.isWildcard with
  | true =>
      have hor := Bool.or_eq_true_iff.1 hwild
      rw [invariant_wildcard hwild]
      exact hcovariant.mono (rule_contained hor).2 (rule_contained hor).1
  | false =>
      obtain ⟨hreceiver', hpayload'⟩ := Bool.or_eq_false_iff.1 hwild
      cases receiver with
      | named head =>
          cases payload with
          | named head' =>
              exact (Decides.pure (head == head')).mono rule_named_invariant.2
                rule_named_invariant.1
          | applied | array | var => exact Decides.no.mono False.elim (rule_shapes rfl rfl rfl)
          | wildcard => cases hpayload'
      | applied owner raw args =>
          cases payload with
          | applied owner' raw' args' =>
              show Decides _ (if raw.toNamed == raw' then _ else _) _ _
              split
              · rename_i hraw
                exact (arguments_decide hsub hreceiver hpayload).mono (.applied_invariant hraw)
                  (fun h => (rule_applied_invariant.1 h).2)
              · rename_i hraw
                exact Decides.no.mono False.elim (fun h => hraw (rule_applied_invariant.1 h).1)
          | named | array | var => exact Decides.no.mono False.elim (rule_shapes rfl rfl rfl)
          | wildcard => cases hpayload'
      | array component =>
          cases payload with
          | array component' =>
              exact (hsub .invariant component component' hreceiver.component
                hpayload.component).mono
                rule_array_invariant.2 rule_array_invariant.1
          | named | applied | var => exact Decides.no.mono False.elim (rule_shapes rfl rfl rfl)
          | wildcard => cases hpayload'
      | var param =>
          cases payload with
          | var param' =>
              exact (Decides.pure (param == param')).mono rule_var_invariant.2 rule_var_invariant.1
          | named | applied | array => exact Decides.no.mono False.elim (rule_shapes rfl rfl rfl)
          | wildcard => cases hpayload'
      | wildcard => cases hreceiver'

/-- Comparing a variable through its bounds decides whether it is accepted. -/
theorem widen_decides (hstaged : context.Staged roots stage) {height below : Nat} {receiver : Ty}
    {param : TypeVar} (hreceiver : context.Reached roots receiver)
    (hparam : context.Reached roots (.var param)) (hvar : receiver.isVar = false)
    (hwild : receiver.isWildcard = false) (hopen : context.Open roots (stage height) pending)
    (hsub : context.Compares roots fuel (stage below) ((receiver, param) :: pending))
    (hrule : stage height .covariant receiver (.var param) →
      context.Rule (stage below) .covariant receiver (.var param)) :
    Decides (context.MemoSound roots) (context.covariant (fuel + 1) pending receiver (.var param))
      (context.Rule context.Accepts .covariant receiver (.var param))
      (stage height .covariant receiver (.var param)) := by
  rw [covariant_var hvar hwild]
  split
  · rename_i hmet
    exact Decides.no.mono False.elim (hopen.not_met hstaged hreceiver hparam hmet)
  · refine (Ensures.of_oblivious (Oblivious.bounds _ _)).bind fun bounds hbounds => ?_
    obtain rfl : context.heap.bounds param = bounds := Option.some.inj hbounds
    refine Decides.mono (Decides.anyM fun bound hbound =>
      hsub .covariant receiver bound hreceiver (hparam.bound hbound)) ?_ ?_
    · exact (rule_widen hvar hwild).2
    · exact fun h => (rule_widen hvar hwild).1 (hrule h)

end Steps

/-! ## Whole comparisons -/

/-- A comparison that begins with the supertypes of the payload leaves no doubt about its
closure. -/
theorem closureKnown_of_run {fuel : Nat} {pending : List (Ty × TypeVar)} {receiver payload : Ty}
    (hpayload : context.Reached roots payload) (hlooks : LooksAbove receiver payload)
    {trail after : Trail} {answer : Bool} (hmemo : context.MemoSound roots trail.memo)
    (h : context.covariant (fuel + 1) pending receiver payload trail = some (answer, after)) :
    context.ClosureKnown roots payload := by
  have hcontains {head : Named} {yes : Bool} {between : Trail}
      (hrun : context.nominallyContains fuel head payload trail = some (yes, between)) :
      context.ClosureKnown roots payload := by
    obtain ⟨members, _, hsupertypes, _⟩ := bind_some hrun
    obtain ⟨_, t', ht', heq, _, hanswer⟩ :=
      supertypes_closure hpayload fuel trail hmemo _ _ hsupertypes
    exact ⟨t', members, ht', heq, closure_closureOf hanswer⟩
  cases receiver with
  | named head =>
      obtain ⟨hvar, hwild⟩ := hlooks
      cases payload with
      | named | applied | array => exact hcontains h
      | var => cases hvar
      | wildcard => cases hwild
  | applied owner raw args =>
      obtain ⟨name, hname⟩ := hlooks
      cases payload with
      | named | applied =>
          obtain ⟨_, _, hrun, _⟩ := bind_some h
          exact hcontains hrun
      | array | var | wildcard => cases hname
  | array | var | wildcard => exact hlooks.elim

/-- Comparisons say yes to what is accepted and to nothing else, as far as the relation does not
hold of the pairs that are being decided. -/
theorem compares_of_staged (hcoherent : context.Coherent roots)
    (hstaged : context.Staged roots stage) {fuel height : Nat} {pending : List (Ty × TypeVar)}
    (hopen : context.Open roots (stage height) pending) :
    context.Compares roots fuel (stage height) pending := by
  induction fuel generalizing height pending with
  | zero =>
      intro variance receiver payload _ _
      cases variance <;> exact .exhausted
  | succ fuel ih =>
      intro variance receiver payload hreceiver hpayload trail hmemo answer after hrun
      -- from the last stage where the relation fails, it does not come back to this pair
      obtain ⟨below, hle, hnot, hnext⟩ := hstaged.exists_last height variance receiver payload
      have hrule (h : stage height variance receiver payload) :
          context.Rule (stage below) variance receiver payload := by
        refine hstaged.rule hreceiver hpayload (fun hvariance hlooks => ?_) (hnext h)
        subst hvariance
        exact closureKnown_of_run hpayload hlooks hmemo hrun
      have hsub := @ih below pending (hopen.mono hstaged hle)
      suffices h : Decides (context.MemoSound roots)
          (context.compare (fuel + 1) pending variance receiver payload)
          (context.Rule context.Accepts variance receiver payload)
          (stage height variance receiver payload) from
        (h.mono accepts_iff_rule.2 id) trail hmemo answer after hrun
      clear hrun
      cases variance with
      | invariant => exact (invariant_decides hsub hreceiver hpayload).mono id hrule
      | covariant =>
          have hwiden (param : TypeVar) (heq : payload = .var param) (hvar : receiver.isVar = false)
              (hwild : receiver.isWildcard = false) :
              Decides (context.MemoSound roots)
                (context.covariant (fuel + 1) pending receiver (.var param))
                (context.Rule context.Accepts .covariant receiver (.var param))
                (stage height .covariant receiver (.var param)) := by
            subst heq
            -- the pair becomes pending, and the premises of its rule hold at the earlier stage
            refine widen_decides hstaged hreceiver hpayload hvar hwild hopen (ih ?_) hrule
            intro pair hpair
            rcases List.mem_cons.1 hpair with rfl | hpair
            · exact ⟨hreceiver, hpayload, hnot⟩
            · exact hopen.mono hstaged hle pair hpair
          cases receiver with
          | wildcard upper lower => exact (wildcard_decides hsub hreceiver hpayload).mono id hrule
          | var param =>
              cases payload with
              | var param' =>
                  exact (variableAccepts_decides hstaged hreceiver hpayload
                    (List.forall_mem_nil _)).mono accepts_iff_rule.1 id
              | named | applied | array | wildcard =>
                  exact Decides.no.mono False.elim (fun h => rule_var rfl (hrule h))
          | named head =>
              cases payload with
              | var param => exact hwiden param rfl rfl rfl
              | wildcard => exact Decides.no.mono False.elim (fun h => rule_wildcard rfl (hrule h))
              | named | applied | array =>
                  exact (named_decides pending hcoherent hpayload rfl rfl).mono id hrule
          | applied owner raw args =>
              cases payload with
              | var param => exact hwiden param rfl rfl rfl
              | wildcard => exact Decides.no.mono False.elim (fun h => rule_wildcard rfl (hrule h))
              | named | applied | array =>
                  exact (applied_decides hcoherent hsub hstaged.twins hreceiver hpayload rfl
                    rfl).mono id hrule
          | array component =>
              cases payload with
              | var param => exact hwiden param rfl rfl rfl
              | wildcard => exact Decides.no.mono False.elim (fun h => rule_wildcard rfl (hrule h))
              | named | applied | array =>
                  exact (array_decides hsub hreceiver hpayload rfl rfl).mono id hrule

/-- The answer of a comparison is yes exactly when the payload is accepted. -/
theorem compare_ensures (hcoherent : context.Coherent roots) {receiver payload : Ty}
    (hreceiver : context.Reached roots receiver) (hpayload : context.Reached roots payload)
    (fuel : Nat) (variance : Variance) :
    Ensures (context.MemoSound roots) (context.compare fuel [] variance receiver payload)
      (fun answer => answer = true ↔ context.Accepts variance receiver payload) := by
  intro trail hmemo answer after h
  have hdecides (height : Nat) :=
    @compares_of_staged context roots _ hcoherent hcoherent.staged fuel height []
      (List.forall_mem_nil _) variance receiver payload hreceiver hpayload
      trail hmemo answer after h
  refine ⟨(hdecides 0).1, (hdecides 0).2.1, fun haccepts => ?_⟩
  obtain ⟨height, hwithin⟩ := accepts_iff_within.1 haccepts
  exact (hdecides height).2.2 hwithin

/-- The question of assignability compares the two types, boxed or not. -/
theorem isAssignable_eq (context : Context) (fuel : Nat) (boxing : Boxing) (options : AssignOptions)
    (receiver payload : Ty) :
    context.isAssignable fuel boxing options receiver payload =
      context.compare fuel [] options.variance
        (if options.boxing then boxing.box receiver else receiver)
        (if options.boxing then boxing.box payload else payload) := by
  obtain ⟨variance, boxes⟩ := options
  cases variance <;> rfl

/-- Without boxing, whenever the question of assignability is answered, the answer is yes exactly
when the rules accept. Pairs that are cut off do not lose anything. -/
theorem isAssignable_iff_accepts (hcoherent : context.Coherent roots) {receiver payload : Ty}
    (hreceiver : receiver ∈ roots) (hpayload : payload ∈ roots) (boxing : Boxing)
    (variance : Variance) {fuel : Nat} {trail after : Trail} {answer : Bool}
    (hmemo : context.MemoSound roots trail.memo)
    (h : context.isAssignable fuel boxing ⟨variance, false⟩ receiver payload trail =
      some (answer, after)) :
    (answer = true ↔ context.Accepts variance receiver payload) ∧
      context.MemoSound roots after.memo := by
  rw [isAssignable_eq] at h
  have hensures := compare_ensures hcoherent (.root hreceiver) (.root hpayload) fuel variance
  obtain ⟨hafter, hanswer⟩ := hensures trail hmemo answer after h
  exact ⟨hanswer, hafter⟩

variable (context roots) in
/-- With some number of steps, on some trail whose memo is sound, the question of assignability gets
this answer. -/
def Answers (boxing : Boxing) (options : AssignOptions) (receiver payload : Ty) (answer : Bool) :
    Prop :=
  ∃ fuel trail after, context.MemoSound roots trail.memo ∧
    context.isAssignable fuel boxing options receiver payload trail = some (answer, after)

/-- Answers without boxing say whether the payload is accepted. -/
theorem Answers.iff_accepts {boxing : Boxing} {variance : Variance} {receiver payload : Ty}
    {answer : Bool} (h : context.Answers roots boxing ⟨variance, false⟩ receiver payload answer)
    (hcoherent : context.Coherent roots) (hreceiver : context.Reached roots receiver)
    (hpayload : context.Reached roots payload) :
    answer = true ↔ context.Accepts variance receiver payload := by
  obtain ⟨fuel, trail, after, hmemo, hrun⟩ := h
  rw [isAssignable_eq] at hrun
  exact (compare_ensures hcoherent hreceiver hpayload fuel variance trail hmemo answer after hrun).2

section Circular

/-- A variable whose only bound is a variable that it bounds. -/
def ring (name : String) (cell : CellId) : TypeVar := ⟨name, "Ring", .owning cell⟩

/-- Two variables, each of which is the only bound of the other. -/
def circular : Context :=
  ⟨⟨fun _ => none, .cloneable, .serializable⟩,
    ⟨#[.bound [.var (ring "U" 1)], .bound [.var (ring "T" 0)]], []⟩, true⟩

/-- The types that are met among the two variables. -/
def circularTypes : List Ty := [.top, .var (ring "T" 0), .var (ring "U" 1)]

/-- The two variables are coherent. -/
theorem circular_coherent : circular.Coherent circularTypes := by
  have hvar {param : TypeVar} (h : .var param ∈ circularTypes) :
      param = ring "T" 0 ∨ param = ring "U" 1 := by simpa [circularTypes, Ty.top] using h
  have hmem {t : Ty} (h : circular.Reached circularTypes t) : t ∈ circularTypes := by
    refine h.mem_of_closed (fun _ => id) ?_ ?_ ?_
    · simp [circularTypes, Ty.parts, Ty.top]
    · intro param hparam bound hbound
      rcases hvar hparam with rfl | rfl <;> cases List.mem_singleton.1 hbound
      · exact .tail _ (.tail _ (.head _))
      · exact .tail _ (.head _)
    · simp only [circularTypes, List.forall_mem_cons]
      exact ⟨⟨[], ⟨0, rfl⟩, List.forall_mem_nil _⟩, ⟨[.var (ring "U" 1)], ⟨0, rfl⟩, by simp⟩,
        ⟨[.var (ring "T" 0)], ⟨0, rfl⟩, by simp⟩, List.forall_mem_nil _⟩
  constructor
  · intro first second hfirst hsecond heq
    rcases hvar (hmem hfirst) with rfl | rfl <;> rcases hvar (hmem hsecond) with rfl | rfl <;>
      first | rfl | cases heq
  · intro first second hfirst hsecond _
    have hnamed {head : Named} (h : .named head ∈ circularTypes) : head = .top := by
      simpa [circularTypes, Ty.top] using h
    rw [hnamed (hmem hfirst), hnamed (hmem hsecond)]

/-- The universal supertype is asked about a variable that leads back to itself, the pair is cut
off and the answer is no; a variable is asked about the other one and the answer is yes. The rules
agree. -/
theorem circular_answers_agree :
    (∃ after, circular.isAssignable 5 .empty ⟨.covariant, false⟩ .top (.var (ring "T" 0)) .empty =
        some (false, after)) ∧
      ¬ circular.Accepts .covariant .top (.var (ring "T" 0)) ∧
      (∃ after, circular.isAssignable 5 .empty ⟨.covariant, false⟩ (.var (ring "T" 0))
        (.var (ring "U" 1)) .empty = some (true, after)) ∧
      circular.Accepts .covariant (.var (ring "T" 0)) (.var (ring "U" 1)) := by
  have htop : .top ∈ circularTypes := .head _
  have hfirst : .var (ring "T" 0) ∈ circularTypes := .tail _ (.head _)
  have hsecond : .var (ring "U" 1) ∈ circularTypes := .tail _ (.tail _ (.head _))
  have hno : ∃ after, circular.isAssignable 5 .empty ⟨.covariant, false⟩ .top (.var (ring "T" 0))
      .empty = some (false, after) := ⟨_, rfl⟩
  have hyes : ∃ after, circular.isAssignable 5 .empty ⟨.covariant, false⟩ (.var (ring "T" 0))
      (.var (ring "U" 1)) .empty = some (true, after) := ⟨_, rfl⟩
  refine ⟨hno, ?_, hyes, ?_⟩
  · obtain ⟨after, h⟩ := hno
    intro haccepts
    exact Bool.false_ne_true ((isAssignable_iff_accepts circular_coherent htop hfirst .empty
      .covariant memoSound_empty h).1.2 haccepts)
  · obtain ⟨after, h⟩ := hyes
    exact (isAssignable_iff_accepts circular_coherent hfirst hsecond .empty .covariant
      memoSound_empty h).1.1 rfl

end Circular

end Context

end Nominal
