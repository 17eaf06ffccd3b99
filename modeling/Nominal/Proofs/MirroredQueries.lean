import Nominal.Proofs.Decision
import Nominal.Proofs.Mirroring
import Nominal.Proofs.Names
import Nominal.Specialization

/-!
# Every query is mirrored

All questions about types go through closures, bounds and erasures. In two contexts that show the
same, these are mirrored for equal types, and so is what is built from them: comparisons
(`Mirror.compare`), the search for the most specialized type (`Mirror.mostSpecialized`) and the
selection from a closure (`Mirror.closureWhere`).
-/

/-- Pairs of members that stand at one place are related when the lists are. -/
theorem List.Forall₂.zip {α β : Type} {related : α → β → Prop} {list list' : List α}
    {other other' : List β} (h : List.Forall₂ related list other)
    (h' : List.Forall₂ related list' other') :
    List.Forall₂ (fun pair pair' => related pair.1 pair'.1 ∧ related pair.2 pair'.2)
      (list.zip list') (other.zip other') := by
  induction h generalizing list' other' with
  | nil => exact .nil
  | cons hfirst _ ih =>
      cases h' with
      | nil => exact .nil
      | cons hfirst' hrest' => exact .cons ⟨hfirst, hfirst'⟩ (ih hrest')

/-- Members that stand at one place have the same number. -/
theorem List.Forall₂.zipIdx {α β : Type} {related : α → β → Prop} {list : List α} {other : List β}
    (h : List.Forall₂ related list other) (start : Nat) :
    List.Forall₂ (fun member member' => related member.1 member'.1 ∧ member.2 = member'.2)
      (list.zipIdx start) (other.zipIdx start) := by
  induction h generalizing start with
  | nil => exact .nil
  | cons hfirst _ ih => exact .cons ⟨hfirst, rfl⟩ (ih (start + 1))

namespace Nominal

open Query

/-- Equal types have equal names at their heads. -/
theorem Ty.head_congr {t t' : Ty} {head head' : Named} (h : (t == t') = true)
    (hhead : t.head? = some head) (hhead' : t'.head? = some head') : (head == head') = true := by
  obtain ⟨other, hother, heq⟩ := exists_head_congr h hhead
  cases Option.some.inj (hother.symm.trans hhead')
  exact heq

namespace Context

variable {context first second : Context} {roots : List Ty}

namespace Mirror

/-! ## Bounds and erasures -/

/-- The bounds of equal variables are mirrored. -/
theorem bounds (hmirror : context.Mirror roots first second) {param param' : TypeVar}
    (h : context.Twins roots (.var param) (.var param')) :
    context.Mirrored roots first (Query.bounds first.heap param)
      (fun _ => Query.bounds second.heap param') (List.Forall₂ (context.Twins roots)) := by
  refine .of_oblivious (.bounds _ _) fun found hfound => ?_
  cases hfound
  refine (Halts.of_answer (.bounds _ _) (answer_bounds _ _)).mono fun found' heq => ?_
  rw [heq, hmirror.first.bounds, hmirror.second.bounds]
  exact hmirror.coherent.twins_bounds h

/-- Walks from equal variables along sole bounds are mirrored. -/
theorem variableAccepts (hmirror : context.Mirror roots first second)
    {receiver receiver' payload payload' : TypeVar} {seen seen' : List TypeVar}
    (hreceiver : (receiver == receiver') = true)
    (hseen : List.Forall₂ (fun param param' => (param == param') = true) seen seen')
    (hpayload : context.Twins roots (.var payload) (.var payload')) (fuel : Nat) :
    context.Mirrored roots first (Nominal.variableAccepts first.heap receiver fuel seen payload)
      (fun more => Nominal.variableAccepts second.heap receiver' more seen' payload') Eq := by
  induction fuel generalizing seen seen' payload payload' with
  | zero => exact .exhausted
  | succ fuel ih =>
      have hequal : (payload == payload') = true := hpayload.equal
      have hsame : (payload == receiver) = (payload' == receiver') := by
        rw [BEq.congr_left hequal, BEq.congr_right hreceiver]
      refine .step ?_
      simp only [Nominal.variableAccepts, hsame, contains_var_congr hseen hequal]
      split
      · exact .pure rfl
      split
      · exact .pure rfl
      refine (hmirror.bounds hpayload).bind fun bounds bounds' hbounds => ?_
      cases hbounds with
      | nil => exact .pure rfl
      | @cons bound bound' _ _ hbound hrest =>
          cases hrest with
          | nil =>
              cases bound with
              | var next =>
                  obtain ⟨next', rfl, _⟩ := hbound.var
                  exact ih (.cons hequal hseen) hbound
              | named | applied | array | wildcard =>
                  cases bound' <;> first | exact .pure rfl | cases hbound.equal
          | cons =>
              cases bound <;> cases bound' <;> exact .pure rfl

/-- The names that equal types erase to are mirrored. They are related in any way in which the heads
of equal types are. -/
theorem erasedNamed (hmirror : context.Mirror roots first second) {related : Named → Named → Prop}
    (hheads : ∀ {t t' head head'}, context.Twins roots t t' → t.head? = some head →
      t'.head? = some head' → related head head')
    (htop : related .top .top) {t t' : Ty} (h : context.Twins roots t t') (fuel : Nat) :
    context.Mirrored roots first (erasedNamed? first.heap fuel t)
      (fun more => erasedNamed? second.heap more t') (Option.Rel related) := by
  have herase : ∀ {seen seen' t t'},
      List.Forall₂ (fun param param' => (param == param') = true) seen seen' →
      context.Twins roots t t' →
      context.Mirrored roots first (eraseAlong first.heap fuel seen t)
        (fun more => eraseAlong second.heap more seen' t')
        (fun erased erased' => Option.Rel related erased.asNamed? erased'.asNamed?) := by
    induction fuel with
    | zero => exact fun _ _ => .exhausted
    | succ fuel ih =>
        intro seen seen' t t' hseen h
        refine .step ?_
        cases t with
        | named head =>
            obtain ⟨head', rfl, _⟩ := h.named
            exact .pure (.some (hheads h rfl rfl))
        | applied owner raw args =>
            obtain ⟨_, raw', _, rfl, _⟩ := h.applied
            exact .pure (.some (hheads h rfl rfl))
        | array component =>
            obtain ⟨component', rfl, hcomponent⟩ := h.array
            exact (ih .nil hcomponent).bind fun _ _ _ => .pure .none
        | wildcard upper lower =>
            cases lower with
            | none =>
                obtain ⟨upper', rfl, hupper⟩ := h.wildcard_none
                exact ih .nil hupper
            | some bound =>
                obtain ⟨upper', bound', rfl, hupper, _⟩ := h.wildcard_some
                exact ih .nil hupper
        | var param =>
            obtain ⟨param', rfl, hparam⟩ := h.var
            simp only [eraseAlong, contains_var_congr hseen hparam]
            split
            · exact .pure (.some htop)
            · refine (hmirror.bounds h).bind fun bounds bounds' hbounds => ?_
              cases hbounds with
              | nil => exact .pure (.some htop)
              | cons hbound _ => exact ih (.cons hparam hseen) hbound
  exact (herase .nil h).bind fun _ _ hnames => .pure hnames

/-- Whether a type erases to an interface is mirrored. -/
theorem isInterfaceLike (hmirror : context.Mirror roots first second) (t : Ty) (fuel : Nat) :
    context.Mirrored roots first (Nominal.isInterfaceLike first.heap fuel t)
      (fun more => Nominal.isInterfaceLike second.heap more t) Eq := by
  have herase : context.Mirrored roots first (eraseAlong first.heap fuel [] t)
      (fun more => eraseAlong second.heap more [] t) Eq := by
    simp only [eraseAlong_congr hmirror.first.bounds, eraseAlong_congr hmirror.second.bounds]
    exact .of_mono (fun fuel => erase_along_oblivious context.heap fuel [] t)
      (erase_along_mono context.heap [] t) fuel
  exact (herase.bind fun _ _ heq => .pure (congrArg Ty.asNamed? heq)).bind fun _ _ heq =>
    .pure (congrArg _ heq)

/-- The direct supertypes of a type are mirrored. -/
theorem directSupertypes (hmirror : context.Mirror roots first second) (t : Ty) (fuel : Nat) :
    context.Mirrored roots first (first.directSupertypes fuel t)
      (fun more => second.directSupertypes more t) Eq := by
  simp only [hmirror.first.directSupertypes, hmirror.second.directSupertypes]
  exact .of_mono (fun fuel => direct_oblivious fuel t) (direct_mono t) fuel

/-! ## Comparisons -/

/-- Nominal containment of equal names in equal types is mirrored. -/
theorem nominallyContains (hmirror : context.Mirror roots first second) {head head' : Named}
    {payload payload' : Ty} (hhead : (head == head') = true)
    (hpayload : context.Twins roots payload payload') (fuel : Nat) :
    context.Mirrored roots first (first.nominallyContains fuel head payload)
      (fun more => second.nominallyContains more head' payload') Eq := by
  refine (hmirror.supertypes hpayload fuel).bind fun members members' hmembers => ?_
  refine .anyM hmembers fun member member' hmember => ?_
  have hnames : context.Mirrored roots first (erasedNamed? first.heap fuel member)
      (fun more => erasedNamed? second.heap more member')
      (Option.Rel fun found found' => (found == found') = true) :=
    hmirror.erasedNamed (fun h => Ty.head_congr h.equal) BEq.rfl hmember fuel
  refine hnames.bind fun found found' hfound => ?_
  cases hfound with
  | none => exact .pure rfl
  | some heq =>
      exact .pure (by
        rw [Option.any_some, Option.any_some, BEq.congr_left heq, BEq.congr_right hhead])

variable {check : Ty → Ty → Query Bool} {check' : Nat → Ty → Ty → Query Bool}
  {owner owner' outer outer' : Option Ty} {args args' others others' : List Ty}

/-- Comparisons of arguments are mirrored if the checks of equal types are. -/
theorem sameArguments
    (hcheck : ∀ {s s' t t'}, context.Twins roots s s' → context.Twins roots t t' →
      context.Mirrored roots first (check s t) (fun more => check' more s' t') Eq)
    (howner : Option.Rel (context.Twins roots) owner outer)
    (howner' : Option.Rel (context.Twins roots) owner' outer')
    (hargs : List.Forall₂ (context.Twins roots) args others)
    (hargs' : List.Forall₂ (context.Twins roots) args' others') :
    context.Mirrored roots first (Nominal.sameArguments check owner owner' args args')
      (fun more => Nominal.sameArguments (check' more) outer outer' others others') Eq := by
  have hlists (yes : Bool) : context.Mirrored roots first
      (if yes && args.length == args'.length then
        (args.zip args').allM (fun pair => check pair.1 pair.2) else Pure.pure false)
      (fun more => if yes && others.length == others'.length then
        (others.zip others').allM (fun pair => check' more pair.1 pair.2) else Pure.pure false)
      Eq := by
    rw [hargs.length_eq, hargs'.length_eq]
    split
    · exact .allM (hargs.zip hargs') fun _ _ hpair => hcheck hpair.1 hpair.2
    · exact .pure rfl
  cases howner with
  | none => exact hlists true
  | some houter =>
      cases howner' with
      | none => exact hlists true
      | some houter' =>
          refine (hcheck houter houter').bind fun yes yes' heq => ?_
          cases heq
          exact hlists yes

/-- Searches for an ancestor with matching arguments are mirrored if the checks of equal types
are. -/
theorem hasMatchingAncestor (hmirror : context.Mirror roots first second)
    (hcheck : ∀ {s s' t t'}, context.Twins roots s s' → context.Twins roots t t' →
      context.Mirrored roots first (check s t) (fun more => check' more s' t') Eq)
    {raw raw' : ClassName} {payload payload' : Ty} (hraw : (raw.toNamed == raw') = true)
    (howner : Option.Rel (context.Twins roots) owner outer)
    (hargs : List.Forall₂ (context.Twins roots) args others)
    (hpayload : context.Twins roots payload payload') (fuel : Nat) :
    context.Mirrored roots first (first.hasMatchingAncestor fuel check owner raw args payload)
      (fun more => second.hasMatchingAncestor more (check' more) outer raw' others payload')
      Eq := by
  refine (hmirror.supertypes hpayload fuel).bind fun members members' hmembers => ?_
  refine .anyM hmembers fun member member' hmember => ?_
  cases member with
  | applied owner' ancestor args' =>
      obtain ⟨outer', ancestor', others', rfl, hancestor, howner', hargs'⟩ := hmember.applied
      dsimp only
      rw [BEq.congr_left hancestor, BEq.congr_right hraw]
      split
      · exact sameArguments hcheck howner howner' hargs hargs'
      · exact .pure rfl
  | named | array | var | wildcard =>
      cases member' <;> first | exact .pure rfl | cases hmember.equal

/-- Equal names are accepted as raw payloads together. -/
theorem acceptsRaw (hmirror : context.Mirror roots first second) {head head' : Named}
    (h : context.Twins roots (.named head) (.named head')) (receiver receiver' : Ty) :
    context.Mirrored roots first (first.acceptsRaw receiver (.named head))
      (fun _ => second.acceptsRaw receiver' (.named head')) Eq := by
  have hhead : (head == head') = true := h.equal
  simp only [Context.acceptsRaw, hmirror.first.env, hmirror.second.env,
    context.env.isRaw_congr hhead (hmirror.coherent.kinds h.left h.right hhead)]
  split
  · have hreport : context.Mirrored roots first (Query.report (.rawAccepted receiver (.named head)))
        (fun _ => Query.report (.rawAccepted receiver' (.named head'))) Eq :=
      .of_oblivious (.report _) fun _ _ => Halts.of_answer (.report _) rfl
    exact hreport.bind fun _ _ _ => .pure rfl
  · exact .pure rfl

end Mirror

/-- The pairs that are being decided are equal, in order. -/
abbrev SamePending (pending pending' : List (Ty × TypeVar)) : Prop :=
  List.Forall₂ (fun pair pair' => (pair.1 == pair'.1) = true ∧ (pair.2 == pair'.2) = true)
    pending pending'

/-- Comparisons of equal types are mirrored while equal pairs are being decided. -/
def MirrorsComparisons (context : Context) (roots : List Ty) (first second : Context) (fuel : Nat) :
    Prop :=
  ∀ variance {pending pending' receiver receiver' payload payload'}, SamePending pending pending' →
    context.Twins roots receiver receiver' → context.Twins roots payload payload' →
    context.Mirrored roots first (first.compare fuel pending variance receiver payload)
      (fun more => second.compare more pending' variance receiver' payload') Eq

section Comparisons

variable {pending pending' : List (Ty × TypeVar)} {receiver receiver' payload payload' : Ty}
  {fuel : Nat}

/-- Equal pairs are met again together. -/
theorem any_pending_congr {param param' : TypeVar}
    (hpending : SamePending pending pending')
    (hreceiver : (receiver == receiver') = true) (hparam : (param == param') = true) :
    pending.any (fun pair => pair.1 == receiver && pair.2 == param) =
      pending'.any (fun pair => pair.1 == receiver' && pair.2 == param') := by
  induction hpending with
  | nil => rfl
  | cons hpair _ ih =>
      rw [List.any_cons, List.any_cons, ih, BEq.congr_left hpair.1, BEq.congr_right hreceiver,
        BEq.congr_left hpair.2, BEq.congr_right hparam]

/-- Comparisons of a wildcard with equal types are mirrored. -/
theorem Mirror.covariant_wildcard {upper : Ty} {lower : Option Ty}
    (hsub : context.MirrorsComparisons roots first second fuel)
    (hpending : SamePending pending pending')
    (hreceiver : context.Twins roots (.wildcard upper lower) receiver')
    (hpayload : context.Twins roots payload payload') :
    context.Mirrored roots first
      (first.covariant (fuel + 1) pending (.wildcard upper lower) payload)
      (fun more => second.covariant (more + 1) pending' receiver' payload') Eq := by
  cases hwild : payload.isWildcard with
  | false =>
      have hwild' := Ty.isWildcard_congr hpayload.equal ▸ hwild
      cases lower with
      | none =>
          obtain ⟨upper', rfl, hupper⟩ := hreceiver.wildcard_none
          simp only [covariant_extends hwild, covariant_extends hwild']
          exact (hsub .covariant hpending hupper hpayload).and (.pure rfl)
      | some bound =>
          obtain ⟨upper', bound', rfl, hupper, hbound⟩ := hreceiver.wildcard_some
          simp only [covariant_super hwild, covariant_super hwild']
          exact (hsub .covariant hpending hupper hpayload).and
            (hsub .covariant hpending hpayload hbound)
  | true =>
      obtain ⟨other, lower', rfl⟩ := Ty.eq_wildcard hwild
      cases lower with
      | none =>
          obtain ⟨upper', rfl, hupper⟩ := hreceiver.wildcard_none
          cases lower' with
          | none =>
              obtain ⟨other', rfl, hother⟩ := hpayload.wildcard_none
              exact (hsub .covariant hpending hupper hother).and (.pure rfl)
          | some bound =>
              obtain ⟨other', bound', rfl, hother, _⟩ := hpayload.wildcard_some
              exact (hsub .covariant hpending hupper hother).and
                (.pure (Ty.isTop_congr hupper.equal))
      | some bound =>
          obtain ⟨upper', bound', rfl, hupper, hbound⟩ := hreceiver.wildcard_some
          cases lower' with
          | none =>
              obtain ⟨other', rfl, hother⟩ := hpayload.wildcard_none
              exact (hsub .covariant hpending hupper hother).and (.pure rfl)
          | some deep =>
              obtain ⟨other', deep', rfl, hother, hdeep⟩ := hpayload.wildcard_some
              exact (hsub .covariant hpending hupper hother).and
                (hsub .covariant hpending hdeep hbound)

/-- Comparisons with equal variables through their bounds are mirrored. -/
theorem Mirror.covariant_widen (hmirror : context.Mirror roots first second) {param : TypeVar}
    (hsub : context.MirrorsComparisons roots first second fuel)
    (hpending : SamePending pending pending')
    (hvar : receiver.isVar = false) (hwild : receiver.isWildcard = false)
    (hreceiver : context.Twins roots receiver receiver')
    (hpayload : context.Twins roots (.var param) payload') :
    context.Mirrored roots first (first.covariant (fuel + 1) pending receiver (.var param))
      (fun more => second.covariant (more + 1) pending' receiver' payload') Eq := by
  obtain ⟨param', rfl, hparam⟩ := hpayload.var
  simp only [covariant_var hvar hwild, covariant_var (Ty.isVar_congr hreceiver.equal ▸ hvar)
    (Ty.isWildcard_congr hreceiver.equal ▸ hwild),
    any_pending_congr hpending hreceiver.equal hparam]
  split
  · exact .pure rfl
  · refine (hmirror.bounds hpayload).bind fun bounds bounds' hbounds => .anyM hbounds ?_
    exact fun _ _ hbound =>
      hsub .covariant (.cons ⟨hreceiver.equal, hparam⟩ hpending) hreceiver hbound

/-- Comparisons of an applied type with equal types are mirrored. -/
theorem Mirror.covariant_applied (hmirror : context.Mirror roots first second)
    {owner : Option Ty} {raw : ClassName} {args : List Ty}
    (hsub : context.MirrorsComparisons roots first second fuel)
    (hpending : SamePending pending pending')
    (hvar : payload.isVar = false)
    (hreceiver : context.Twins roots (.applied owner raw args) receiver')
    (hpayload : context.Twins roots payload payload') :
    context.Mirrored roots first
      (first.covariant (fuel + 1) pending (.applied owner raw args) payload)
      (fun more => second.covariant (more + 1) pending' receiver' payload') Eq := by
  obtain ⟨outer, raw', others, rfl, hraw, howner, hargs⟩ := hreceiver.applied
  have hancestor : context.Mirrored roots first
      (first.hasMatchingAncestor fuel (first.invariant fuel pending) owner raw args payload)
      (fun more => second.hasMatchingAncestor more (second.invariant more pending') outer raw'
        others payload') Eq :=
    hmirror.hasMatchingAncestor (fun hs ht => hsub .invariant hpending hs ht) hraw howner hargs
      hpayload fuel
  have hname := hmirror.nominallyContains hraw hpayload fuel
  cases payload with
  | var param => cases hvar
  | named head =>
      obtain ⟨head', rfl, _⟩ := hpayload.named
      exact hname.and (hancestor.or (hmirror.acceptsRaw hpayload _ _))
  | applied owner' ancestor args' =>
      obtain ⟨_, _, _, rfl, _⟩ := hpayload.applied
      exact hname.and hancestor
  | array | wildcard => cases payload' <;> first | exact .pure rfl | cases hpayload.equal

/-- Covariant comparisons of equal types are mirrored if comparisons with fewer steps are. -/
theorem Mirror.covariant_succ (hmirror : context.Mirror roots first second)
    (hsub : context.MirrorsComparisons roots first second fuel)
    (hpending : SamePending pending pending')
    (hreceiver : context.Twins roots receiver receiver')
    (hpayload : context.Twins roots payload payload') :
    context.Mirrored roots first (first.covariant (fuel + 1) pending receiver payload)
      (fun more => second.covariant (more + 1) pending' receiver' payload') Eq := by
  cases receiver with
  | wildcard upper lower => exact covariant_wildcard hsub hpending hreceiver hpayload
  | var param =>
      obtain ⟨param', rfl, hparam⟩ := hreceiver.var
      cases payload with
      | var other =>
          obtain ⟨other', rfl, _⟩ := hpayload.var
          exact hmirror.variableAccepts hparam .nil hpayload fuel
      | named | applied | array | wildcard =>
          cases payload' <;> first | exact .pure rfl | cases hpayload.equal
  | named head =>
      obtain ⟨head', rfl, hhead⟩ := hreceiver.named
      cases payload with
      | var other => exact hmirror.covariant_widen hsub hpending rfl rfl hreceiver hpayload
      | wildcard => cases payload' <;> first | exact .pure rfl | cases hpayload.equal
      | named | applied | array =>
          cases payload' <;>
            first | exact hmirror.nominallyContains hhead hpayload fuel | cases hpayload.equal
  | applied owner raw args =>
      cases hvar : payload.isVar with
      | true =>
          obtain ⟨other, rfl⟩ := Ty.eq_var hvar
          exact hmirror.covariant_widen hsub hpending rfl rfl hreceiver hpayload
      | false => exact hmirror.covariant_applied hsub hpending hvar hreceiver hpayload
  | array component =>
      cases payload with
      | var other => exact hmirror.covariant_widen hsub hpending rfl rfl hreceiver hpayload
      | array component' =>
          obtain ⟨_, rfl, hcomponent⟩ := hreceiver.array
          obtain ⟨_, rfl, hcomponent'⟩ := hpayload.array
          exact hsub .covariant hpending hcomponent hcomponent'
      | named | applied | wildcard =>
          obtain ⟨_, rfl, _⟩ := hreceiver.array
          cases payload' <;> first | exact .pure rfl | cases hpayload.equal

/-- Invariant comparisons of equal types are mirrored if comparisons with fewer steps are. -/
theorem Mirror.invariant_succ (hsub : context.MirrorsComparisons roots first second fuel)
    (hpending : SamePending pending pending')
    (hreceiver : context.Twins roots receiver receiver')
    (hpayload : context.Twins roots payload payload') :
    context.Mirrored roots first (first.invariant (fuel + 1) pending receiver payload)
      (fun more => second.invariant (more + 1) pending' receiver' payload') Eq := by
  cases hwild : receiver.isWildcard || payload.isWildcard with
  | true =>
      have hwild' : (receiver'.isWildcard || payload'.isWildcard) = true := by
        rw [← Ty.isWildcard_congr hreceiver.equal, ← Ty.isWildcard_congr hpayload.equal, hwild]
      simp only [invariant_wildcard hwild, invariant_wildcard hwild']
      exact hsub .covariant hpending hreceiver hpayload
  | false =>
      cases receiver with
      | wildcard => cases hwild
      | named head =>
          obtain ⟨head', rfl, hhead⟩ := hreceiver.named
          cases payload with
          | wildcard => cases hwild
          | named other =>
              obtain ⟨other', rfl, hother⟩ := hpayload.named
              exact .pure (by rw [BEq.congr_left hhead, BEq.congr_right hother])
          | applied | array | var =>
              cases payload' <;> first | exact .pure rfl | cases hpayload.equal
      | var param =>
          obtain ⟨param', rfl, hparam⟩ := hreceiver.var
          cases payload with
          | wildcard => cases hwild
          | var other =>
              obtain ⟨other', rfl, hother⟩ := hpayload.var
              exact .pure (by rw [BEq.congr_left hparam, BEq.congr_right hother])
          | named | applied | array =>
              cases payload' <;> first | exact .pure rfl | cases hpayload.equal
      | array component =>
          obtain ⟨component', rfl, hcomponent⟩ := hreceiver.array
          cases payload with
          | wildcard => cases hwild
          | array other =>
              obtain ⟨other', rfl, hother⟩ := hpayload.array
              exact hsub .invariant hpending hcomponent hother
          | named | applied | var =>
              cases payload' <;> first | exact .pure rfl | cases hpayload.equal
      | applied owner raw args =>
          obtain ⟨outer, raw', others, rfl, hraw, howner, hargs⟩ := hreceiver.applied
          cases payload with
          | wildcard => cases hwild
          | applied owner' ancestor args' =>
              obtain ⟨outer', ancestor', others', rfl, hancestor, howner', hargs'⟩ :=
                hpayload.applied
              simp only [Context.invariant, BEq.congr_left hraw, BEq.congr_right hancestor]
              split
              · exact sameArguments (fun hs ht => hsub .invariant hpending hs ht) howner howner'
                  hargs hargs'
              · exact .pure rfl
          | named | array | var =>
              cases payload' <;> first | exact .pure rfl | cases hpayload.equal

/-- Comparisons of equal types are mirrored, whatever is memoized. -/
theorem Mirror.compare (hmirror : context.Mirror roots first second) (fuel : Nat) :
    context.MirrorsComparisons roots first second fuel := by
  induction fuel with
  | zero =>
      intro variance _ _ _ _ _ _ _ _ _
      cases variance <;> exact .exhausted
  | succ fuel ih =>
      intro variance _ _ _ _ _ _ hpending hreceiver hpayload
      refine .step ?_
      cases variance with
      | covariant => exact hmirror.covariant_succ ih hpending hreceiver hpayload
      | invariant => exact invariant_succ ih hpending hreceiver hpayload

end Comparisons

namespace Mirror

/-- Questions of assignability are mirrored. -/
theorem isAssignable (hmirror : context.Mirror roots first second) (boxing : Boxing)
    (options : AssignOptions) {receiver payload : Ty}
    (hreceiver : context.Reached roots (if options.boxing then boxing.box receiver else receiver))
    (hpayload : context.Reached roots (if options.boxing then boxing.box payload else payload))
    (fuel : Nat) :
    context.Mirrored roots first (first.isAssignable fuel boxing options receiver payload)
      (fun more => second.isAssignable more boxing options receiver payload) Eq := by
  simp only [isAssignable_eq]
  exact hmirror.compare fuel options.variance .nil (.refl hreceiver) (.refl hpayload)

/-- Whether one type is among the supertypes of another is mirrored for equal types. -/
theorem isSupertype (hmirror : context.Mirror roots first second) {above above' below below' : Ty}
    (habove : (above == above') = true) (hbelow : context.Twins roots below below') (fuel : Nat) :
    context.Mirrored roots first (first.isSupertype fuel above below)
      (fun more => second.isSupertype more above' below') Eq :=
  (hmirror.supertypes hbelow fuel).bind fun _ _ hmembers =>
    .pure (Ty.contains_matches (hmembers.imp fun _ _ h => h.equal) habove)

/-! ## Specialization -/

/-- Equal candidates are taken together. -/
theorem promote (hmirror : context.Mirror roots first second) {best best' : Option Ty}
    {candidate candidate' : Ty} (hbest : Option.Rel (context.Twins roots) best best')
    (hcandidate : context.Twins roots candidate candidate') (fuel : Nat) :
    context.Mirrored roots first (first.promote fuel best candidate)
      (fun more => second.promote more best' candidate') (Option.Rel (context.Twins roots)) := by
  cases hbest with
  | none => exact .pure (.some hcandidate)
  | @some current current' hcurrent =>
      simp only [Context.promote, BEq.congr_left hcurrent.equal, BEq.congr_right hcandidate.equal]
      split
      · exact .pure (.some hcurrent)
      · refine (hmirror.isSupertype hcurrent.equal hcandidate fuel).bind fun yes yes' heq => ?_
        cases heq
        split
        · exact .pure (.some hcandidate)
        · exact .pure (.some hcurrent)

/-- Searches for the most specialized member of a list are mirrored. -/
theorem mostSpecialized (hmirror : context.Mirror roots first second) {types : List Ty}
    (htypes : ∀ t ∈ types, context.Reached roots t) (interfaces : Bool) (fuel : Nat) :
    context.Mirrored roots first (first.mostSpecialized fuel types interfaces)
      (fun more => second.mostSpecialized more types interfaces)
      (Option.Rel (context.Twins roots)) := by
  have hqualifying : context.Mirrored roots first
      (types.filterM fun t => do
        return (← Nominal.isInterfaceLike first.heap fuel t) == interfaces)
      (fun more => types.filterM fun t => do
        return (← Nominal.isInterfaceLike second.heap more t) == interfaces)
      (List.Forall₂ fun t t' => t = t' ∧ context.Reached roots t) := by
    refine .filterM (List.forall₂_same.2 fun t ht => ⟨rfl, htypes t ht⟩) ?_
    rintro t _ ⟨rfl, _⟩
    exact (hmirror.isInterfaceLike t fuel).bind fun _ _ heq => .pure (by rw [heq])
  refine hqualifying.bind fun kept kept' hkept => ?_
  have hsame : kept = kept' := by
    rw [← List.forall₂_eq_eq_eq]
    exact hkept.imp fun _ _ h => h.1
  cases hsame
  have htwins : List.Forall₂ (context.Twins roots) (Ty.distinct kept) (Ty.distinct kept) := by
    refine List.forall₂_same.2 fun t ht => ?_
    obtain ⟨_, _, _, hreached⟩ := hkept.exists_mem (Ty.mem_of_mem_distinct ht)
    exact .refl hreached
  refine .foldlM htwins .none fun hbest hmember => ?_
  refine (hmirror.supertypes hmember fuel).bind fun members members' hmembers => ?_
  have habove : List.Forall₂ (context.Twins roots)
      (members.filter fun t => (Ty.distinct kept).contains t)
      (members'.filter fun t => (Ty.distinct kept).contains t) :=
    List.rel_filter
      (fun t t' h => iff_of_eq (congrArg (· = true)
        (Ty.contains_matches (Ty.matches_refl _) h.equal))) hmembers
  exact .foldlM habove hbest fun hbest hcandidate => hmirror.promote hbest hcandidate fuel

/-- Selections from the closures of equal types are mirrored if the tests are. -/
theorem closureWhere (hmirror : context.Mirror roots first second) {t t' : Ty}
    (h : context.Twins roots t t') {legal : Nat → Ty → Query Bool}
    {legal' : Nat → Nat → Ty → Query Bool}
    (hlegal : ∀ call {s s'}, context.Twins roots s s' →
      context.Mirrored roots first (legal call s) (fun more => legal' more call s') Eq)
    (fuel : Nat) :
    context.Mirrored roots first (first.closureWhere fuel t legal)
      (fun more => second.closureWhere more t' (legal' more))
      (fun found found' => List.Forall₂ (context.Twins roots) found.1 found'.1 ∧
        found.2 = found'.2) := by
  refine (hmirror.supertypes h fuel).bind fun members members' hmembers => ?_
  have hkept : context.Mirrored roots first
      (members.zipIdx.filterM fun member => legal (member.2 + 1) member.1)
      (fun more => members'.zipIdx.filterM fun member => legal' more (member.2 + 1) member.1)
      (List.Forall₂ fun member member' => context.Twins roots member.1 member'.1 ∧
        member.2 = member'.2) := by
    refine .filterM (hmembers.zipIdx 0) ?_
    rintro ⟨s, index⟩ ⟨s', _⟩ ⟨hs, rfl⟩
    exact hlegal (index + 1) hs
  refine hkept.bind fun kept kept' hkept => .pure ⟨?_, hmembers.length_eq⟩
  rw [List.forall₂_map_left_iff, List.forall₂_map_right_iff]
  exact hkept.imp fun _ _ h => h.1

end Mirror

end Context

end Nominal
