import Nominal.Proofs.NominalTransitivity
import Nominal.Proofs.PlainTypes

/-!
# Widening the arguments of an ancestor

Between types without wildcards at the top, invariant acceptance compares the same shape, and the
arguments inside by containment. If one list of arguments is accepted by another, then what a plain
declaration makes of the two is accepted too (`invariant_replace`), at every depth and through
wildcards that are flattened. So invariant acceptance is a simulation of the supertypes of plain
types (`invariant_supertype`).
-/

namespace Nominal.Context

variable {context : Context} {roots : List Ty}

/-! ## Shapes that are accepted under invariance -/

section Shapes

variable {t : Ty}

/-- A type other than a wildcard does not accept by containment. -/
theorem not_contained {s : Ty} (hwild : s.isWildcard = false)
    (h : s.isWildcard = true ∨ t.isWildcard = true) : ¬ context.Accepts .covariant s t := by
  intro hcovariant
  rcases h with h | h
  · cases hwild.symm.trans h
  · cases (hcovariant.not_wildcard hwild).symm.trans h

/-- Under invariance a name accepts equal names only. -/
theorem invariant_named {head : Named} (h : context.Accepts .invariant (.named head) t) :
    ∃ head', t = .named head' ∧ (head == head') = true := by
  cases accepts_iff_rule.1 h with
  | contained hwild hcovariant => exact absurd hcovariant (not_contained rfl hwild)
  | named_invariant heq => exact ⟨_, rfl, heq⟩

/-- Under invariance an applied type accepts applications of its name only. -/
theorem invariant_applied {owner : Option Ty} {raw : ClassName} {args : List Ty}
    (h : context.Accepts .invariant (.applied owner raw args) t) :
    ∃ owner' raw' args', t = .applied owner' raw' args' ∧ (raw.toNamed == raw') = true ∧
      List.Forall₂ (context.Accepts .invariant) args args' := by
  cases accepts_iff_rule.1 h with
  | contained hwild hcovariant => exact absurd hcovariant (not_contained rfl hwild)
  | applied_invariant heq hargs => exact ⟨_, _, _, rfl, heq, hargs.args⟩

/-- Under invariance a variable accepts equal variables only. -/
theorem invariant_var {param : TypeVar} (h : context.Accepts .invariant (.var param) t) :
    ∃ param', t = .var param' ∧ (param == param') = true := by
  cases accepts_iff_rule.1 h with
  | contained hwild hcovariant => exact absurd hcovariant (not_contained rfl hwild)
  | var_invariant heq => exact ⟨_, rfl, heq⟩

/-- Under invariance an array accepts arrays only. -/
theorem invariant_array {component : Ty} (h : context.Accepts .invariant (.array component) t) :
    ∃ component', t = .array component' ∧ context.Accepts .invariant component component' := by
  cases accepts_iff_rule.1 h with
  | contained hwild hcovariant => exact absurd hcovariant (not_contained rfl hwild)
  | array_invariant hcomponent => exact ⟨_, rfl, hcomponent⟩

end Shapes

/-- Equal types accept each other. -/
theorem Coherent.accepts_equal (hcoherent : context.Coherent roots) {t t' : Ty}
    (h : context.Twins roots t t') (variance : Variance) : context.Accepts variance t t' :=
  hcoherent.accepts (.refl h.left) h (context.accepts_refl variance t)

/-! ## Substitution -/

/-- A wildcard for the subtypes of a plain type has that type as its upper bound, or is that type
if it is a wildcard itself. -/
theorem exists_upper {names : Named → Prop} {t u : Ty} (ht : t.Plain names)
    (hu : context.Reached roots u) (h : (t.extendsOf == u) = true) :
    ∃ bound, context.Reached roots bound ∧ (t == bound) = true ∧
      ((u = bound ∧ ∃ upper, bound = .wildcard upper none) ∨
        (u = .wildcard bound none ∧ bound.isWildcard = false)) := by
  cases hwild : t.isWildcard with
  | true =>
      obtain ⟨upper, lower, rfl⟩ := Ty.eq_wildcard hwild
      cases ht.lower_eq
      obtain ⟨upper', lower', rfl, _, hlower⟩ := Ty.wildcard_beq h
      rcases Ty.option_beq hlower with ⟨_, rfl⟩ | ⟨_, _, hnone, _⟩
      · exact ⟨_, hu, h, .inl ⟨rfl, upper', rfl⟩⟩
      · cases hnone
  | false =>
      rw [Ty.extendsOf_eq hwild] at h
      obtain ⟨upper', lower', rfl, hupper, hlower⟩ := Ty.wildcard_beq h
      rcases Ty.option_beq hlower with ⟨_, rfl⟩ | ⟨_, _, hnone, _⟩
      · exact ⟨upper', hu.upper, hupper, .inr ⟨rfl, Ty.isWildcard_congr hupper ▸ hwild⟩⟩
      · cases hnone

/-- Wildcards for the subtypes of two types are accepted if the types are. -/
theorem invariant_extendsOf {names : Named → Prop} {t t' u u' : Ty} (ht : t.Plain names)
    (ht' : t'.Plain names) (hu : context.Reached roots u) (hu' : context.Reached roots u')
    (heq : (t.extendsOf == u) = true) (heq' : (t'.extendsOf == u') = true)
    (h : ∀ {bound bound'}, context.Reached roots bound → context.Reached roots bound' →
      (t == bound) = true → (t' == bound') = true → context.Accepts .invariant bound bound') :
    context.Accepts .invariant u u' := by
  obtain ⟨bound, hbound, hequal, hshape⟩ := exists_upper ht hu heq
  obtain ⟨bound', hbound', hequal', hshape'⟩ := exists_upper ht' hu' heq'
  have haccepts := h hbound hbound' hequal hequal'
  -- a bound that is a wildcard has been flattened, on either side
  rcases hshape with ⟨rfl, upper, rfl⟩ | ⟨rfl, hwild⟩
  · rcases hshape' with ⟨rfl, _⟩ | ⟨rfl, hwild'⟩
    · exact haccepts
    · have hcovariant := accepts_iff_rule.1 haccepts.covariant
      exact accepts_iff_rule.2 (.contained (.inl rfl)
        (accepts_iff_rule.2 (.extends_extends ((rule_extends hwild').1 hcovariant))))
  · rcases hshape' with ⟨rfl, _, rfl⟩ | ⟨rfl, _⟩
    · -- a type that is no wildcard would accept a wildcard
      cases haccepts.covariant.not_wildcard hwild
    · exact accepts_iff_rule.2 (.contained (.inl rfl)
        (accepts_iff_rule.2 (.extends_extends haccepts.covariant)))

variable (context roots) in
/-- The values of the second substitution are accepted by those of the first, under invariance. -/
def Widens (map map' : Substitution) : Prop :=
  Substitution.Related (fun value value' => context.Reached roots value ∧
    context.Reached roots value' ∧ context.Accepts .invariant value value') map map'

/-- Replacing variables by accepted types gives accepted types. -/
theorem invariant_replace (hcoherent : context.Coherent roots) {names : Named → Prop}
    {map map' : Substitution} (hwidens : context.Widens roots map map')
    (hmap : ∀ {param value}, map.lookup param = some value → value.Plain names)
    (hmap' : ∀ {param value}, map'.lookup param = some value → value.Plain names) {t u u' : Ty}
    (ht : t.Plain names) (hu : context.Reached roots u) (hu' : context.Reached roots u')
    (heq : (t.replace map == u) = true) (heq' : (t.replace map' == u') = true) :
    context.Accepts .invariant u u' := by
  -- on the declared type: where it has no variables both sides are equal
  induction t using Ty.parts_induction generalizing u u' with
  | step t ih =>
      cases t with
      | named head =>
          exact hcoherent.accepts_equal ⟨hu, hu', BEq.trans (BEq.symm heq) heq'⟩ .invariant
      | var param =>
          rw [Ty.replace] at heq heq'
          rcases hwidens.lookup param with ⟨hnone, hnone'⟩ | ⟨value, value', hsome, hsome', hvalues⟩
          · rw [hnone] at heq
            rw [hnone'] at heq'
            exact hcoherent.accepts_equal ⟨hu, hu', BEq.trans (BEq.symm heq) heq'⟩ .invariant
          · rw [hsome] at heq
            rw [hsome'] at heq'
            exact hcoherent.accepts ⟨hvalues.1, hu, heq⟩ ⟨hvalues.2.1, hu', heq'⟩ hvalues.2.2
      | applied owner raw args =>
          cases ht.owner_eq
          obtain ⟨outer, raw₁, args₁, rfl, hraw, _, hargs⟩ :=
            Ty.applied_beq (BEq.trans (BEq.symm (Ty.replace_applied map none raw args)) heq)
          obtain ⟨outer', raw₂, args₂, rfl, hraw', howner', hargs'⟩ :=
            Ty.applied_beq (BEq.trans (BEq.symm (Ty.replace_applied map' none raw args)) heq')
          rcases Ty.option_beq howner' with ⟨_, rfl⟩ | ⟨_, _, hnone, _⟩
          · refine accepts_iff_rule.2 (.applied_invariant (BEq.trans (BEq.symm hraw) hraw')
              (.without_owners (.inr rfl) ?_))
            have hsame {map : Substitution} {others : List Ty}
                (h : Ty.Matches (args.map (Ty.replace map)) others) :
                List.Forall₂ (fun arg other => (arg.replace map == other) = true) args others :=
              List.forall₂_map_left_iff.1 h
            refine (hsame hargs).join (hsame hargs') fun arg harg arg₁ harg₁ arg₂ harg₂ => ?_
            exact ih arg (List.mem_append_right _ harg) (ht.arg harg) (hu.arg harg₁) (hu'.arg harg₂)
          · cases hnone
      | array component =>
          obtain ⟨component₁, rfl, hcomponent⟩ :=
            Ty.array_beq (BEq.trans (BEq.symm (Ty.replace_array map component)) heq)
          obtain ⟨component₂, rfl, hcomponent'⟩ :=
            Ty.array_beq (BEq.trans (BEq.symm (Ty.replace_array map' component)) heq')
          exact accepts_iff_rule.2 (.array_invariant (ih component (List.mem_singleton.2 rfl)
            ht.component hu.component hu'.component hcomponent hcomponent'))
      | wildcard upper lower =>
          cases ht.lower_eq
          rw [Ty.replace] at heq heq'
          exact invariant_extendsOf (ht.upper.replace hmap) (ht.upper.replace hmap') hu hu' heq heq'
            fun hbound hbound' => ih upper List.mem_cons_self ht.upper hbound hbound'

/-- Applying substitutions to a plain type gives accepted types if the values are accepted. -/
theorem invariant_substitute (hcoherent : context.Coherent roots) {names : Named → Prop}
    {map map' : Substitution} (hwidens : context.Widens roots map map')
    (hmap : ∀ {param value}, map.lookup param = some value → value.Plain names)
    (hmap' : ∀ {param value}, map'.lookup param = some value → value.Plain names) {t u u' : Ty}
    (ht : t.Plain names) (hu : context.Reached roots u) (hu' : context.Reached roots u')
    (heq : (t.substitute map == u) = true) (heq' : (t.substitute map' == u') = true) :
    context.Accepts .invariant u u' := by
  rw [Ty.substitute] at heq heq'
  rw [← hwidens.isEmpty_eq] at heq'
  cases hempty : map.isEmpty with
  | true =>
      rw [if_pos hempty] at heq heq'
      exact hcoherent.accepts_equal ⟨hu, hu', BEq.trans (BEq.symm heq) heq'⟩ .invariant
  | false =>
      rw [hempty] at heq heq'
      exact invariant_replace hcoherent hwidens hmap hmap' ht hu hu' heq heq'

/-! ## Supertypes -/

/-- The direct supertypes of applied types without owners correspond, if the arguments do. -/
theorem invariant_direct_applied (hcoherent : context.Coherent roots) {names : Named → Prop}
    (hplain : context.PlainHierarchy roots names) {raw raw' : ClassName} {args args' : List Ty}
    {s : Ty} (ht : context.Reached roots (.applied none raw args))
    (ht' : context.Reached roots (.applied none raw' args'))
    (hargs : (Ty.applied none raw args).Plain names)
    (hargs' : (Ty.applied none raw' args').Plain names) (hraw : (raw.toNamed == raw') = true)
    (h : List.Forall₂ (context.Accepts .invariant) args args')
    (hdirect : context.Direct (.applied none raw args) s) :
    ∃ s', context.Direct (.applied none raw' args') s' ∧ context.Accepts .invariant s s' := by
  have hs := ht.direct hdirect
  have hname := Named.beq_iff.1 hraw
  obtain ⟨declaration, hfound, ⟨t, hdeclared, rfl⟩ | ⟨hnone, htop, rfl⟩⟩ :=
    direct_applied_cases hdirect
  · obtain ⟨s', hdirect', heq⟩ := @direct_applied context none raw' args' declaration
      (hname ▸ hfound) t hdeclared
    have hwidens : context.Widens roots (context.argumentsOf declaration none args)
        (context.argumentsOf declaration none args') :=
      Substitution.related_ofArgs declaration
        (List.Forall₂.join (List.forall₂_same.2 fun _ _ => rfl) h
          fun _ _ arg harg arg' harg' heq haccepts => ⟨ht.arg harg, ht'.arg harg', heq ▸ haccepts⟩)
    exact ⟨s', hdirect', invariant_substitute hcoherent hwidens
      (Ty.Plain.lookup_ofArgs declaration fun _ => hargs.arg)
      (Ty.Plain.lookup_ofArgs declaration fun _ => hargs'.arg) (hplain.declared hfound t hdeclared)
      hs (ht'.direct hdirect') BEq.rfl heq⟩
  · have htop' : raw'.isTop = false := by rw [← htop, Named.isTop, Named.isTop, hname]
    exact ⟨.top, direct_applied_top (hname ▸ hfound) hnone htop', context.accepts_refl _ _⟩

/-- Equal names have the same direct supertypes. -/
theorem Coherent.direct_named (hcoherent : context.Coherent roots) {first second : Named} {s : Ty}
    (hfirst : context.Reached roots (.named first))
    (hsecond : context.Reached roots (.named second))
    (heq : (first == second) = true) (h : context.Direct (.named first) s) :
    context.Direct (.named second) s := by
  obtain ⟨types, htypes, hs⟩ := h
  have hkind := hcoherent.kinds hfirst hsecond heq
  exact ⟨types, directs_named_congr (Named.beq_iff.1 heq) hkind htypes, hs⟩

/-- A supertype of a plain type with a head. -/
structure PlainAbove (context : Context) (roots : List Ty) (t : Ty) : Prop where
  reached : context.Reached roots t
  headed : ∃ head, t.head? = some head
  plain : t.Plain context.env.NotRaw ∨ t = .top

/-- Supertypes of plain types with a head are such types. -/
theorem PlainAbove.supertype (hplain : context.PlainHierarchy roots context.env.NotRaw)
    (hregular : context.env.Regular) {t s : Ty} (h : context.PlainAbove roots t)
    (hs : context.Supertype t s) : context.PlainAbove roots s where
  reached := h.reached.supertype hs
  headed := by
    obtain ⟨head, hhead⟩ := h.headed
    exact supertype_head hregular hhead hs
  plain := by
    obtain ⟨head, hhead⟩ := h.headed
    rcases h.plain with hp | rfl
    · exact hplain.supertype hregular hhead hp hs
    · exact .inr (supertype_leaf rfl hs)

/-- Direct supertypes of invariantly accepted types correspond, one by one. -/
theorem invariant_direct (hcoherent : context.Coherent roots)
    (hplain : context.PlainHierarchy roots context.env.NotRaw) {t t' s : Ty}
    (ht : context.PlainAbove roots t) (ht' : context.PlainAbove roots t')
    (h : context.Accepts .invariant t t') (hdirect : context.Direct t s) :
    ∃ s', context.Direct t' s' ∧ context.Accepts .invariant s s' := by
  obtain ⟨head, hhead⟩ := ht.headed
  cases t with
  | named head =>
      obtain ⟨head', rfl, heq⟩ := invariant_named h
      exact ⟨s, hcoherent.direct_named ht.reached ht'.reached heq hdirect, context.accepts_refl _ _⟩
  | applied owner raw args =>
      obtain ⟨owner', raw', args', rfl, heq, hargs⟩ := invariant_applied h
      have hp := Ty.Plain.of_applied ht.plain
      have hp' := Ty.Plain.of_applied ht'.plain
      cases hp.owner_eq
      cases hp'.owner_eq
      exact invariant_direct_applied hcoherent hplain ht.reached ht'.reached hp hp' heq hargs
        hdirect
  | array | var | wildcard => cases hhead

/-- All supertypes of invariantly accepted types correspond. -/
theorem invariant_supertype (hcoherent : context.Coherent roots)
    (hplain : context.PlainHierarchy roots context.env.NotRaw) (hregular : context.env.Regular)
    {t t' s : Ty} (ht : context.PlainAbove roots t) (ht' : context.PlainAbove roots t')
    (h : context.Accepts .invariant t t') (hs : context.Supertype t s) :
    ∃ s', context.Supertype t' s' ∧ context.Accepts .invariant s s' := by
  induction hs with
  | refl => exact ⟨t', .refl, h⟩
  | tail hu hdirect ih =>
      obtain ⟨u', hu', haccepts⟩ := ih
      obtain ⟨s', hdirect', haccepts'⟩ := invariant_direct hcoherent hplain
        (ht.supertype hplain hregular hu) (ht'.supertype hplain hregular hu') haccepts hdirect
      exact ⟨s', hu'.tail hdirect', haccepts'⟩

end Nominal.Context
