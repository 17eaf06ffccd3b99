import Nominal.Proofs.Acceptance

/-!
# Equal types are accepted alike

A rule that applies to two types applies to types that are related to them, if the relation goes on
from equal types to their parts, their bounds and their supertypes (`Carries`), and it may apply in
another context. Among coherent types twins are related in this way, so that acceptance within a
height and acceptance as such do not tell twins apart.
-/

namespace Nominal

namespace Env

/-- Names with one spelling and one kind have equal canonical forms. -/
theorem canonicalNamed_congr (env : Env) {first second : Named} (hname : (first == second) = true)
    (hkind : first.kind = second.kind) :
    (env.canonicalNamed first == env.canonicalNamed second) = true := by
  have hprimitive : first.isPrimitive = second.isPrimitive := by
    rw [Named.isPrimitive, Named.isPrimitive, hkind]
  rw [canonicalNamed, canonicalNamed, hprimitive, Named.beq_iff.1 hname]
  split
  · exact hname
  · split
    · exact hname
    · split
      · exact hname
      · rename_i declaration _ _
        cases (Ty.applied? none declaration.head (declaration.params.map Ty.var)).toOption with
        | none => exact hname
        | some t => exact BEq.rfl

/-- A name is raw if it is no primitive and has a declaration with parameters, as many as its head
says. -/
theorem isRaw_named_iff {env : Env} {head : Named} :
    env.isRaw (.named head) = true ↔
      head.isPrimitive = false ∧ ∃ declaration, env.find? head.name = some declaration ∧
        declaration.params.isEmpty = false ∧ declaration.head.isPrimitive = false ∧
        declaration.params.length = declaration.head.arity := by
  have hself : (Ty.named head != .named head) = false := by rw [bne, BEq.rfl, Bool.not_true]
  rw [isRaw, canonical, canonicalNamed]
  cases hprimitive : head.isPrimitive with
  | true => simp [hself]
  | false =>
      cases hfound : env.find? head.name with
      | none => simp [hself]
      | some declaration =>
          cases hparams : declaration.params.isEmpty with
          | true => simp [hself, List.isEmpty_iff.1 hparams]
          | false =>
              have hargs : (declaration.params.map Ty.var).find? Ty.isPrimitive = none := by
                simp [Ty.isPrimitive]
              cases hhead : declaration.head.isPrimitive with
              | true =>
                  simp [Ty.applied?, Named.asClass?_eq_none hhead, Except.toOption, hself, hparams,
                    hhead]
              | false =>
                  by_cases hlength : declaration.params.length = declaration.head.arity
                  · have hmade : (Ty.applied none ⟨declaration.head, hhead⟩
                        (declaration.params.map Ty.var) != .named head) = true := rfl
                    simp [Ty.applied?, Named.asClass?_eq_some hhead, Except.toOption,
                      List.isEmpty_eq_false_iff.1 hparams, hhead, hlength, hargs, hmade]
                  · simp [Ty.applied?, Named.asClass?_eq_some hhead, Except.toOption, hself,
                      hparams, hlength]

/-- Names with one spelling and one kind are raw together. -/
theorem isRaw_congr (env : Env) {first second : Named} (hname : (first == second) = true)
    (hkind : first.kind = second.kind) :
    env.isRaw (.named first) = env.isRaw (.named second) := by
  rw [Bool.eq_iff_iff, isRaw_named_iff, isRaw_named_iff, Named.isPrimitive, Named.isPrimitive,
    hkind, Named.beq_iff.1 hname]

/-- A name that is raw is no primitive and has a declaration with parameters. -/
theorem exists_of_isRaw {env : Env} {head : Named} (h : env.isRaw (.named head) = true) :
    head.isPrimitive = false ∧ ∃ declaration, env.find? head.name = some declaration ∧
      declaration.params.isEmpty = false := by
  obtain ⟨hprimitive, declaration, hfound, hparams, _⟩ := isRaw_named_iff.1 h
  exact ⟨hprimitive, declaration, hfound, hparams⟩

end Env

namespace Ty

/-- Equal types are the universal supertype together. -/
theorem isTop_congr {s t : Ty} (h : (s == t) = true) : s.isTop = t.isTop := by
  cases s with
  | named head =>
      obtain ⟨head', rfl, hhead⟩ := named_beq h
      rw [isTop, isTop, Named.isTop, Named.isTop, Named.beq_iff.1 hhead]
  | applied | array | var | wildcard => cases t <;> first | rfl | cases h

/-- Equal types have the same name at their heads. -/
theorem headName_congr {s t : Ty} (h : (s == t) = true) : s.headName? = t.headName? := by
  cases s with
  | named head =>
      obtain ⟨head', rfl, hhead⟩ := named_beq h
      rw [headName?, headName?, Named.beq_iff.1 hhead]
  | applied owner raw args =>
      obtain ⟨_, raw', _, rfl, hraw, _⟩ := applied_beq h
      rw [headName?, headName?, Named.beq_iff.1 hraw]
  | array | var | wildcard => cases t <;> first | rfl | cases h

end Ty

namespace Context

variable {context : Context} {roots : List Ty}

namespace Twins

/-- The twin of a name is an equal name. -/
theorem named {head : Named} {t : Ty} (h : context.Twins roots (.named head) t) :
    ∃ head', t = .named head' ∧ (head == head') = true := congruent.named h

/-- The twin of a variable is an equal variable. -/
theorem var {param : TypeVar} {t : Ty} (h : context.Twins roots (.var param) t) :
    ∃ param', t = .var param' ∧ (param == param') = true := congruent.var h

/-- The twin of an array is an array of twins. -/
theorem array {component t : Ty} (h : context.Twins roots (.array component) t) :
    ∃ component', t = .array component' ∧ context.Twins roots component component' :=
  congruent.array h

/-- The twin of a wildcard without a lower bound is one too. -/
theorem wildcard_none {upper t : Ty} (h : context.Twins roots (.wildcard upper none) t) :
    ∃ upper', t = .wildcard upper' none ∧ context.Twins roots upper upper' :=
  congruent.wildcard_none h

/-- The twin of a wildcard with a lower bound is one too. -/
theorem wildcard_some {upper lower t : Ty}
    (h : context.Twins roots (.wildcard upper (some lower)) t) :
    ∃ upper' lower', t = .wildcard upper' (some lower') ∧ context.Twins roots upper upper' ∧
      context.Twins roots lower lower' :=
  congruent.wildcard_some h

/-- The twin of an applied type applies an equal name to twins, and its owner is a twin. -/
theorem applied {owner : Option Ty} {raw : ClassName} {args : List Ty} {t : Ty}
    (h : context.Twins roots (.applied owner raw args) t) :
    ∃ owner' raw' args', t = .applied owner' raw' args' ∧ (raw.toNamed == raw') = true ∧
      Option.Rel (context.Twins roots) owner owner' ∧
      List.Forall₂ (context.Twins roots) args args' :=
  congruent.applied h

end Twins

/-- Supertypes of twins are twins. -/
theorem Coherent.twins_supertype (hcoherent : context.Coherent roots) {t t' s : Ty}
    (h : context.Twins roots t t') (hs : context.Supertype t s) :
    ∃ s', context.Supertype t' s' ∧ context.Twins roots s s' := by
  obtain ⟨s', hs', heq⟩ := hcoherent.uniform.supertype h.left h.right h.equal hs
  exact ⟨s', hs', h.left.supertype hs, h.right.supertype hs', heq⟩

end Context

/-- Where one relation accepts what is related to what another accepts, it accepts arguments that
are related to the other's. -/
theorem ArgumentsAccepted.congr {related : Ty → Ty → Prop} {accepts accepts' : Ty → Ty → Prop}
    {owner owner' outer outer' : Option Ty} {args args' others others' : List Ty}
    (h : ArgumentsAccepted accepts owner owner' args args')
    (howner : Option.Rel related owner outer) (howner' : Option.Rel related owner' outer')
    (hargs : List.Forall₂ related args others) (hargs' : List.Forall₂ related args' others')
    (hcongr : ∀ {s s' t t'}, related s s' → related t t' → accepts s t → accepts' s' t') :
    ArgumentsAccepted accepts' outer outer' others others' where
  owners first hfirst second hsecond := by
    cases hfirst
    cases hsecond
    cases howner with
    | some houter =>
        cases howner' with
        | some houter' => exact hcongr houter houter' (h.owners _ rfl _ rfl)
  args := by
    have haccepted := h.args
    clear h howner howner'
    induction haccepted generalizing others others' with
    | nil =>
        cases hargs
        cases hargs'
        exact .nil
    | cons hfirst _ ih =>
        cases hargs with
        | cons hrelated hargs =>
            cases hargs' with
            | cons hrelated' hargs' =>
                exact .cons (hcongr hrelated hrelated' hfirst) (ih hargs hargs')

namespace Context

variable {context : Context} {roots : List Ty}

/-- A relation between the types of two contexts that goes on to parts and bounds, and to the
supertypes of those types of the second context about which enough is known. -/
structure Carries (first second : Context) (related : Ty → Ty → Prop) (known : Ty → Prop) : Prop
    extends Ty.Congruent related where
  bounds : ∀ {param param'}, related (.var param) (.var param') →
    List.Forall₂ related (first.heap.bounds param) (second.heap.bounds param')
  raw : ∀ {head head'}, related (.named head) (.named head') →
    first.env.isRaw (.named head) = true → second.env.isRaw (.named head') = true
  supertype : ∀ {t t' s}, related t t' → known t' → first.Supertype t s →
    ∃ s', second.Supertype t' s' ∧ related s s'

/-- The comparison of two types begins with the supertypes of the payload. -/
def LooksAbove : Ty → Ty → Prop
  | .named _, payload => payload.isVar = false ∧ payload.isWildcard = false
  | .applied .., payload => ∃ name, payload.headName? = some name
  | _, _ => False

section Carries

variable {first second : Context} {related : Ty → Ty → Prop} {known : Ty → Prop}

/-- Equal names are contained in related payloads. -/
theorem Carries.nominallyContains (hcarries : Carries first second related known)
    {head head' : Named} {payload payload' : Ty} (hpayload : related payload payload')
    (hknown : known payload') (hhead : (head == head') = true)
    (h : first.NominallyContains head payload) : second.NominallyContains head' payload' := by
  obtain ⟨s, found, hs, herases, hfound⟩ := h
  obtain ⟨s', hs', hrelated⟩ := hcarries.supertype hpayload hknown hs
  obtain ⟨erased, herases', hequal⟩ :=
    erases_congr hcarries.toCongruent hcarries.bounds hrelated .nil herases
  obtain ⟨found', rfl, hsame⟩ := Ty.named_beq hequal
  exact ⟨s', found', hs', herases', BEq.trans (BEq.symm hsame) (BEq.trans hfound hhead)⟩

/-- A rule of the first context that applies to two types applies in the second to related ones, if
enough is known of the payload where its supertypes are asked for. -/
theorem Carries.rule (hcarries : Carries first second related known)
    {accepts accepts' : Variance → Ty → Ty → Prop} {variance : Variance}
    {receiver receiver' payload payload' : Ty}
    (hcongr : ∀ {variance s s' t t'}, related s s' → related t t' →
      accepts variance s t → accepts' variance s' t')
    (hreceiver : related receiver receiver') (hpayload : related payload payload')
    (hknown : variance = .covariant → LooksAbove receiver' payload' → known payload')
    (h : first.Rule accepts variance receiver payload) :
    second.Rule accepts' variance receiver' payload' := by
  have hwildcard := Ty.isWildcard_congr (hcarries.equal hpayload)
  have hvariable := Ty.isVar_congr (hcarries.equal hpayload)
  have hname' := Ty.headName_congr (hcarries.equal hpayload)
  cases h with
  | extends_extends h =>
      obtain ⟨_, rfl, hupper⟩ := hcarries.wildcard_none hreceiver
      obtain ⟨_, rfl, hupper'⟩ := hcarries.wildcard_none hpayload
      exact .extends_extends (hcongr hupper hupper' h)
  | super_super h h' =>
      obtain ⟨_, _, rfl, hupper, hlower⟩ := hcarries.wildcard_some hreceiver
      obtain ⟨_, _, rfl, hupper', hlower'⟩ := hcarries.wildcard_some hpayload
      exact .super_super (hcongr hupper hupper' h) (hcongr hlower' hlower h')
  | extends_super h htop =>
      obtain ⟨_, rfl, hupper⟩ := hcarries.wildcard_none hreceiver
      obtain ⟨_, _, rfl, hupper', _⟩ := hcarries.wildcard_some hpayload
      exact .extends_super (hcongr hupper hupper' h)
        (Ty.isTop_congr (hcarries.equal hupper) ▸ htop)
  | extends_type hwild h =>
      obtain ⟨_, rfl, hupper⟩ := hcarries.wildcard_none hreceiver
      exact .extends_type (hwildcard ▸ hwild) (hcongr hupper hpayload h)
  | super_type hwild h h' =>
      obtain ⟨_, _, rfl, hupper, hlower⟩ := hcarries.wildcard_some hreceiver
      exact .super_type (hwildcard ▸ hwild) (hcongr hupper hpayload h) (hcongr hpayload hlower h')
  | var_same h =>
      obtain ⟨_, rfl, hparam⟩ := hcarries.var hreceiver
      obtain ⟨_, rfl, hparam'⟩ := hcarries.var hpayload
      exact .var_same (BEq.trans (BEq.symm hparam') (BEq.trans h hparam))
  | var_bound hbounds h =>
      obtain ⟨_, rfl, _⟩ := hcarries.var hpayload
      -- there are as many bounds, and the only one is related to the variable that follows
      have hrelated := hcarries.bounds hpayload
      rw [hbounds] at hrelated
      obtain ⟨bound, _, hnext, hnil, hbounds'⟩ := List.forall₂_cons_left_iff.1 hrelated
      cases hnil
      obtain ⟨_, rfl, _⟩ := hcarries.var hnext
      obtain ⟨_, rfl, _⟩ := hcarries.var hreceiver
      exact .var_bound hbounds' (hcongr hreceiver hnext h)
  | widen hvar hwild hbound h =>
      obtain ⟨_, rfl, _⟩ := hcarries.var hpayload
      obtain ⟨bound', hbound', hrelated⟩ := (hcarries.bounds hpayload).exists_mem hbound
      exact .widen (Ty.isVar_congr (hcarries.equal hreceiver) ▸ hvar)
        (Ty.isWildcard_congr (hcarries.equal hreceiver) ▸ hwild) hbound'
        (hcongr hreceiver hrelated h)
  | named hvar hwild h =>
      obtain ⟨_, rfl, hhead⟩ := hcarries.named hreceiver
      have hvar' := hvariable ▸ hvar
      have hwild' := hwildcard ▸ hwild
      exact .named hvar' hwild'
        (hcarries.nominallyContains hpayload (hknown rfl ⟨hvar', hwild'⟩) hhead h)
  | raw h hraw =>
      obtain ⟨_, raw', _, rfl, hraw', _, _⟩ := hcarries.applied hreceiver
      obtain ⟨head', rfl, hhead⟩ := hcarries.named hpayload
      exact .raw (hcarries.nominallyContains hpayload (hknown rfl ⟨_, rfl⟩) hraw' h)
        (hcarries.raw hpayload hraw)
  | ancestor hname h hs hraw hargs =>
      obtain ⟨_, raw', _, rfl, hraw', howner, hothers⟩ := hcarries.applied hreceiver
      have hname' := hname' ▸ hname
      have hknown := hknown rfl ⟨_, hname'⟩
      obtain ⟨s', hs', hrelated⟩ := hcarries.supertype hpayload hknown hs
      obtain ⟨_, ancestor, _, rfl, hancestor, howner', hothers'⟩ := hcarries.applied hrelated
      exact .ancestor hname' (hcarries.nominallyContains hpayload hknown hraw' h) hs'
        (BEq.trans (BEq.symm hancestor) (BEq.trans hraw hraw'))
        (hargs.congr howner howner' hothers hothers' fun hs ht => hcongr hs ht)
  | array h =>
      obtain ⟨_, rfl, hcomponent⟩ := hcarries.array hreceiver
      obtain ⟨_, rfl, hcomponent'⟩ := hcarries.array hpayload
      exact .array (hcongr hcomponent hcomponent' h)
  | contained hwild h =>
      exact .contained (hwild.imp (Ty.isWildcard_congr (hcarries.equal hreceiver) ▸ ·)
        (hwildcard ▸ ·)) (hcongr hreceiver hpayload h)
  | named_invariant h =>
      obtain ⟨_, rfl, hhead⟩ := hcarries.named hreceiver
      obtain ⟨_, rfl, hhead'⟩ := hcarries.named hpayload
      exact .named_invariant (BEq.trans (BEq.symm hhead) (BEq.trans h hhead'))
  | applied_invariant hraw hargs =>
      obtain ⟨_, _, _, rfl, hraw', howner, hothers⟩ := hcarries.applied hreceiver
      obtain ⟨_, _, _, rfl, hraw'', howner', hothers'⟩ := hcarries.applied hpayload
      exact .applied_invariant (BEq.trans (BEq.symm hraw') (BEq.trans hraw hraw''))
        (hargs.congr howner howner' hothers hothers' fun hs ht => hcongr hs ht)
  | var_invariant h =>
      obtain ⟨_, rfl, hparam⟩ := hcarries.var hreceiver
      obtain ⟨_, rfl, hparam'⟩ := hcarries.var hpayload
      exact .var_invariant (BEq.trans (BEq.symm hparam) (BEq.trans h hparam'))
  | array_invariant h =>
      obtain ⟨_, rfl, hcomponent⟩ := hcarries.array hreceiver
      obtain ⟨_, rfl, hcomponent'⟩ := hcarries.array hpayload
      exact .array_invariant (hcongr hcomponent hcomponent' h)

end Carries

/-- Among coherent types a context carries over to itself. -/
theorem Coherent.carries (hcoherent : context.Coherent roots) :
    Carries context context (context.Twins roots) fun _ => True where
  toCongruent := Twins.congruent
  bounds := hcoherent.twins_bounds
  raw h hraw := context.env.isRaw_congr h.equal (hcoherent.kinds h.left h.right h.equal) ▸ hraw
  supertype h _ hs := hcoherent.twins_supertype h hs

/-- Equal names are contained in equal payloads. -/
theorem Coherent.nominallyContains (hcoherent : context.Coherent roots) {head head' : Named}
    {payload payload' : Ty} (hpayload : context.Reached roots payload)
    (hpayload' : context.Reached roots payload') (hhead : (head == head') = true)
    (heq : (payload == payload') = true) (h : context.NominallyContains head payload) :
    context.NominallyContains head' payload' :=
  hcoherent.carries.nominallyContains ⟨hpayload, hpayload', heq⟩ trivial hhead h

variable {variance : Variance} {receiver receiver' payload payload' : Ty}

/-- Acceptance within a height does not tell twins apart. -/
theorem Coherent.within (hcoherent : context.Coherent roots) {height : Nat}
    (hreceiver : context.Twins roots receiver receiver')
    (hpayload : context.Twins roots payload payload')
    (h : context.Within height variance receiver payload) :
    context.Within height variance receiver' payload' := by
  induction height generalizing variance receiver receiver' payload payload' with
  | zero => cases h
  | succ height ih =>
      exact hcoherent.carries.rule (fun hs ht => ih hs ht) hreceiver hpayload
        (fun _ _ => trivial) h

/-- Acceptance does not tell twins apart. -/
theorem Coherent.accepts (hcoherent : context.Coherent roots)
    (hreceiver : context.Twins roots receiver receiver')
    (hpayload : context.Twins roots payload payload')
    (h : context.Accepts variance receiver payload) :
    context.Accepts variance receiver' payload' := by
  obtain ⟨height, h⟩ := accepts_iff_within.1 h
  exact accepts_iff_within.2 ⟨height, hcoherent.within hreceiver hpayload h⟩

end Context

end Nominal
