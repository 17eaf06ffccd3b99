import Nominal.Proofs.Closures

/-!
# The rules of acceptance

`Rule` lists the ways in which a receiver accepts a payload, with what has to be accepted first
left open, and `Accepts` is the least relation that is closed under them. No rule mentions the
comparisons that are under way. `Within` bounds the height of a derivation: a pair is accepted
exactly when it is accepted within some height (`accepts_iff_within`), so that a derivation of
least height can be chosen.
-/

namespace Nominal

/-- Owners are accepted when both are there, and arguments position by position. -/
structure ArgumentsAccepted (accepts : Ty → Ty → Prop) (owner owner' : Option Ty)
    (args args' : List Ty) : Prop where
  owners : ∀ outer ∈ owner, ∀ outer' ∈ owner', accepts outer outer'
  args : List.Forall₂ accepts args args'

/-- Arguments that are accepted stay so when more is accepted. -/
theorem ArgumentsAccepted.mono {accepts accepts' : Ty → Ty → Prop}
    (hle : ∀ s t, accepts s t → accepts' s t) {owner owner' : Option Ty} {args args' : List Ty}
    (h : ArgumentsAccepted accepts owner owner' args args') :
    ArgumentsAccepted accepts' owner owner' args args' where
  owners outer houter outer' houter' := hle _ _ (h.owners outer houter outer' houter')
  args := h.args.imp hle

/-- Arguments are all that is compared unless both types have an owner. -/
theorem ArgumentsAccepted.without_owners {accepts : Ty → Ty → Prop} {owner owner' : Option Ty}
    {args args' : List Ty} (h : owner = none ∨ owner' = none)
    (hargs : List.Forall₂ accepts args args') :
    ArgumentsAccepted accepts owner owner' args args' where
  owners outer houter outer' houter' := by
    rcases h with rfl | rfl
    · cases houter
    · cases houter'
  args := hargs

namespace Context

/-- The ways in which a receiver accepts a payload, from what is accepted already. -/
inductive Rule (context : Context) (accepts : Variance → Ty → Ty → Prop) :
    Variance → Ty → Ty → Prop where
  /-- A wildcard accepts a wildcard with an accepted upper bound. -/
  | extends_extends {upper upper' : Ty} : accepts .covariant upper upper' →
      Rule context accepts .covariant (.wildcard upper none) (.wildcard upper' none)
  /-- Lower bounds are compared the other way round. -/
  | super_super {upper upper' lower lower' : Ty} : accepts .covariant upper upper' →
      accepts .covariant lower' lower →
      Rule context accepts .covariant (.wildcard upper (some lower))
        (.wildcard upper' (some lower'))
  /-- A lower bound is ignored where everything is accepted. -/
  | extends_super {upper upper' lower' : Ty} : accepts .covariant upper upper' →
      upper.isTop = true →
      Rule context accepts .covariant (.wildcard upper none) (.wildcard upper' (some lower'))
  /-- A wildcard accepts what its upper bound accepts. -/
  | extends_type {upper payload : Ty} : payload.isWildcard = false →
      accepts .covariant upper payload →
      Rule context accepts .covariant (.wildcard upper none) payload
  /-- A wildcard with a lower bound accepts what also accepts that bound. -/
  | super_type {upper lower payload : Ty} : payload.isWildcard = false →
      accepts .covariant upper payload → accepts .covariant payload lower →
      Rule context accepts .covariant (.wildcard upper (some lower)) payload
  /-- A variable accepts itself. -/
  | var_same {param param' : TypeVar} : (param' == param) = true →
      Rule context accepts .covariant (.var param) (.var param')
  /-- A variable accepts a variable whose sole bound is a variable that it accepts. -/
  | var_bound {param param' next : TypeVar} : context.heap.bounds param' = [.var next] →
      accepts .covariant (.var param) (.var next) →
      Rule context accepts .covariant (.var param) (.var param')
  /-- A variable is accepted where one of its bounds is. -/
  | widen {receiver bound : Ty} {param : TypeVar} : receiver.isVar = false →
      receiver.isWildcard = false → bound ∈ context.heap.bounds param →
      accepts .covariant receiver bound → Rule context accepts .covariant receiver (.var param)
  /-- A name accepts what has it among its erased supertypes. -/
  | named {head : Named} {payload : Ty} : payload.isVar = false → payload.isWildcard = false →
      context.NominallyContains head payload → Rule context accepts .covariant (.named head) payload
  /-- An applied type accepts a raw use of a generic declaration that erases to its name. -/
  | raw {owner : Option Ty} {raw : ClassName} {head : Named} {args : List Ty} :
      context.NominallyContains raw (.named head) → context.env.isRaw (.named head) = true →
      Rule context accepts .covariant (.applied owner raw args) (.named head)
  /-- An applied type accepts what has an application of its name to accepted arguments among its
  supertypes. -/
  | ancestor {owner owner' : Option Ty} {raw raw' : ClassName} {args args' : List Ty} {payload : Ty}
      {name : String} : payload.headName? = some name → context.NominallyContains raw payload →
      context.Supertype payload (.applied owner' raw' args') → (raw'.toNamed == raw) = true →
      ArgumentsAccepted (accepts .invariant) owner owner' args args' →
      Rule context accepts .covariant (.applied owner raw args) payload
  /-- Arrays follow their components. -/
  | array {component component' : Ty} : accepts .covariant component component' →
      Rule context accepts .covariant (.array component) (.array component')
  /-- Where there is a wildcard, invariance is containment. -/
  | contained {receiver payload : Ty} :
      (receiver.isWildcard = true ∨ payload.isWildcard = true) →
      accepts .covariant receiver payload → Rule context accepts .invariant receiver payload
  /-- Otherwise names must be equal. -/
  | named_invariant {head head' : Named} : (head == head') = true →
      Rule context accepts .invariant (.named head) (.named head')
  /-- Applied types must have equal names, and their arguments must be accepted. -/
  | applied_invariant {owner owner' : Option Ty} {raw raw' : ClassName} {args args' : List Ty} :
      (raw.toNamed == raw') = true →
      ArgumentsAccepted (accepts .invariant) owner owner' args args' →
      Rule context accepts .invariant (.applied owner raw args) (.applied owner' raw' args')
  /-- Variables must be equal. -/
  | var_invariant {param param' : TypeVar} : (param == param') = true →
      Rule context accepts .invariant (.var param) (.var param')
  /-- Arrays follow their components. -/
  | array_invariant {component component' : Ty} : accepts .invariant component component' →
      Rule context accepts .invariant (.array component) (.array component')

/-- The least relation that is closed under the rules. -/
def Accepts (context : Context) (variance : Variance) (receiver payload : Ty) : Prop :=
  ∀ accepts : Variance → Ty → Ty → Prop,
    (∀ variance receiver payload, context.Rule accepts variance receiver payload →
      accepts variance receiver payload) → accepts variance receiver payload

/-- What is accepted by a derivation of bounded height. -/
def Within (context : Context) : Nat → Variance → Ty → Ty → Prop
  | 0, _, _, _ => False
  | height + 1, variance, receiver, payload =>
      context.Rule (context.Within height) variance receiver payload

variable {context : Context} {roots : List Ty} {accepts accepts' : Variance → Ty → Ty → Prop}
  {variance : Variance} {receiver payload : Ty}

/-! ## Derivations and their heights -/

/-- The more is accepted already, the more is accepted. -/
theorem Rule.mono (hle : ∀ variance s t, accepts variance s t → accepts' variance s t)
    (h : context.Rule accepts variance receiver payload) :
    context.Rule accepts' variance receiver payload := by
  cases h with
  | extends_extends h => exact .extends_extends (hle _ _ _ h)
  | super_super h h' => exact .super_super (hle _ _ _ h) (hle _ _ _ h')
  | extends_super h htop => exact .extends_super (hle _ _ _ h) htop
  | extends_type hwild h => exact .extends_type hwild (hle _ _ _ h)
  | super_type hwild h h' => exact .super_type hwild (hle _ _ _ h) (hle _ _ _ h')
  | var_same h => exact .var_same h
  | var_bound hbounds h => exact .var_bound hbounds (hle _ _ _ h)
  | widen hvar hwild hbound h => exact .widen hvar hwild hbound (hle _ _ _ h)
  | named hvar hwild h => exact .named hvar hwild h
  | raw h hraw => exact .raw h hraw
  | ancestor hname h hs hraw hargs =>
      exact .ancestor hname h hs hraw (hargs.mono (hle _))
  | array h => exact .array (hle _ _ _ h)
  | contained hwild h => exact .contained hwild (hle _ _ _ h)
  | named_invariant h => exact .named_invariant h
  | applied_invariant hraw hargs =>
      exact .applied_invariant hraw (hargs.mono (hle _))
  | var_invariant h => exact .var_invariant h
  | array_invariant h => exact .array_invariant (hle _ _ _ h)

/-- One more level of height accepts no less. -/
theorem Within.succ {height : Nat} (h : context.Within height variance receiver payload) :
    context.Within (height + 1) variance receiver payload := by
  induction height generalizing variance receiver payload with
  | zero => cases h
  | succ height ih => exact Rule.mono (fun _ _ _ => ih) h

/-- More height accepts no less. -/
theorem Within.mono {height more : Nat} (hle : height ≤ more)
    (h : context.Within height variance receiver payload) :
    context.Within more variance receiver payload := by
  induction hle with
  | refl => exact h
  | step _ ih => exact ih.succ

/-- Arguments that are accepted within some heights are accepted within a common one. -/
theorem exists_height {owner owner' : Option Ty} {args args' : List Ty}
    (h : ArgumentsAccepted (fun s t => ∃ height, context.Within height .invariant s t)
      owner owner' args args') :
    ∃ height, ArgumentsAccepted (context.Within height .invariant) owner owner' args args' := by
  obtain ⟨howners, hargs⟩ := h
  have hcommon : ∃ height, List.Forall₂ (context.Within height .invariant) args args' := by
    induction hargs with
    | nil => exact ⟨0, .nil⟩
    | cons hfirst _ ih =>
        obtain ⟨height, hfirst⟩ := hfirst
        obtain ⟨height', hrest⟩ := ih
        exact ⟨max height height', .cons (hfirst.mono (Nat.le_max_left ..))
          (hrest.imp fun _ _ => Within.mono (Nat.le_max_right ..))⟩
  obtain ⟨height, hcommon⟩ := hcommon
  cases owner with
  | none => exact ⟨height, .without_owners (.inl rfl) hcommon⟩
  | some outer =>
      cases owner' with
      | none => exact ⟨height, .without_owners (.inr rfl) hcommon⟩
      | some outer' =>
          obtain ⟨height', houter⟩ := howners outer rfl outer' rfl
          refine ⟨max height height', fun first hfirst second hsecond => ?_,
            hcommon.imp fun _ _ => ?_⟩
          · cases hfirst
            cases hsecond
            exact houter.mono (Nat.le_max_right ..)
          · exact Within.mono (Nat.le_max_left ..)

/-- What a rule accepts from pairs of bounded height has bounded height. -/
theorem Rule.exists_within
    (h : context.Rule (fun variance s t => ∃ height, context.Within height variance s t)
      variance receiver payload) : ∃ height, context.Within height variance receiver payload := by
  suffices hrule : ∃ height, context.Rule (context.Within height) variance receiver payload by
    obtain ⟨height, hrule⟩ := hrule
    exact ⟨height + 1, hrule⟩
  cases h with
  | extends_extends h =>
      obtain ⟨height, h⟩ := h
      exact ⟨height, .extends_extends h⟩
  | super_super h h' =>
      obtain ⟨height, h⟩ := h
      obtain ⟨height', h'⟩ := h'
      exact ⟨max height height', .super_super (h.mono (Nat.le_max_left ..))
        (h'.mono (Nat.le_max_right ..))⟩
  | extends_super h htop =>
      obtain ⟨height, h⟩ := h
      exact ⟨height, .extends_super h htop⟩
  | extends_type hwild h =>
      obtain ⟨height, h⟩ := h
      exact ⟨height, .extends_type hwild h⟩
  | super_type hwild h h' =>
      obtain ⟨height, h⟩ := h
      obtain ⟨height', h'⟩ := h'
      exact ⟨max height height', .super_type hwild (h.mono (Nat.le_max_left ..))
        (h'.mono (Nat.le_max_right ..))⟩
  | var_same h => exact ⟨0, .var_same h⟩
  | var_bound hbounds h =>
      obtain ⟨height, h⟩ := h
      exact ⟨height, .var_bound hbounds h⟩
  | widen hvar hwild hbound h =>
      obtain ⟨height, h⟩ := h
      exact ⟨height, .widen hvar hwild hbound h⟩
  | named hvar hwild h => exact ⟨0, .named hvar hwild h⟩
  | raw h hraw => exact ⟨0, .raw h hraw⟩
  | ancestor hname h hs hraw hargs =>
      obtain ⟨height, hargs⟩ := exists_height hargs
      exact ⟨height, .ancestor hname h hs hraw hargs⟩
  | array h =>
      obtain ⟨height, h⟩ := h
      exact ⟨height, .array h⟩
  | contained hwild h =>
      obtain ⟨height, h⟩ := h
      exact ⟨height, .contained hwild h⟩
  | named_invariant h => exact ⟨0, .named_invariant h⟩
  | applied_invariant hraw hargs =>
      obtain ⟨height, hargs⟩ := exists_height hargs
      exact ⟨height, .applied_invariant hraw hargs⟩
  | var_invariant h => exact ⟨0, .var_invariant h⟩
  | array_invariant h =>
      obtain ⟨height, h⟩ := h
      exact ⟨height, .array_invariant h⟩

/-- What is accepted has a derivation of bounded height, and the other way round. -/
theorem accepts_iff_within :
    context.Accepts variance receiver payload ↔
      ∃ height, context.Within height variance receiver payload := by
  constructor
  · intro h
    -- being accepted within some height is closed under the rules
    exact h _ fun _ _ _ => Rule.exists_within
  · rintro ⟨height, h⟩ accepts hclosed
    induction height generalizing variance receiver payload with
    | zero => cases h
    | succ height ih => exact hclosed _ _ _ (Rule.mono (fun _ _ _ => ih) h)

/-- Acceptance is what the rules make of acceptance. -/
theorem accepts_iff_rule :
    context.Accepts variance receiver payload ↔
      context.Rule context.Accepts variance receiver payload := by
  constructor
  · intro h
    obtain ⟨height, h⟩ := accepts_iff_within.1 h
    cases height with
    | zero => cases h
    | succ height => exact Rule.mono (fun _ _ _ h => accepts_iff_within.2 ⟨height, h⟩) h
  · intro h accepts hclosed
    exact hclosed _ _ _ (Rule.mono (fun _ _ _ h => h accepts hclosed) h)

/-! ## Rules shape by shape -/

section Shapes

variable {upper upper' lower lower' component component' : Ty} {param param' : TypeVar}
  {owner owner' : Option Ty} {raw raw' : ClassName} {head : Named} {args args' : List Ty}

/-- Wildcards without lower bounds follow their upper bounds. -/
theorem rule_extends_extends :
    context.Rule accepts .covariant (.wildcard upper none) (.wildcard upper' none) ↔
      accepts .covariant upper upper' := by
  refine ⟨fun h => ?_, .extends_extends⟩
  cases h with
  | extends_extends h => exact h
  | extends_type hwild => cases hwild

/-- Wildcards with lower bounds compare those the other way round. -/
theorem rule_super_super :
    context.Rule accepts .covariant (.wildcard upper (some lower))
        (.wildcard upper' (some lower')) ↔
      accepts .covariant upper upper' ∧ accepts .covariant lower' lower := by
  refine ⟨fun h => ?_, fun h => .super_super h.1 h.2⟩
  cases h with
  | super_super h h' => exact ⟨h, h'⟩
  | super_type hwild => cases hwild

/-- A wildcard without a lower bound accepts one with a lower bound only if it accepts everything.
-/
theorem rule_extends_super :
    context.Rule accepts .covariant (.wildcard upper none) (.wildcard upper' (some lower')) ↔
      accepts .covariant upper upper' ∧ upper.isTop = true := by
  refine ⟨fun h => ?_, fun h => .extends_super h.1 h.2⟩
  cases h with
  | extends_super h htop => exact ⟨h, htop⟩
  | extends_type hwild => cases hwild

/-- A wildcard with a lower bound accepts none without. -/
theorem rule_super_extends :
    ¬ context.Rule accepts .covariant (.wildcard upper (some lower)) (.wildcard upper' none) := by
  intro h
  cases h with
  | super_type hwild => cases hwild

/-- A wildcard without a lower bound accepts what its upper bound accepts. -/
theorem rule_extends (hwild : payload.isWildcard = false) :
    context.Rule accepts .covariant (.wildcard upper none) payload ↔
      accepts .covariant upper payload := by
  refine ⟨fun h => ?_, .extends_type hwild⟩
  cases h with
  | extends_type _ h => exact h
  | extends_extends | extends_super => cases hwild
  | widen _ hreceiver => cases hreceiver

/-- A wildcard with a lower bound accepts what its upper bound accepts and what accepts the lower
bound. -/
theorem rule_super (hwild : payload.isWildcard = false) :
    context.Rule accepts .covariant (.wildcard upper (some lower)) payload ↔
      accepts .covariant upper payload ∧ accepts .covariant payload lower := by
  refine ⟨fun h => ?_, fun h => .super_type hwild h.1 h.2⟩
  cases h with
  | super_type _ h h' => exact ⟨h, h'⟩
  | super_super => cases hwild
  | widen _ hreceiver => cases hreceiver

/-- A variable accepts itself and what is bounded by a variable that it accepts. -/
theorem rule_var_var :
    context.Rule accepts .covariant (.var param) (.var param') ↔
      (param' == param) = true ∨
        ∃ next, context.heap.bounds param' = [.var next] ∧
          accepts .covariant (.var param) (.var next) := by
  constructor
  · intro h
    cases h with
    | var_same h => exact .inl h
    | var_bound hbounds h => exact .inr ⟨_, hbounds, h⟩
    | widen hvar => cases hvar
  · rintro (h | ⟨next, hbounds, h⟩)
    · exact .var_same h
    · exact .var_bound hbounds h

/-- A variable accepts nothing but variables. -/
theorem rule_var (hvar : payload.isVar = false) :
    ¬ context.Rule accepts .covariant (.var param) payload := by
  intro h
  cases h <;> cases hvar

/-- A type that is neither a variable nor a wildcard accepts a variable through its bounds. -/
theorem rule_widen (hvar : receiver.isVar = false) (hwild : receiver.isWildcard = false) :
    context.Rule accepts .covariant receiver (.var param) ↔
      ∃ bound ∈ context.heap.bounds param, accepts .covariant receiver bound := by
  constructor
  · intro h
    cases h with
    | widen _ _ hbound h => exact ⟨_, hbound, h⟩
    | var_same | var_bound => cases hvar
    | extends_type | super_type => cases hwild
    | named hpayload => cases hpayload
    | ancestor hname => cases hname
  · rintro ⟨bound, hbound, h⟩
    exact .widen hvar hwild hbound h

/-- A type that is no wildcard accepts none. -/
theorem rule_wildcard {bound : Option Ty} (hwild : receiver.isWildcard = false) :
    ¬ context.Rule accepts .covariant receiver (.wildcard upper bound) := by
  intro h
  cases h with
  | extends_extends | super_super | extends_super | extends_type | super_type => cases hwild
  | named _ hpayload => cases hpayload
  | ancestor hname => cases hname

/-- A name accepts what has it among its erased supertypes. -/
theorem rule_named (hvar : payload.isVar = false) (hwild : payload.isWildcard = false) :
    context.Rule accepts .covariant (.named head) payload ↔
      context.NominallyContains head payload := by
  refine ⟨fun h => ?_, .named hvar hwild⟩
  cases h with
  | named _ _ h => exact h
  | widen => cases hvar

variable (context accepts) in
/-- Some supertype of the payload applies the name to arguments that are accepted. -/
def MatchingAncestor (owner : Option Ty) (raw : ClassName) (args : List Ty) (payload : Ty) : Prop :=
  ∃ owner' raw' args', context.Supertype payload (.applied owner' raw' args') ∧
    (raw'.toNamed == raw) = true ∧ ArgumentsAccepted (accepts .invariant) owner owner' args args'

/-- An applied type accepts a name that is raw or has a matching ancestor. -/
theorem rule_applied_named :
    context.Rule accepts .covariant (.applied owner raw args) (.named head) ↔
      context.NominallyContains raw (.named head) ∧
        (context.MatchingAncestor accepts owner raw args (.named head) ∨
          context.env.isRaw (.named head) = true) := by
  constructor
  · intro h
    cases h with
    | raw h hraw => exact ⟨h, .inr hraw⟩
    | ancestor _ h hs hraw hargs => exact ⟨h, .inl ⟨_, _, _, hs, hraw, hargs⟩⟩
  · rintro ⟨h, ⟨_, _, _, hs, hraw, hargs⟩ | hraw⟩
    · exact .ancestor rfl h hs hraw hargs
    · exact .raw h hraw

/-- An applied type accepts an applied type that has a matching ancestor. -/
theorem rule_applied_applied :
    context.Rule accepts .covariant (.applied owner raw args) (.applied owner' raw' args') ↔
      context.NominallyContains raw (.applied owner' raw' args') ∧
        context.MatchingAncestor accepts owner raw args (.applied owner' raw' args') := by
  constructor
  · intro h
    cases h with
    | ancestor _ h hs hraw hargs => exact ⟨h, _, _, _, hs, hraw, hargs⟩
  · rintro ⟨h, _, _, _, hs, hraw, hargs⟩
    exact .ancestor rfl h hs hraw hargs

/-- An applied type accepts no array. -/
theorem rule_applied_array :
    ¬ context.Rule accepts .covariant (.applied owner raw args) (.array component) := by
  intro h
  cases h with
  | ancestor hname => cases hname

/-- Arrays follow their components. -/
theorem rule_array_array :
    context.Rule accepts .covariant (.array component) (.array component') ↔
      accepts .covariant component component' := by
  refine ⟨fun h => ?_, .array⟩
  cases h with
  | array h => exact h

/-- An array accepts nothing that has a name at its head. -/
theorem rule_array_head {name : String} (hname : payload.headName? = some name) :
    ¬ context.Rule accepts .covariant (.array component) payload := by
  intro h
  cases h <;> cases hname

/-- Where there is a wildcard, invariance is containment. -/
theorem rule_contained (hwild : receiver.isWildcard = true ∨ payload.isWildcard = true) :
    context.Rule accepts .invariant receiver payload ↔ accepts .covariant receiver payload := by
  refine ⟨fun h => ?_, .contained hwild⟩
  cases h with
  | contained _ h => exact h
  | named_invariant | applied_invariant | var_invariant | array_invariant =>
      rcases hwild with hwild | hwild <;> cases hwild

/-- Names are invariant when they are equal. -/
theorem rule_named_invariant {head' : Named} :
    context.Rule accepts .invariant (.named head) (.named head') ↔ (head == head') = true := by
  refine ⟨fun h => ?_, .named_invariant⟩
  cases h with
  | named_invariant h => exact h
  | contained hwild => rcases hwild with hwild | hwild <;> cases hwild

/-- Applied types are invariant when their names are equal and their arguments accepted. -/
theorem rule_applied_invariant :
    context.Rule accepts .invariant (.applied owner raw args) (.applied owner' raw' args') ↔
      (raw.toNamed == raw') = true ∧
        ArgumentsAccepted (accepts .invariant) owner owner' args args' := by
  refine ⟨fun h => ?_, fun h => .applied_invariant h.1 h.2⟩
  cases h with
  | applied_invariant hraw hargs => exact ⟨hraw, hargs⟩
  | contained hwild => rcases hwild with hwild | hwild <;> cases hwild

/-- Variables are invariant when they are equal. -/
theorem rule_var_invariant :
    context.Rule accepts .invariant (.var param) (.var param') ↔ (param == param') = true := by
  refine ⟨fun h => ?_, .var_invariant⟩
  cases h with
  | var_invariant h => exact h
  | contained hwild => rcases hwild with hwild | hwild <;> cases hwild

/-- Arrays are invariant when their components are. -/
theorem rule_array_invariant :
    context.Rule accepts .invariant (.array component) (.array component') ↔
      accepts .invariant component component' := by
  refine ⟨fun h => ?_, .array_invariant⟩
  cases h with
  | array_invariant h => exact h
  | contained hwild => rcases hwild with hwild | hwild <;> cases hwild

/-- Types of different shapes are not invariant, wildcards apart. -/
theorem rule_shapes (hshape : (receiver.ctorIdx == payload.ctorIdx) = false)
    (hreceiver : receiver.isWildcard = false) (hpayload : payload.isWildcard = false) :
    ¬ context.Rule accepts .invariant receiver payload := by
  intro h
  cases h with
  | contained hwild =>
      rw [hreceiver, hpayload] at hwild
      rcases hwild with hwild | hwild <;> cases hwild
  | named_invariant | applied_invariant | var_invariant | array_invariant => cases hshape

end Shapes

/-! ## Laws -/

/-- A type nominally contains the head of each of its supertypes that are applied. -/
theorem nominallyContains_applied {t : Ty} {owner : Option Ty} {raw : ClassName} {head : Named}
    {args : List Ty} (h : context.Supertype t (.applied owner raw args))
    (hraw : (raw.toNamed == head) = true) :
    context.NominallyContains head t :=
  ⟨_, raw, h, erases_applied.2 rfl, hraw⟩

/-- A type nominally contains each of its supertypes that are names. -/
theorem nominallyContains_named {t : Ty} {head head' : Named}
    (h : context.Supertype t (.named head')) (hhead : (head' == head) = true) :
    context.NominallyContains head t :=
  ⟨_, head', h, erases_named.2 rfl, hhead⟩

variable (context) in
/-- Every type accepts itself, under both variances. -/
theorem accepts_refl (variance : Variance) (t : Ty) : context.Accepts variance t t := by
  suffices h : context.Accepts .covariant t t ∧ context.Accepts .invariant t t by
    cases variance with
    | covariant => exact h.1
    | invariant => exact h.2
  induction t using Ty.parts_induction with
  | step t ih =>
      rw [accepts_iff_rule, accepts_iff_rule]
      cases t with
      | named head =>
          exact ⟨.named rfl rfl (nominallyContains_named .refl BEq.rfl), .named_invariant BEq.rfl⟩
      | applied owner raw args =>
          have hargs : ArgumentsAccepted (context.Accepts .invariant) owner owner args args := by
            refine ⟨fun outer houter outer' houter' => ?_, List.forall₂_same.2 fun arg harg => ?_⟩
            · cases houter
              cases houter'
              exact (ih outer (List.mem_append_left _ (List.mem_singleton.2 rfl))).2
            · exact (ih arg (List.mem_append_right _ harg)).2
          exact ⟨.ancestor rfl (nominallyContains_applied .refl BEq.rfl) .refl BEq.rfl hargs,
            .applied_invariant BEq.rfl hargs⟩
      | array component =>
          have hcomponent := ih component (List.mem_singleton.2 rfl)
          exact ⟨.array hcomponent.1, .array_invariant hcomponent.2⟩
      | var param => exact ⟨.var_same BEq.rfl, .var_invariant BEq.rfl⟩
      | wildcard upper lower =>
          have hupper := (ih upper List.mem_cons_self).1
          have hcovariant : context.Rule context.Accepts .covariant (.wildcard upper lower)
              (.wildcard upper lower) := by
            cases lower with
            | none => exact .extends_extends hupper
            | some lower =>
                have hlower := ih lower (List.mem_cons_of_mem _ (List.mem_singleton.2 rfl))
                exact .super_super hupper hlower.1
          exact ⟨hcovariant, .contained (.inl rfl) (accepts_iff_rule.2 hcovariant)⟩

/-- What is accepted under invariance is accepted under covariance. -/
theorem Accepts.covariant (h : context.Accepts .invariant receiver payload) :
    context.Accepts .covariant receiver payload := by
  induction receiver using Ty.parts_induction generalizing payload with
  | step receiver ih =>
      cases accepts_iff_rule.1 h with
      | contained _ hcovariant => exact hcovariant
      | named_invariant heq =>
          exact accepts_iff_rule.2 (.named rfl rfl (nominallyContains_named .refl (BEq.symm heq)))
      | applied_invariant heq hargs =>
          exact accepts_iff_rule.2 (.ancestor rfl
            (nominallyContains_applied .refl (BEq.symm heq)) .refl (BEq.symm heq) hargs)
      | var_invariant heq => exact accepts_iff_rule.2 (.var_same (BEq.symm heq))
      | array_invariant hcomponent =>
          exact accepts_iff_rule.2 (.array (ih _ (List.mem_singleton.2 rfl) hcomponent))

end Context

end Nominal
