import Nominal.Proofs.Handles
import Nominal.Proofs.Substitution
import Nominal.Proofs.Supertypes

/-!
# Supertypes of member types

A member type stands in an owner, which may be a member type itself. What is declared above it may
mention the parameters of all declarations around it, and `Env.scope` gives their values. The direct
supertypes have in them the arguments of the type and those of its owner; parameters of declarations
farther out stay in them. Read `Context.resolves_near_owner` first: it says when that is enough.
-/

namespace Nominal

namespace Ty

/-! ## Variables in a type -/

/-- A variable equal to the given one stands somewhere in a type. -/
def Has (t : Ty) (param : TypeVar) : Prop := ∃ other, t.Mentions other ∧ (other == param) = true

variable {param : TypeVar} {s t : Ty} {map : Substitution}

/-- All variables in a type have a property if all that it mentions have it. -/
theorem vars_iff {holds : TypeVar → Prop} :
    t.Vars holds ↔ ∀ param, t.Mentions param → holds param := by
  constructor
  · intro h param hmentions
    induction hmentions with
    | self => exact h.self param rfl
    | part hpart _ ih => exact ih (h.part hpart)
  · intro h
    induction t using parts_induction with
    | step t ih =>
        refine .intro ?_ fun part hpart =>
          ih part hpart fun param hmentions => h param (.part hpart hmentions)
        rintro param rfl
        exact h param .self

/-- A variable has the variables that are equal to it. -/
theorem has_var {other : TypeVar} : (Ty.var other).Has param ↔ (other == param) = true := by
  simp [Has, mentions_var]

/-- What stands in a part stands in the type. -/
theorem Has.part {part : Ty} (h : part.Has param) (hpart : part ∈ t.parts) : t.Has param := by
  obtain ⟨other, hmentions, heq⟩ := h
  exact ⟨other, .part hpart hmentions, heq⟩

/-- What stands in a type that is no variable stands in one of its parts. -/
theorem Has.exists_part (h : t.Has param) (hvar : t.isVar = false) :
    ∃ part ∈ t.parts, part.Has param := by
  obtain ⟨other, hmentions, heq⟩ := h
  obtain ⟨part, hpart, hmentions⟩ := (mentions_iff hvar).1 hmentions
  exact ⟨part, hpart, other, hmentions, heq⟩

/-- A name has no variables. -/
theorem not_has_named {head : Named} : ¬ (Ty.named head).Has param := by
  intro h
  obtain ⟨_, hpart, _⟩ := h.exists_part rfl
  cases hpart

/-- Equal types have the same variables. -/
theorem Has.congr (h : s.Has param) (heq : (s == t) = true) : t.Has param := by
  obtain ⟨other, hmentions, hother⟩ := h
  induction hmentions generalizing t with
  | self =>
      obtain ⟨param', rfl, hparam⟩ := var_beq heq
      exact has_var.2 (BEq.trans (BEq.symm hparam) hother)
  | part hpart _ ih =>
      obtain ⟨part', hpart', hpartEq⟩ := (matches_parts heq).exists_mem hpart
      exact (ih hpartEq).part hpart'

/-- The wildcard above a type has no other variables. -/
theorem Has.of_superOf (h : (superOf t).Has param) : t.Has param := by
  cases hwild : t.isWildcard with
  | false =>
      rw [superOf_eq hwild] at h
      obtain ⟨part, hpart, h⟩ := h.exists_part rfl
      rcases List.mem_cons.1 hpart with rfl | hpart
      · exact absurd h not_has_named
      · rwa [List.mem_singleton.1 hpart] at h
  | true =>
      obtain ⟨upper, lower, rfl⟩ := eq_wildcard hwild
      cases lower with
      | none =>
          obtain ⟨part, hpart, h⟩ := h.exists_part rfl
          exact absurd (List.mem_singleton.1 hpart ▸ h) not_has_named
      | some lower =>
          obtain ⟨part, hpart, h⟩ := h.exists_part rfl
          rcases List.mem_cons.1 hpart with rfl | hpart
          · exact absurd h not_has_named
          · exact h.part (List.mem_cons_of_mem _ hpart)

/-- The wildcard below a type has no other variables. -/
theorem Has.of_extendsOf (h : (extendsOf t).Has param) : t.Has param := by
  cases hwild : t.isWildcard with
  | false =>
      rw [extendsOf_eq hwild] at h
      obtain ⟨part, hpart, h⟩ := h.exists_part rfl
      rwa [List.mem_singleton.1 hpart] at h
  | true =>
      obtain ⟨upper, lower, rfl⟩ := eq_wildcard hwild
      cases lower with
      | none => exact h
      | some lower =>
          obtain ⟨part, hpart, h⟩ := h.exists_part rfl
          exact absurd (List.mem_singleton.1 hpart ▸ h) not_has_named

/-! ## Variables after a substitution -/

/-- A variable that is there after the variables were replaced was there without a value, or stands
in a value. -/
theorem Has.of_replace (h : (replace map t).Has param) :
    (t.Has param ∧ map.lookup param = none) ∨
      ∃ key value, map.lookup key = some value ∧ value.Has param := by
  induction t using parts_induction with
  | step t ih =>
      have hstep {part : Ty} (hpart : part ∈ t.parts) (h : (replace map part).Has param) :
          (t.Has param ∧ map.lookup param = none) ∨
            ∃ key value, map.lookup key = some value ∧ value.Has param :=
        (ih part hpart h).imp_left fun ⟨hhas, hnone⟩ => ⟨hhas.part hpart, hnone⟩
      cases t with
      | named head => exact absurd h not_has_named
      | var other =>
          rw [replace] at h
          cases hlookup : map.lookup other with
          | some value =>
              rw [hlookup] at h
              exact .inr ⟨other, value, hlookup, h⟩
          | none =>
              rw [hlookup] at h
              exact .inl ⟨h, by rw [← lookup_param_congr (has_var.1 h), hlookup]⟩
      | array component =>
          obtain ⟨part, hpart, h⟩ := (h.congr (replace_array map component)).exists_part rfl
          cases List.mem_singleton.1 hpart
          exact hstep (List.mem_singleton.2 rfl) h
      | applied owner raw args =>
          obtain ⟨part, hpart, h⟩ := (h.congr (replace_applied map owner raw args)).exists_part rfl
          rcases List.mem_append.1 hpart with hpart | hpart
          · cases owner with
            | none => cases hpart
            | some owner =>
                cases List.mem_singleton.1 hpart
                exact hstep (List.mem_append_left _ (List.mem_singleton.2 rfl)) h
          · obtain ⟨arg, harg, rfl⟩ := List.mem_map.1 hpart
            exact hstep (List.mem_append_right _ harg) h
      | wildcard upper lower =>
          cases lower with
          | none => exact hstep List.mem_cons_self h.of_extendsOf
          | some lower =>
              exact hstep (List.mem_cons_of_mem _ (List.mem_singleton.2 rfl)) h.of_superOf

/-- A type without wildcards around it becomes a wildcard only if it is a variable with a value. -/
theorem eq_var_of_isWildcard_replace (hwild : t.isWildcard = false)
    (h : (replace map t).isWildcard = true) :
    ∃ key, t = .var key ∧ (map.lookup key).isSome = true := by
  cases t with
  | var key =>
      refine ⟨key, rfl, ?_⟩
      rw [replace] at h
      cases hlookup : map.lookup key with
      | none =>
          rw [hlookup] at h
          cases h
      | some value => rfl
  | named head => cases h
  | array component => cases (isWildcard_congr (replace_array map component)).symm.trans h
  | applied owner raw args =>
      cases (isWildcard_congr (replace_applied map owner raw args)).symm.trans h
  | wildcard upper lower => cases hwild

/-- A variable without a value stays in a well formed type. Its bounds are not lost, since a bound
that becomes a wildcard had a value. -/
theorem Has.replace (hformed : t.WellFormed) (h : t.Has param) (hnone : map.lookup param = none) :
    (t.replace map).Has param := by
  induction t using parts_induction with
  | step t ih =>
      have hpart {part : Ty} (hpart : part ∈ t.parts) (h : part.Has param) :
          (part.replace map).Has param := ih part hpart (hformed.part hpart) h
      have hflat {bound : Ty} (hwild : bound.isWildcard = false) (h : bound.Has param) :
          (bound.replace map).isWildcard = false := by
        rw [← Bool.not_eq_true]
        intro hreplaced
        obtain ⟨key, rfl, hsome⟩ := eq_var_of_isWildcard_replace hwild hreplaced
        rw [lookup_param_congr (has_var.1 h), hnone] at hsome
        cases hsome
      cases t with
      | named head => exact absurd h not_has_named
      | var other =>
          rw [Ty.replace, lookup_param_congr (has_var.1 h), hnone]
          exact h
      | array component =>
          obtain ⟨part, hmem, h⟩ := h.exists_part rfl
          cases List.mem_singleton.1 hmem
          have hinner : (Ty.array (component.replace map)).Has param :=
            (hpart hmem h).part (List.mem_singleton.2 rfl)
          exact hinner.congr (BEq.symm (replace_array map component))
      | applied owner raw args =>
          obtain ⟨part, hmem, h⟩ := h.exists_part rfl
          have hinner : (Ty.applied (owner.map (Ty.replace map)) raw
              (args.map (Ty.replace map))).Has param := by
            refine (hpart hmem h).part ?_
            rcases List.mem_append.1 hmem with howner | harg
            · cases owner with
              | none => cases howner
              | some owner =>
                  cases List.mem_singleton.1 howner
                  exact List.mem_append_left _ (List.mem_singleton.2 rfl)
            · exact List.mem_append_right _ (List.mem_map_of_mem harg)
          exact hinner.congr (BEq.symm (replace_applied map owner raw args))
      | wildcard upper lower =>
          cases lower with
          | none =>
              obtain ⟨part, hmem, h⟩ := h.exists_part rfl
              cases List.mem_singleton.1 hmem
              have hupper : upper.isWildcard = false := hformed.self
              rw [Ty.replace, extendsOf_eq (hflat hupper h)]
              exact (hpart hmem h).part (List.mem_singleton.2 rfl)
          | some lower =>
              obtain ⟨part, hmem, hhas⟩ := h.exists_part rfl
              obtain ⟨htop, hlower⟩ : upper.isTop = true ∧ lower.isWildcard = false := hformed.self
              rcases List.mem_cons.1 hmem with rfl | hlowerMem
              · exact absurd (hhas.congr (BEq.symm (top_beq htop))) not_has_named
              · cases List.mem_singleton.1 hlowerMem
                rw [Ty.replace, superOf_eq (hflat hlower hhas)]
                exact (hpart hmem hhas).part (List.mem_cons_of_mem _ (List.mem_singleton.2 rfl))

/-- A variable that is there after a substitution was there without a value, or stands in a
value. -/
theorem Has.of_substitute (h : (t.substitute map).Has param) :
    (t.Has param ∧ map.lookup param = none) ∨
      ∃ key value, map.lookup key = some value ∧ value.Has param := by
  cases hempty : map.isEmpty with
  | true =>
      rw [substitute_of_isEmpty hempty] at h
      cases List.isEmpty_iff.1 hempty
      exact .inl ⟨h, rfl⟩
  | false =>
      rw [substitute_of_not_isEmpty hempty] at h
      exact h.of_replace

/-- A variable without a value stays in a well formed type. -/
theorem Has.substitute (hformed : t.WellFormed) (h : t.Has param)
    (hnone : map.lookup param = none) : (t.substitute map).Has param := by
  rw [Ty.substitute]
  split
  · exact h
  · exact h.replace hformed hnone

/-- Where all variables of a type have values, the variables after a substitution are those of the
values. -/
theorem Has.exists_value (hvars : t.Vars fun param => (map.lookup param).isSome = true)
    (h : (t.substitute map).Has param) : ∃ entry ∈ map, entry.2.Has param := by
  rcases h.of_substitute with ⟨⟨other, hmentions, hother⟩, hnone⟩ | ⟨key, value, hvalue, hhas⟩
  · have hsome := vars_iff.1 hvars other hmentions
    rw [lookup_param_congr hother, hnone] at hsome
    cases hsome
  · have hvalues : map.Values fun value => ∃ entry ∈ map, entry.2 = value :=
      fun entry hentry => ⟨entry, hentry, rfl⟩
    obtain ⟨entry, hentry, rfl⟩ := hvalues.lookup hvalue
    exact ⟨entry, hentry, hhas⟩

/-- A type in its owner, without what is around the owner. -/
def nearOwner : Ty → Ty
  | .applied (some (.applied _ ownerRaw ownerArgs)) raw args =>
      .applied (some (.applied none ownerRaw ownerArgs)) raw args
  | t => t

end Ty

/-! ## Scopes -/

namespace Env

/-- The arguments of an applied type by the parameters of its declaration. -/
def level (env : Env) (raw : ClassName) (args : List Ty) : Substitution :=
  match env.find? raw.name with
  | some declaration => declaration.params.zip args
  | none => []

/-- The values of the parameters of a declaration, and after them the values of the parameters of
the declarations around it. -/
def scope (env : Env) : Ty → Substitution
  | .applied none raw args => env.level raw args
  | .applied (some outer) raw args => env.level raw args ++ scope env outer
  | _ => []

/-- There is a declaration with distinct parameters, one for each argument. -/
def Fits (env : Env) (raw : ClassName) (args : List Ty) : Prop :=
  ∃ declaration, env.find? raw.name = some declaration ∧
    args.length = declaration.params.length ∧
    declaration.params.Pairwise fun first second => (first == second) = false

/-- A type and all owners around it are applied to the arguments that their declarations ask for. -/
inductive Enclosed (env : Env) : Ty → Prop where
  | outermost {raw : ClassName} {args : List Ty} :
      env.Fits raw args → Enclosed env (.applied none raw args)
  | member {outer : Ty} {raw : ClassName} {args : List Ty} :
      Enclosed env outer → env.Fits raw args → Enclosed env (.applied (some outer) raw args)

/-- The parameters of a declaration have the arguments at their positions as values. -/
theorem Fits.lookup_ofArgs {env : Env} {raw : ClassName} {args : List Ty} (h : env.Fits raw args)
    {declaration : Declaration} (hfound : env.find? raw.name = some declaration)
    (param : TypeVar) :
    (Substitution.ofArgs declaration args).lookup param = (env.level raw args).lookup param := by
  obtain ⟨_, hfound', hlength, hdistinct⟩ := h
  cases hfound.symm.trans hfound'
  rw [level, hfound, Substitution.ofArgs, Substitution.ofPairs, Substitution.lookup_foldl,
    List.lookup_nil, Option.or_none]
  rw [← List.map_fst_zip (Nat.le_of_eq hlength.symm)] at hdistinct
  exact List.pairwise_map.1 hdistinct

/-- What is around an owner comes last in a scope. -/
theorem scope_eq_append (env : Env) (t : Ty) :
    ∃ rest, env.scope t = env.scope t.nearOwner ++ rest := by
  cases t with
  | named | array | var | wildcard => exact ⟨[], rfl⟩
  | applied owner raw args =>
      cases owner with
      | none => exact ⟨[], (List.append_nil _).symm⟩
      | some outer =>
          cases outer with
          | named | array | var | wildcard => exact ⟨[], (List.append_nil _).symm⟩
          | applied farther ownerRaw ownerArgs =>
              cases farther with
              | none => exact ⟨[], (List.append_nil _).symm⟩
              | some farther => exact ⟨env.scope farther, (List.append_assoc _ _ _).symm⟩

/-- A parameter that has a value in the owner has it in the whole scope. -/
theorem lookup_scope_of_near {env : Env} {t : Ty} {param : TypeVar}
    (h : ((env.scope t.nearOwner).lookup param).isSome = true) :
    (env.scope t.nearOwner).lookup param = (env.scope t).lookup param := by
  obtain ⟨rest, hrest⟩ := env.scope_eq_append t
  rw [hrest, List.lookup_append, Option.or_of_isSome h]

end Env

namespace Context

variable {context : Context} {owner : Option Ty} {raw : ClassName} {args : List Ty}
  {declaration : Declaration}

/-- The arguments that are put into declared supertypes are those of the type and of its owner. -/
theorem lookup_argumentsOf_near (henclosed : context.env.Enclosed (.applied owner raw args))
    (hfound : context.env.find? raw.name = some declaration) (param : TypeVar) :
    (context.argumentsOf declaration owner args).lookup param =
      (context.env.scope (Ty.applied owner raw args).nearOwner).lookup param := by
  cases henclosed with
  | outermost hfits => exact hfits.lookup_ofArgs hfound param
  | member houter hfits =>
      have hown := hfits.lookup_ofArgs hfound param
      -- the outer type is applied, and its own owner plays no part
      have hlevels {farther : Option Ty} {ownerRaw : ClassName} {ownerArgs : List Ty}
          (hfits' : context.env.Fits ownerRaw ownerArgs) :
          (context.argumentsOf declaration (some (.applied farther ownerRaw ownerArgs)) args).lookup
            param = (context.env.level raw args ++ context.env.level ownerRaw ownerArgs).lookup
              param := by
        obtain ⟨enclosing, henclosing, _⟩ := id hfits'
        rw [argumentsOf, henclosing]
        dsimp only
        rw [Substitution.lookup_insertNew_all, hown, hfits'.lookup_ofArgs henclosing,
          List.lookup_append]
      cases houter with
      | outermost hfits' => exact hlevels hfits'
      | member _ hfits' => exact hlevels hfits'

/-- A declared supertype that mentions only parameters of the type and of its owner gets the values
of all parameters in scope. -/
theorem substitute_argumentsOf_near (henclosed : context.env.Enclosed (.applied owner raw args))
    (hfound : context.env.find? raw.name = some declaration) {u : Ty} (hformed : u.WellFormed)
    (hnear : u.Vars fun param =>
      ((context.env.scope (Ty.applied owner raw args).nearOwner).lookup param).isSome = true) :
    (u.substitute (context.argumentsOf declaration owner args) ==
      u.substitute (context.env.scope (.applied owner raw args))) = true := by
  refine Ty.substitute_of_vars hformed (hnear.mono fun param hsome => ?_)
  rw [lookup_argumentsOf_near henclosed hfound, Env.lookup_scope_of_near hsome]

/-- Any other variable of a declared supertype stays. -/
theorem exists_direct_has (henclosed : context.env.Enclosed (.applied owner raw args))
    (hfound : context.env.find? raw.name = some declaration) {u : Ty}
    (hu : u ∈ declaration.supertypes) (hformed : u.WellFormed) {param : TypeVar}
    (hhas : u.Has param)
    (hfar : (context.env.scope (Ty.applied owner raw args).nearOwner).lookup param = none) :
    ∃ s, context.Direct (.applied owner raw args) s ∧ s.Has param := by
  obtain ⟨s, hdirect, heq⟩ := @direct_applied context owner raw args _ hfound _ hu
  refine ⟨s, hdirect, (hhas.substitute hformed ?_).congr heq⟩
  rw [lookup_argumentsOf_near henclosed hfound, hfar]

/-- The direct supertypes of a type are the declared ones, each parameter in scope replaced by its
value, and have no other variables than the values have. -/
structure Resolves (context : Context) (t : Ty) (declared : List Ty) : Prop where
  declared_of_direct {s : Ty} : context.Direct t s → (declared = [] ∧ s = .top) ∨
    ∃ u ∈ declared, (s == u.substitute (context.env.scope t)) = true
  direct_of_declared {u : Ty} : u ∈ declared →
    ∃ s, context.Direct t s ∧ (s == u.substitute (context.env.scope t)) = true
  no_params {s : Ty} {param : TypeVar} : context.Direct t s → s.Has param →
    ∃ entry ∈ context.env.scope t, entry.2.Has param

/-- Member types resolve the parameters of their owner. If what is declared mentions no other
parameters than those of the type and of its owner, every parameter in scope is replaced. Parameters
of declarations farther out are not: they stay in the direct supertypes, so that all parameters are
replaced only if the arguments bring such variables back. -/
theorem resolves_near_owner (henclosed : context.env.Enclosed (.applied owner raw args))
    (hfound : context.env.find? raw.name = some declaration)
    (hformed : ∀ u ∈ declaration.supertypes, u.WellFormed) :
    ((∀ u ∈ declaration.supertypes, u.Vars fun param =>
        ((context.env.scope (Ty.applied owner raw args).nearOwner).lookup param).isSome = true) →
      context.Resolves (.applied owner raw args) declaration.supertypes) ∧
    (∀ u ∈ declaration.supertypes, ∀ param, u.Has param →
      (context.env.scope (Ty.applied owner raw args).nearOwner).lookup param = none →
      ∃ s, context.Direct (.applied owner raw args) s ∧ s.Has param) ∧
    (context.Resolves (.applied owner raw args) declaration.supertypes →
      ∀ u ∈ declaration.supertypes, u.Vars fun param =>
        ((context.env.scope (Ty.applied owner raw args).nearOwner).lookup param).isSome = true ∨
          ∃ entry ∈ context.env.scope (.applied owner raw args), entry.2.Has param) := by
  refine ⟨fun hnear => ?_, fun u hu param hhas hfar => ?_, fun hresolves u hu => ?_⟩
  · have hsame (u : Ty) (hu : u ∈ declaration.supertypes) :=
      substitute_argumentsOf_near henclosed hfound (hformed u hu) (hnear u hu)
    constructor
    case declared_of_direct =>
        intro s hdirect
        obtain ⟨_, hfound', ⟨u, hu, rfl⟩ | ⟨hnone, _, rfl⟩⟩ := direct_applied_cases hdirect
        · cases hfound.symm.trans hfound'
          exact .inr ⟨u, hu, hsame u hu⟩
        · cases hfound.symm.trans hfound'
          exact .inl ⟨hnone, rfl⟩
    case direct_of_declared =>
        intro u hu
        obtain ⟨s, hdirect, heq⟩ := @direct_applied context owner raw args _ hfound _ hu
        exact ⟨s, hdirect, BEq.trans (BEq.symm heq) (hsame u hu)⟩
    case no_params =>
        intro s param hdirect hhas
        obtain ⟨_, hfound', ⟨u, hu, rfl⟩ | ⟨_, _, rfl⟩⟩ := direct_applied_cases hdirect
        · cases hfound.symm.trans hfound'
          refine (hhas.congr (hsame u hu)).exists_value ((hnear u hu).mono fun param hsome => ?_)
          rwa [← Env.lookup_scope_of_near hsome]
        · exact absurd hhas Ty.not_has_named
  · exact exists_direct_has henclosed hfound hu (hformed u hu) hhas hfar
  · refine Ty.vars_iff.2 fun param hmentions => ?_
    cases hfar : (context.env.scope (Ty.applied owner raw args).nearOwner).lookup param with
    | some value => exact .inl rfl
    | none =>
        obtain ⟨s, hdirect, hhas⟩ := exists_direct_has henclosed hfound hu (hformed u hu)
          ⟨param, hmentions, BEq.rfl⟩ hfar
        exact .inr (hresolves.no_params hdirect hhas)

section Ships

/-- The type parameter of ships. -/
def cargo : TypeVar := ⟨"Cargo", "Ship", .owning 0⟩

/-- The type parameter of the decks of ships. -/
def rank : TypeVar := ⟨"Rank", "Ship$Deck", .owning 1⟩

/-- The type parameter of the cabins of decks. -/
def guest : TypeVar := ⟨"Guest", "Ship$Deck$Cabin", .owning 2⟩

/-- A booking of three types. -/
def booking (first second third : Ty) : Ty :=
  .applied none ⟨⟨"Booking", .interfaceType, 3⟩, rfl⟩ [first, second, third]

/-- A property holds everywhere in a booking if it holds of the booking and in the three types. -/
theorem everywhere_booking {holds : Ty → Prop} {first second third : Ty}
    (hself : holds (booking first second third)) (hfirst : first.Everywhere holds)
    (hsecond : second.Everywhere holds) (hthird : third.Everywhere holds) :
    (booking first second third).Everywhere holds := by
  refine .intro hself fun part hpart => ?_
  rcases List.mem_cons.1 hpart with rfl | hpart
  · exact hfirst
  · rcases List.mem_cons.1 hpart with rfl | hpart
    · exact hsecond
    · rwa [List.mem_singleton.1 hpart]

/-- Cabins are declared below one type. -/
def cabins (above : Ty) : Declaration :=
  ⟨⟨"Ship$Deck$Cabin", .classType, 1⟩, [guest], none, [above]⟩

/-- Cabins are members of decks, and decks are members of ships. -/
def ships (above : Ty) : Context where
  env := {
    find? := fun name =>
      if name = "Ship" then some ⟨⟨"Ship", .classType, 1⟩, [cargo], none, []⟩
      else if name = "Ship$Deck" then some ⟨⟨"Ship$Deck", .classType, 1⟩, [rank], none, []⟩
      else if name = "Ship$Deck$Cabin" then some (cabins above)
      else none
    cloneable := .cloneable
    serializable := .serializable }
  heap := ⟨#[.unbound, .unbound, .unbound], []⟩
  memoize := true

/-- What the ship carries. -/
def freight : Ty := .named ⟨"Freight", .classType, 0⟩

/-- Who is on the deck. -/
def officer : Ty := .named ⟨"Officer", .classType, 0⟩

/-- Who is in the cabin. -/
def visitor : Ty := .named ⟨"Visitor", .classType, 0⟩

/-- The cabin of a visitor, on the deck of officers, on a ship with freight. -/
def cabin : Ty :=
  .applied (some (.applied (some (.applied none ⟨⟨"Ship", .classType, 1⟩, rfl⟩ [freight]))
    ⟨⟨"Ship$Deck", .classType, 1⟩, rfl⟩ [officer]))
    ⟨⟨"Ship$Deck$Cabin", .classType, 1⟩, rfl⟩ [visitor]

/-- Each of the three declarations has the one argument that it asks for. -/
theorem ships_enclosed (above : Ty) : (ships above).env.Enclosed cabin := by
  refine .member (.member (.outermost ?_) ?_) ?_ <;>
    exact ⟨_, rfl, rfl, List.pairwise_singleton _ _⟩

/-- A booking in terms of the deck and of the cabin. -/
def onDeck : Ty := booking (.var rank) (.array (.var guest)) (.wildcard (.var rank) none)

/-- A booking in terms of the ship, the deck and the cabin. -/
def onShip : Ty := booking (.var cargo) (.var rank) (.var guest)

/-- A cabin that is booked on its deck is booked for the officer and the visitor, also where their
parameters stand in arrays and bounds. -/
theorem cabin_resolves_on_deck :
    (ships onDeck).env.Enclosed cabin ∧ (ships onDeck).Resolves cabin [onDeck] ∧
    ((ships onDeck).directSupertypes 1 cabin).answer =
      some [booking officer (.array visitor) (.wildcard officer none)] := by
  have hformed : onDeck.WellFormed := by
    have hvar (param : TypeVar) := List.forall_mem_singleton.2 (Ty.wellFormed_var param)
    exact everywhere_booking trivial (Ty.wellFormed_var _) (.intro trivial (hvar _))
      (.intro rfl (hvar _))
  have hnear : onDeck.Vars fun param =>
      (((ships onDeck).env.scope cabin.nearOwner).lookup param).isSome = true := by
    refine everywhere_booking nofun (Ty.vars_var.2 rfl) (.intro nofun ?_) (.intro nofun ?_)
    · exact List.forall_mem_singleton.2 (Ty.vars_var.2 rfl)
    · exact List.forall_mem_singleton.2 (Ty.vars_var.2 rfl)
  exact ⟨ships_enclosed _, (resolves_near_owner (ships_enclosed onDeck) rfl
    (List.forall_mem_singleton.2 hformed)).1 (List.forall_mem_singleton.2 hnear), rfl⟩

/-- A cabin that is booked on its ship is not booked for the freight: the parameter of ships stays
in the booking. -/
theorem cabin_keeps_cargo :
    (ships onShip).env.Enclosed cabin ∧
    (onShip.Vars fun param => (((ships onShip).env.scope cabin).lookup param).isSome = true) ∧
    onShip.substitute ((ships onShip).env.scope cabin) = booking freight officer visitor ∧
    ((ships onShip).directSupertypes 1 cabin).answer =
      some [booking (.var cargo) officer visitor] ∧
    ¬ (ships onShip).Resolves cabin [onShip] := by
  refine ⟨ships_enclosed _, ?_, rfl, rfl, fun hresolves => ?_⟩
  · exact everywhere_booking nofun (Ty.vars_var.2 rfl) (Ty.vars_var.2 rfl) (Ty.vars_var.2 rfl)
  · have hdirect : (ships onShip).Direct cabin (booking (.var cargo) officer visitor) :=
      ⟨_, ⟨1, rfl⟩, List.mem_singleton.2 rfl⟩
    obtain ⟨entry, hentry, hhas⟩ := hresolves.no_params hdirect
      (Ty.Has.part (Ty.has_var.2 BEq.rfl) List.mem_cons_self)
    have hscope : (ships onShip).env.scope cabin =
        [(guest, visitor), (rank, officer), (cargo, freight)] := rfl
    rw [hscope] at hentry
    simp only [List.mem_cons, List.not_mem_nil, or_false] at hentry
    rcases hentry with rfl | rfl | rfl <;> exact Ty.not_has_named hhas

end Ships

end Context

end Nominal
