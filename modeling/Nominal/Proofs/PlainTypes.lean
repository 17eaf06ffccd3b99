import Nominal.Proofs.Names

/-!
# Plain types

A plain type has no owners and no lower bounds, and all names in it pass a given test. Substituting
plain types for variables in a plain type gives a plain type, so that plain declarations and bounds
keep what is reached from plain types plain. The two tests that matter are the one that everything
passes, and the one that raw uses of generic declarations fail (`Env.NotRaw`).
-/

namespace Nominal

namespace Ty

/-- A node that has neither an owner nor a lower bound and, if it is a name, passes the test. -/
def PlainAt (names : Named → Prop) : Ty → Prop
  | .named head => names head
  | .applied owner _ _ => owner = none
  | .wildcard _ lower => lower = none
  | .array _ | .var _ => True

/-- A type without owners and lower bounds, in which all names pass the test. -/
def Plain (names : Named → Prop) (t : Ty) : Prop := t.Everywhere (PlainAt names)

namespace Plain

variable {names names' : Named → Prop} {owner : Option Ty} {raw : ClassName} {head : Named}
  {args : List Ty} {inner bound : Ty} {lower : Option Ty}

/-- A name is plain if it passes the test. -/
theorem named (h : names head) : (Ty.named head).Plain names :=
  .intro h (List.forall_mem_nil _)

/-- Variables are plain. -/
theorem var {param : TypeVar} : (Ty.var param).Plain names :=
  .intro trivial (List.forall_mem_nil _)

/-- A name applied to plain arguments is plain. -/
theorem applied (h : ∀ arg ∈ args, arg.Plain names) : (Ty.applied none raw args).Plain names :=
  .intro rfl h

/-- An array of a plain type is plain. -/
theorem array (h : inner.Plain names) : (Ty.array inner).Plain names :=
  .intro trivial (List.forall_mem_singleton.2 h)

/-- A wildcard with a plain upper bound is plain. -/
theorem wildcard (h : bound.Plain names) : (Ty.wildcard bound none).Plain names :=
  .intro rfl (List.forall_mem_singleton.2 h)

/-- A plain applied type has no owner. -/
theorem owner_eq (h : (Ty.applied owner raw args).Plain names) : owner = none := h.self

/-- An applied type is not the universal supertype, so it is plain if that is the alternative. -/
theorem of_applied
    (h : (Ty.applied owner raw args).Plain names ∨ Ty.applied owner raw args = .top) :
    (Ty.applied owner raw args).Plain names := by
  rcases h with h | h
  · exact h
  · cases h

/-- The arguments of a plain type are plain. -/
theorem arg (h : (Ty.applied owner raw args).Plain names) {arg : Ty} (harg : arg ∈ args) :
    arg.Plain names :=
  h.part (List.mem_append_right _ harg)

/-- The component of a plain array is plain. -/
theorem component (h : (Ty.array inner).Plain names) : inner.Plain names :=
  h.part (List.mem_singleton.2 rfl)

/-- The upper bound of a plain wildcard is plain. -/
theorem upper (h : (Ty.wildcard bound lower).Plain names) : bound.Plain names :=
  h.part List.mem_cons_self

/-- A plain wildcard has no lower bound. -/
theorem lower_eq (h : (Ty.wildcard bound lower).Plain names) : lower = none := h.self

/-- A plain type is plain for a weaker test. -/
theorem mono {t : Ty} (h : t.Plain names) (hle : ∀ head, names head → names' head) :
    t.Plain names' := by
  refine Everywhere.mono h fun u hu => ?_
  cases u with
  | named head => exact hle head hu
  | applied | array | var | wildcard => exact hu

/-- The wildcard below a plain type is plain. -/
theorem extendsOf {t : Ty} (h : t.Plain names) : t.extendsOf.Plain names := by
  cases hwild : t.isWildcard with
  | false =>
      rw [extendsOf_eq hwild]
      exact h.wildcard
  | true =>
      obtain ⟨upper, lower, rfl⟩ := eq_wildcard hwild
      -- a plain wildcard has no lower bound, so flattening it gives it back
      cases h.lower_eq
      exact h

/-- Replacing variables by plain types keeps types plain. -/
theorem replace {map : Substitution}
    (hmap : ∀ {param value}, map.lookup param = some value → value.Plain names) {t : Ty}
    (h : t.Plain names) : (t.replace map).Plain names := by
  induction t using parts_induction with
  | step t ih =>
      cases t with
      | named head => exact h
      | var param =>
          rw [Ty.replace]
          cases hlookup : map.lookup param with
          | none => exact h
          | some value => exact hmap hlookup
      | applied owner raw args =>
          cases h.owner_eq
          rw [Ty.replace, replaceOption_eq, replaceList_eq]
          split
          · exact h
          · refine applied fun arg' harg' => ?_
            obtain ⟨arg, harg, rfl⟩ := List.mem_map.1 harg'
            exact ih arg (List.mem_append_right _ harg) (h.arg harg)
      | array component =>
          have hcomponent := ih component (List.mem_singleton.2 rfl) h.component
          rw [Ty.replace]
          split
          · exact h
          · exact hcomponent.array
      | wildcard upper lower =>
          cases h.lower_eq
          rw [Ty.replace]
          exact (ih upper List.mem_cons_self h.upper).extendsOf

/-- Applying a substitution by plain types keeps types plain. -/
theorem substitute {map : Substitution}
    (hmap : ∀ {param value}, map.lookup param = some value → value.Plain names) {t : Ty}
    (h : t.Plain names) : (t.substitute map).Plain names := by
  rw [Ty.substitute]
  split
  · exact h
  · exact h.replace hmap

/-- Parameters are substituted by arguments, so by plain types if the arguments are plain. -/
theorem lookup_ofArgs (declaration : Declaration) (h : ∀ arg ∈ args, arg.Plain names)
    {param : TypeVar} {value : Ty}
    (hlookup : (Substitution.ofArgs declaration args).lookup param = some value) :
    value.Plain names :=
  (Substitution.values_ofArgs declaration h).lookup hlookup

end Plain

end Ty

/-- The name is no raw use of a generic declaration. -/
def Env.NotRaw (env : Env) (head : Named) : Prop :=
  head.isPrimitive = true ∨
    ∀ {declaration}, env.find? head.name = some declaration → declaration.params.isEmpty = true

namespace Context

/-- Declared supertypes are plain, and so are the bounds of the variables that are reached. -/
structure PlainHierarchy (context : Context) (roots : List Ty) (names : Named → Prop) : Prop where
  declared : ∀ {name declaration}, context.env.find? name = some declaration →
    ∀ s ∈ declaration.supertypes, s.Plain names
  bounds : ∀ {param bound}, context.Reached roots (.var param) →
    bound ∈ context.heap.bounds param → bound.Plain names

variable {context : Context} {roots : List Ty} {names : Named → Prop}

/-- Direct supertypes of a plain applied type are plain, or the universal supertype. -/
theorem PlainHierarchy.direct_applied (hplain : context.PlainHierarchy roots names)
    {owner : Option Ty} {raw : ClassName} {args : List Ty} {s : Ty}
    (h : (Ty.applied owner raw args).Plain names)
    (hdirect : context.Direct (.applied owner raw args) s) : s.Plain names ∨ s = .top := by
  cases h.owner_eq
  obtain ⟨declaration, hfound, ⟨t, ht, rfl⟩ | ⟨_, _, rfl⟩⟩ := direct_applied_cases hdirect
  · exact .inl ((hplain.declared hfound t ht).substitute
      (Ty.Plain.lookup_ofArgs declaration fun _ => h.arg))
  · exact .inr rfl

/-- A name that is no raw use has the declared supertypes as they are. -/
theorem direct_named_cases {head : Named} {s : Ty} (hnotRaw : context.env.NotRaw head)
    (h : context.Direct (.named head) s) :
    ∃ declaration, context.env.find? head.name = some declaration ∧
      declaration.params.isEmpty = true ∧ head.isTop = false ∧
      s ∈ orTop (Ty.distinct declaration.supertypes) := by
  obtain ⟨types, htypes, hs⟩ := h
  cases hleaf : head.isTop || head.isPrimitive with
  | true =>
      cases (directs_leaf hleaf).1 htypes
      cases hs
  | false =>
      cases hfound : context.env.find? head.name with
      | none =>
          cases (directs_missing hfound).1 htypes
          cases hs
      | some declaration =>
          obtain ⟨htop, hprimitive⟩ := Bool.or_eq_false_iff.1 hleaf
          have hparams := hnotRaw.resolve_left (Bool.eq_false_iff.1 hprimitive) hfound
          cases (directs_plain hleaf hfound hparams).1 htypes
          exact ⟨declaration, rfl, hparams, htop, hs⟩

/-- Direct supertypes of a name that is no raw use are plain, or the universal supertype. -/
theorem PlainHierarchy.direct_named (hplain : context.PlainHierarchy roots names) {head : Named}
    {s : Ty} (hnotRaw : context.env.NotRaw head) (hdirect : context.Direct (.named head) s) :
    s.Plain names ∨ s = .top := by
  obtain ⟨declaration, hfound, _, _, hs⟩ := direct_named_cases hnotRaw hdirect
  exact (mem_of_mem_orTop_distinct hs).imp (hplain.declared hfound s) And.right

/-- Supertypes of a plain type with a head are plain, or the universal supertype. -/
theorem PlainHierarchy.supertype (hplain : context.PlainHierarchy roots context.env.NotRaw)
    (hregular : context.env.Regular) {t s : Ty} {head : Named} (ht : t.head? = some head)
    (h : t.Plain context.env.NotRaw) (hs : context.Supertype t s) :
    s.Plain context.env.NotRaw ∨ s = .top := by
  induction hs with
  | refl => exact .inl h
  | @tail u v hu hdirect ih =>
      rcases ih with hu' | rfl
      · obtain ⟨above, habove⟩ := supertype_head hregular ht hu
        cases u with
        | named head => exact hplain.direct_named hu'.self hdirect
        | applied owner raw args => exact hplain.direct_applied hu' hdirect
        | array | var | wildcard => cases habove
      · exact .inr (supertype_leaf rfl (.single hdirect))

end Context

end Nominal
