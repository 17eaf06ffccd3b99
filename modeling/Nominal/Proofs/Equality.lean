import Mathlib.Data.List.Forall2
import Nominal.Substitution
import Nominal.Type.Equality

/-!
# Parts and equality of types

The immediate parts of a type with the induction that goes with them, equality shape by shape, and
what keeps equality: removing repetitions, and substitution.
-/

/-- A member of one of two related lists is related to a member of the other. -/
theorem List.Forall₂.exists_mem {α β : Type} {related : α → β → Prop} {first : List α}
    {second : List β} (h : List.Forall₂ related first second) {s : α} (hs : s ∈ first) :
    ∃ t ∈ second, related s t := by
  induction h with
  | nil => cases hs
  | cons hrelated _ ih =>
      rcases List.mem_cons.1 hs with rfl | hs
      · exact ⟨_, List.mem_cons_self, hrelated⟩
      · obtain ⟨t, ht, hst⟩ := ih hs
        exact ⟨t, List.mem_cons_of_mem _ ht, hst⟩

/-- Two lists that are related to a third, position by position, are related to each other by what
follows from the two relations. -/
theorem List.Forall₂.join {α β γ : Type} {first : α → β → Prop} {second : α → γ → Prop}
    {joined : β → γ → Prop} {list : List α} {left : List β} {right : List γ}
    (h : List.Forall₂ first list left) (h' : List.Forall₂ second list right)
    (hjoined : ∀ t ∈ list, ∀ l ∈ left, ∀ r ∈ right, first t l → second t r → joined l r) :
    List.Forall₂ joined left right := by
  induction h generalizing right with
  | nil =>
      cases h'
      exact .nil
  | cons hfirst _ ih =>
      cases h' with
      | cons hsecond hrest =>
          refine .cons (hjoined _ List.mem_cons_self _ List.mem_cons_self _ List.mem_cons_self
            hfirst hsecond) (ih hrest fun t ht l hl r hr => ?_)
          exact hjoined t (List.mem_cons_of_mem _ ht) l (List.mem_cons_of_mem _ hl) r
            (List.mem_cons_of_mem _ hr)

namespace Nominal

namespace Ty

/-! ## Parts -/

/-- The types that a type is made of directly. Bounds of variables are not among them. -/
def parts : Ty → List Ty
  | .named _ => []
  | .applied owner _ args => owner.toList ++ args
  | .array component => [component]
  | .var _ => []
  | .wildcard upper lower => upper :: lower.toList

/-- Parts are smaller than the whole. -/
theorem sizeOf_lt_of_mem_parts {t part : Ty} (h : part ∈ t.parts) : sizeOf part < sizeOf t := by
  cases t with
  | named head => cases h
  | var param => cases h
  | array component =>
      cases List.mem_singleton.1 h
      simp
  | applied owner raw args =>
      rcases List.mem_append.1 h with howner | harg
      · cases Option.mem_toList.1 howner
        simp only [applied.sizeOf_spec, Option.some.sizeOf_spec]
        omega
      · have hlt := List.sizeOf_lt_of_mem harg
        simp only [applied.sizeOf_spec]
        omega
  | wildcard upper lower =>
      rcases List.mem_cons.1 h with rfl | hlower
      · simp only [wildcard.sizeOf_spec]
        omega
      · cases Option.mem_toList.1 hlower
        simp only [wildcard.sizeOf_spec, Option.some.sizeOf_spec]
        omega

/-- What holds of a type whenever it holds of its parts holds of every type. -/
@[elab_as_elim]
theorem parts_induction {motive : Ty → Prop}
    (step : ∀ t, (∀ part ∈ t.parts, motive part) → motive t) (t : Ty) : motive t :=
  step t fun part h =>
    have := sizeOf_lt_of_mem_parts h
    parts_induction step part
termination_by sizeOf t

/-- Every type inside a type, itself included, has a property. Bounds of variables are not inside.
-/
inductive Everywhere (holds : Ty → Prop) : Ty → Prop where
  | intro {t : Ty} : holds t → (∀ part ∈ t.parts, Everywhere holds part) → Everywhere holds t

namespace Everywhere

variable {holds : Ty → Prop} {t : Ty}

/-- The type itself has the property. -/
theorem self (h : Everywhere holds t) : holds t := by
  cases h with
  | intro hself _ => exact hself

/-- The property holds everywhere in each part. -/
theorem part {u : Ty} (h : Everywhere holds t) (hpart : u ∈ t.parts) : Everywhere holds u := by
  cases h with
  | intro _ hparts => exact hparts u hpart

/-- A weaker property holds everywhere too. -/
theorem mono {weaker : Ty → Prop} (h : Everywhere holds t) (hweaker : ∀ u, holds u → weaker u) :
    Everywhere weaker t := by
  induction h with
  | intro hself _ ih => exact .intro (hweaker _ hself) ih

end Everywhere

/-! ## Equality shape by shape -/

/-- Members of one list are equal to those of another in order. -/
abbrev Matches (first second : List Ty) : Prop :=
  List.Forall₂ (fun s t => (s == t) = true) first second

/-- Lists are equal when their members are, in order. -/
theorem list_beq_iff {first second : List Ty} :
    (first == second) = true ↔ Matches first second := by
  induction first generalizing second with
  | nil => cases second <;> simp
  | cons s rest ih =>
      cases second with
      | nil => simp
      | cons t rest' =>
          rw [List.cons_beq_cons, Bool.and_eq_true, ih, Matches, Matches, List.forall₂_cons]

/-- A list is equal to itself. -/
theorem matches_refl (list : List Ty) : Matches list list :=
  List.forall₂_same.2 fun _ _ => BEq.rfl

/-- A type equal to a name is a name. -/
theorem named_beq {head : Named} {t : Ty} (h : (Ty.named head == t) = true) :
    ∃ head', t = .named head' ∧ head == head' := by
  cases t with
  | named head' => exact ⟨head', rfl, h⟩
  | applied | array | var | wildcard => cases h

/-- A type equal to an applied type is one, with equal name, owner and arguments. -/
theorem applied_beq {owner : Option Ty} {raw : ClassName} {args : List Ty} {t : Ty}
    (h : (Ty.applied owner raw args == t) = true) :
    ∃ owner' raw' args', t = .applied owner' raw' args' ∧ raw.toNamed == raw' ∧ owner == owner' ∧
      Matches args args' := by
  cases t with
  | applied owner' raw' args' =>
      rw [applied_beq_applied, Bool.and_eq_true, Bool.and_eq_true] at h
      exact ⟨owner', raw', args', rfl, h.1.1, h.1.2, list_beq_iff.1 h.2⟩
  | named | array | var | wildcard => cases h

/-- A type equal to an array is an array with an equal component. -/
theorem array_beq {component t : Ty} (h : (Ty.array component == t) = true) :
    ∃ component', t = .array component' ∧ component == component' := by
  cases t with
  | array component' => exact ⟨component', rfl, h⟩
  | named | applied | var | wildcard => cases h

/-- A type equal to a variable is an equal variable. -/
theorem var_beq {param : TypeVar} {t : Ty} (h : (Ty.var param == t) = true) :
    ∃ param', t = .var param' ∧ param == param' := by
  cases t with
  | var param' => exact ⟨param', rfl, h⟩
  | named | applied | array | wildcard => cases h

/-- Wildcards are equal exactly when their bounds are. -/
theorem wildcard_beq_wildcard (upper upper' : Ty) (lower lower' : Option Ty) :
    (Ty.wildcard upper lower == .wildcard upper' lower') =
      (upper == upper' && lower == lower') := by
  simp only [beq_eq_same, same, alike, alikeOption_eq_beq]

/-- A type equal to a wildcard is a wildcard with equal bounds. -/
theorem wildcard_beq {upper t : Ty} {lower : Option Ty}
    (h : (Ty.wildcard upper lower == t) = true) :
    ∃ upper' lower', t = .wildcard upper' lower' ∧ upper == upper' ∧ lower == lower' := by
  cases t with
  | wildcard upper' lower' =>
      rw [wildcard_beq_wildcard, Bool.and_eq_true] at h
      exact ⟨upper', lower', rfl, h⟩
  | named | applied | array | var => cases h

/-- Equal types are wildcards together. -/
theorem isWildcard_congr {s t : Ty} (h : (s == t) = true) : s.isWildcard = t.isWildcard := by
  cases s <;> cases t <;> first | rfl | cases h

/-- Equal types are variables together. -/
theorem isVar_congr {s t : Ty} (h : (s == t) = true) : s.isVar = t.isVar := by
  cases s <;> cases t <;> first | rfl | cases h

/-- What is a wildcard has an upper and perhaps a lower bound. -/
theorem eq_wildcard {t : Ty} (h : t.isWildcard = true) :
    ∃ upper lower, t = .wildcard upper lower := by
  cases t with
  | wildcard upper lower => exact ⟨upper, lower, rfl⟩
  | named | applied | array | var => cases h

/-- What is a variable is one. -/
theorem eq_var {t : Ty} (h : t.isVar = true) : ∃ param, t = .var param := by
  cases t with
  | var param => exact ⟨param, rfl⟩
  | named | applied | array | wildcard => cases h

/-- Equal optional types are both absent or both there and equal. -/
theorem option_beq {first second : Option Ty} (h : (first == second) = true) :
    (first = none ∧ second = none) ∨
      ∃ s t, first = some s ∧ second = some t ∧ (s == t) = true := by
  cases first with
  | none =>
      cases second with
      | none => exact .inl ⟨rfl, rfl⟩
      | some t => cases h
  | some s =>
      cases second with
      | none => cases h
      | some t => exact .inr ⟨s, t, rfl, rfl, h⟩

/-- The parts of equal types are equal in order. -/
theorem matches_parts {s t : Ty} (h : (s == t) = true) : Matches s.parts t.parts := by
  cases s with
  | named head =>
      obtain ⟨_, rfl, _⟩ := named_beq h
      exact .nil
  | applied owner raw args =>
      obtain ⟨owner', raw', args', rfl, _, howner, hargs⟩ := applied_beq h
      rcases option_beq howner with ⟨rfl, rfl⟩ | ⟨outer, outer', rfl, rfl, houter⟩
      · exact hargs
      · exact .cons houter hargs
  | array component =>
      obtain ⟨component', rfl, hcomponent⟩ := array_beq h
      exact .cons hcomponent .nil
  | var param =>
      obtain ⟨_, rfl, _⟩ := var_beq h
      exact .nil
  | wildcard upper lower =>
      obtain ⟨upper', lower', rfl, hupper, hlower⟩ := wildcard_beq h
      rcases option_beq hlower with ⟨rfl, rfl⟩ | ⟨bound, bound', rfl, rfl, hbound⟩
      · exact .cons hupper .nil
      · exact .cons hupper (.cons hbound .nil)

/-- Members of equal lists are equal in order, and have what holds of the members of their list. -/
theorem Matches.within {left right : Ty → Prop} {types types' : List Ty} (h : Matches types types')
    (hleft : ∀ t ∈ types, left t) (hright : ∀ t ∈ types', right t) :
    List.Forall₂ (fun t t' => left t ∧ right t' ∧ (t == t') = true) types types' := by
  induction h with
  | nil => exact .nil
  | cons heq _ ih =>
      rw [List.forall_mem_cons] at hleft hright
      exact .cons ⟨hleft.1, hright.1, heq⟩ (ih hleft.2 hright.2)

/-- A relation between equal types that goes on to their parts. -/
structure Congruent (related : Ty → Ty → Prop) : Prop where
  equal : ∀ {t t'}, related t t' → (t == t') = true
  parts : ∀ {t t'}, related t t' → List.Forall₂ related t.parts t'.parts

namespace Congruent

variable {related : Ty → Ty → Prop}

/-- What is related to a name is an equal name. -/
theorem named (hcongruent : Congruent related) {head : Named} {t : Ty}
    (h : related (.named head) t) : ∃ head', t = .named head' ∧ (head == head') = true :=
  named_beq (hcongruent.equal h)

/-- What is related to a variable is an equal variable. -/
theorem var (hcongruent : Congruent related) {param : TypeVar} {t : Ty}
    (h : related (.var param) t) : ∃ param', t = .var param' ∧ (param == param') = true :=
  var_beq (hcongruent.equal h)

/-- What is related to an array is an array of what is related to its component. -/
theorem array (hcongruent : Congruent related) {component t : Ty}
    (h : related (.array component) t) :
    ∃ component', t = .array component' ∧ related component component' := by
  obtain ⟨component', rfl, _⟩ := array_beq (hcongruent.equal h)
  have hparts := hcongruent.parts h
  cases hparts with
  | cons hcomponent _ => exact ⟨component', rfl, hcomponent⟩

/-- What is related to a wildcard without a lower bound is one too. -/
theorem wildcard_none (hcongruent : Congruent related) {upper t : Ty}
    (h : related (.wildcard upper none) t) :
    ∃ upper', t = .wildcard upper' none ∧ related upper upper' := by
  obtain ⟨upper', lower', rfl, _, hlower⟩ := wildcard_beq (hcongruent.equal h)
  rcases option_beq hlower with ⟨_, rfl⟩ | ⟨_, _, hnone, _⟩
  · have hparts := hcongruent.parts h
    cases hparts with
    | cons hupper _ => exact ⟨upper', rfl, hupper⟩
  · cases hnone

/-- What is related to a wildcard with a lower bound is one too. -/
theorem wildcard_some (hcongruent : Congruent related) {upper lower t : Ty}
    (h : related (.wildcard upper (some lower)) t) :
    ∃ upper' lower', t = .wildcard upper' (some lower') ∧ related upper upper' ∧
      related lower lower' := by
  obtain ⟨upper', lower', rfl, _, hlower⟩ := wildcard_beq (hcongruent.equal h)
  rcases option_beq hlower with ⟨hnone, _⟩ | ⟨_, lower', _, rfl, _⟩
  · cases hnone
  · have hparts := hcongruent.parts h
    cases hparts with
    | cons hupper hrest =>
        cases hrest with
        | cons hlower _ => exact ⟨upper', lower', rfl, hupper, hlower⟩

/-- What is related to an applied type applies an equal name to related arguments, and its owner is
related. -/
theorem applied (hcongruent : Congruent related) {owner : Option Ty} {raw : ClassName}
    {args : List Ty} {t : Ty} (h : related (.applied owner raw args) t) :
    ∃ owner' raw' args', t = .applied owner' raw' args' ∧ (raw.toNamed == raw') = true ∧
      Option.Rel related owner owner' ∧ List.Forall₂ related args args' := by
  obtain ⟨owner', raw', args', rfl, hraw, howner, _⟩ := applied_beq (hcongruent.equal h)
  have hparts := hcongruent.parts h
  rcases option_beq howner with ⟨rfl, rfl⟩ | ⟨outer, outer', rfl, rfl, _⟩
  · exact ⟨none, raw', args', rfl, hraw, .none, hparts⟩
  · cases hparts with
    | cons houter hargs => exact ⟨some outer', raw', args', rfl, hraw, .some houter, hargs⟩

end Congruent

/-- Equality goes on to parts. -/
theorem congruent_beq : Congruent fun s t => (s == t) = true := ⟨id, matches_parts⟩

/-! ## Removing repetitions -/

/-- Add the types that are new to a list, in order. -/
def addNew (kept types : List Ty) : List Ty :=
  types.foldl (fun kept t => if kept.contains t then kept else kept ++ [t]) kept

/-- Removing repetitions adds to nothing. -/
theorem distinct_eq_addNew (types : List Ty) : distinct types = addNew [] types := rfl

/-- The first type is added if it is new. -/
theorem addNew_cons (kept types : List Ty) (t : Ty) :
    addNew kept (t :: types) = addNew (if kept.contains t then kept else kept ++ [t]) types := rfl

/-- What is there stays in its place. -/
theorem prefix_addNew (kept types : List Ty) : kept <+: addNew kept types := by
  induction types generalizing kept with
  | nil => exact List.prefix_refl kept
  | cons t rest ih =>
      rw [addNew_cons]
      split
      · exact ih kept
      · exact (List.prefix_append kept [t]).trans (ih _)

/-- Only what was there and what is added is there. -/
theorem mem_of_mem_addNew {kept types : List Ty} {s : Ty} (h : s ∈ addNew kept types) :
    s ∈ kept ∨ s ∈ types := by
  induction types generalizing kept with
  | nil => exact .inl h
  | cons t rest ih =>
      rw [addNew_cons] at h
      rcases ih h with hkept | hrest
      · split at hkept
        · exact .inl hkept
        · rcases List.mem_append.1 hkept with hkept | ht
          · exact .inl hkept
          · exact .inr (List.mem_singleton.1 ht ▸ List.mem_cons_self)
      · exact .inr (List.mem_cons_of_mem t hrest)

/-- What is added is there, up to equality. -/
theorem contains_addNew {kept types : List Ty} {s : Ty} (h : s ∈ types) :
    (addNew kept types).contains s = true := by
  induction types generalizing kept with
  | nil => cases h
  | cons t rest ih =>
      rw [addNew_cons]
      rcases List.mem_cons.1 h with rfl | hrest
      · have hstep : (if kept.contains s then kept else kept ++ [s]).contains s = true := by
          split
          · assumption
          · simp
        obtain ⟨member, hmember, heq⟩ := List.contains_iff_exists_mem_beq.1 hstep
        exact List.contains_iff_exists_mem_beq.2 ⟨member, (prefix_addNew _ _).subset hmember, heq⟩
      · exact ih hrest

/-- Lists that are equal in order have equal members. -/
theorem contains_matches {first second : List Ty} (h : Matches first second) {s t : Ty}
    (heq : (s == t) = true) : first.contains s = second.contains t := by
  induction h with
  | nil => rfl
  | cons hfirst _ ih =>
      rw [List.contains_cons, List.contains_cons, ih, BEq.congr_left heq, BEq.congr_right hfirst]

/-- Adding equal types gives equal types. -/
theorem addNew_congr {kept kept' types types' : List Ty} (hkept : Matches kept kept')
    (htypes : Matches types types') : Matches (addNew kept types) (addNew kept' types') := by
  induction htypes generalizing kept kept' with
  | nil => exact hkept
  | cons heq _ ih =>
      rw [addNew_cons, addNew_cons]
      apply ih
      rw [contains_matches hkept heq]
      split
      · exact hkept
      · exact List.rel_append hkept (.cons heq .nil)

/-- Removing repetitions keeps equality. -/
theorem distinct_congr {types types' : List Ty} (h : Matches types types') :
    Matches (distinct types) (distinct types') := addNew_congr .nil h

/-- Removing repetitions adds nothing. -/
theorem mem_of_mem_distinct {types : List Ty} {s : Ty} (h : s ∈ distinct types) : s ∈ types := by
  rcases mem_of_mem_addNew h with h | h
  · cases h
  · exact h

/-- Removing repetitions leaves an equal of each member. -/
theorem exists_mem_distinct {types : List Ty} {s : Ty} (h : s ∈ types) :
    ∃ t ∈ distinct types, (s == t) = true :=
  List.contains_iff_exists_mem_beq.1 (contains_addNew h)

end Ty

/-! ## Substitution -/

namespace Substitution

/-- Two substitutions have the same keys in the same order, and related values. -/
def Related (values : Ty → Ty → Prop) (map map' : Substitution) : Prop :=
  List.Forall₂ (fun entry entry' => entry.1 = entry'.1 ∧ values entry.2 entry'.2) map map'

variable {values : Ty → Ty → Prop} {map map' : Substitution}

/-- Setting related values keeps substitutions related. -/
theorem Related.insert (h : Related values map map') (key : TypeVar) {value value' : Ty}
    (hvalue : values value value') :
    Related values (map.insert key value) (map'.insert key value') := by
  induction h with
  | nil => exact .cons ⟨rfl, hvalue⟩ .nil
  | @cons entry entry' _ _ hentry hrest ih =>
      obtain ⟨hkey, hold⟩ := hentry
      rw [Substitution.insert, Substitution.insert, hkey]
      split
      · exact .cons ⟨rfl, hvalue⟩ hrest
      · exact .cons ⟨hkey, hold⟩ ih

/-- Related substitutions know the same variables and give them related values. -/
theorem Related.lookup (h : Related values map map') (key : TypeVar) :
    (map.lookup key = none ∧ map'.lookup key = none) ∨
      ∃ value value', map.lookup key = some value ∧ map'.lookup key = some value' ∧
        values value value' := by
  induction h with
  | nil => exact .inl ⟨rfl, rfl⟩
  | @cons entry entry' _ _ hentry _ ih =>
      obtain ⟨hkey, hvalue⟩ := hentry
      rw [List.lookup_cons, List.lookup_cons, ← hkey]
      cases key == entry.1 with
      | true => exact .inr ⟨_, _, rfl, rfl, hvalue⟩
      | false => exact ih

/-- A value of a variable has a related value in a related substitution. -/
theorem Related.exists_lookup (h : Related values map map') {key : TypeVar} {value : Ty}
    (hvalue : map.lookup key = some value) :
    ∃ value', map'.lookup key = some value' ∧ values value value' := by
  rcases h.lookup key with ⟨hnone, _⟩ | ⟨_, value', hsome, hsome', hrelated⟩
  · cases hnone.symm.trans hvalue
  · cases Option.some.inj (hsome.symm.trans hvalue)
    exact ⟨value', hsome', hrelated⟩

/-- Setting related values unless there are some keeps substitutions related. -/
theorem Related.insertNew (h : Related values map map') (key : TypeVar) {value value' : Ty}
    (hvalue : values value value') :
    Related values (map.insertNew key value) (map'.insertNew key value') := by
  rw [Substitution.insertNew, Substitution.insertNew]
  rcases h.lookup key with ⟨hnone, hnone'⟩ | ⟨_, _, hsome, hsome', _⟩
  · rw [hnone, hnone']
    exact h.insert key hvalue
  · rw [hsome, hsome']
    exact h

/-- Setting several unset values keeps substitutions related. -/
theorem Related.insertNew_all {added added' : Substitution} (hadded : Related values added added')
    (h : Related values map map') :
    Related values (added.foldl (fun map pair => map.insertNew pair.1 pair.2) map)
      (added'.foldl (fun map pair => map.insertNew pair.1 pair.2) map') := by
  induction hadded generalizing map map' with
  | nil => exact h
  | @cons entry entry' _ _ hentry _ ih =>
      rw [List.foldl_cons, List.foldl_cons, hentry.1]
      exact ih (h.insertNew entry'.1 hentry.2)

/-- Arguments that are related in order give related substitutions. -/
theorem related_ofArgs (declaration : Declaration) {args args' : List Ty}
    (h : List.Forall₂ values args args') :
    Related values (ofArgs declaration args) (ofArgs declaration args') := by
  suffices hpairs : ∀ (params : List TypeVar) (map map' : Substitution), Related values map map' →
      Related values ((params.zip args).foldl (fun map pair => map.insert pair.1 pair.2) map)
        ((params.zip args').foldl (fun map pair => map.insert pair.1 pair.2) map') from
    hpairs declaration.params [] [] .nil
  induction h with
  | nil =>
      intro params map map' hmap
      rw [List.zip_nil_right]
      exact hmap
  | cons hfirst _ ih =>
      intro params map map' hmap
      cases params with
      | nil => exact hmap
      | cons param params => exact ih params _ _ (hmap.insert param hfirst)

/-- Related substitutions are empty together. -/
theorem Related.isEmpty_eq (h : Related values map map') : map.isEmpty = map'.isEmpty := by
  cases h <;> rfl

/-- All values of a substitution have a property. -/
def Values (holds : Ty → Prop) (map : Substitution) : Prop := ∀ entry ∈ map, holds entry.2

variable {holds : Ty → Prop}

/-- Values have the property if the substitution is related to itself by it. -/
theorem values_iff_related : map.Values holds ↔ Related (fun value _ => holds value) map map := by
  simp [Values, Related, List.forall₂_same]

/-- What a variable is mapped to has the property. -/
theorem Values.lookup (h : map.Values holds) {param : TypeVar} {value : Ty}
    (hlookup : map.lookup param = some value) : holds value := by
  rcases (values_iff_related.1 h).lookup param with ⟨hnone, _⟩ | ⟨value', _, hsome, _, hvalue⟩
  · cases hnone ▸ hlookup
  · cases Option.some.inj (hsome.symm.trans hlookup)
    exact hvalue

/-- Parameters are mapped to arguments. -/
theorem values_ofArgs (declaration : Declaration) {args : List Ty} (h : ∀ arg ∈ args, holds arg) :
    (ofArgs declaration args).Values holds :=
  values_iff_related.2 (related_ofArgs declaration (List.forall₂_same.2 h))

end Substitution

namespace Ty

/-- Replacing inside an optional type. -/
theorem replaceOption_eq (map : Substitution) (t : Option Ty) :
    replaceOption map t = t.map (replace map) := by
  cases t <;> rfl

/-- Replacing inside a list of types. -/
theorem replaceList_eq (map : Substitution) (types : List Ty) :
    replaceList map types = types.map (replace map) := by
  induction types with
  | nil => rfl
  | cons first rest ih => rw [replaceList, ih, List.map_cons]

/-- Replacing in an applied type replaces in its parts, up to equality. -/
theorem replace_applied (map : Substitution) (owner : Option Ty) (raw : ClassName)
    (args : List Ty) :
    (replace map (.applied owner raw args) ==
      .applied (owner.map (replace map)) raw (args.map (replace map))) = true := by
  rw [replace]
  simp only [replaceOption_eq, replaceList_eq]
  split
  · rename_i h
    rw [Bool.and_eq_true] at h
    rw [BEq.comm, applied_beq_applied, h.1, h.2, Bool.and_true, Bool.and_true]
    exact BEq.rfl
  · exact BEq.rfl

/-- Replacing in an array replaces in its component, up to equality. -/
theorem replace_array (map : Substitution) (component : Ty) :
    (replace map (.array component) == .array (replace map component)) = true := by
  rw [replace]
  split
  · rename_i h
    exact BEq.symm h
  · exact BEq.rfl

/-- A lower bound that is no wildcard stays as it is. -/
theorem superOf_eq {t : Ty} (h : t.isWildcard = false) : superOf t = .wildcard .top (some t) := by
  cases t with
  | wildcard upper lower => cases h
  | named | applied | array | var => rfl

/-- An upper bound that is no wildcard stays as it is. -/
theorem extendsOf_eq {t : Ty} (h : t.isWildcard = false) : extendsOf t = .wildcard t none := by
  cases t with
  | wildcard upper lower => cases h
  | named | applied | array | var => rfl

/-- Equal lower bounds give equal wildcards. -/
theorem superOf_congr {s t : Ty} (h : (s == t) = true) : (superOf s == superOf t) = true := by
  cases hs : s.isWildcard with
  | false =>
      rw [superOf_eq hs, superOf_eq (isWildcard_congr h ▸ hs), wildcard_beq_wildcard,
        Bool.and_eq_true]
      exact ⟨BEq.rfl, h⟩
  | true =>
      obtain ⟨upper, lower, rfl⟩ := eq_wildcard hs
      obtain ⟨upper', lower', rfl, _, hlower⟩ := wildcard_beq h
      rcases option_beq hlower with ⟨rfl, rfl⟩ | ⟨bound, bound', rfl, rfl, hbound⟩
      · exact BEq.rfl
      · rw [superOf, superOf, wildcard_beq_wildcard, Bool.and_eq_true]
        exact ⟨BEq.rfl, hbound⟩

/-- Equal upper bounds give equal wildcards. -/
theorem extendsOf_congr {s t : Ty} (h : (s == t) = true) : (extendsOf s == extendsOf t) = true := by
  cases hs : s.isWildcard with
  | false =>
      rw [extendsOf_eq hs, extendsOf_eq (isWildcard_congr h ▸ hs), wildcard_beq_wildcard,
        Bool.and_eq_true]
      exact ⟨h, rfl⟩
  | true =>
      obtain ⟨upper, lower, rfl⟩ := eq_wildcard hs
      obtain ⟨upper', lower', rfl, hupper, hlower⟩ := wildcard_beq h
      rcases option_beq hlower with ⟨rfl, rfl⟩ | ⟨bound, bound', rfl, rfl, _⟩
      · rw [extendsOf, extendsOf, wildcard_beq_wildcard, Bool.and_eq_true]
        exact ⟨hupper, rfl⟩
      · exact BEq.rfl

/-- Substitutions with equal values give equal types. -/
theorem replace_congr {map map' : Substitution}
    (h : Substitution.Related (fun s t => (s == t) = true) map map') (t : Ty) :
    (replace map t == replace map' t) = true := by
  induction t using parts_induction with
  | step t ih =>
      cases t with
      | named head => exact BEq.rfl
      | var param =>
          rw [replace, replace]
          rcases h.lookup param with ⟨hnone, hnone'⟩ | ⟨_, _, hsome, hsome', heq⟩
          · rw [hnone, hnone']
            exact BEq.rfl
          · rw [hsome, hsome']
            exact heq
      | array component =>
          refine BEq.trans (replace_array map component)
            (BEq.trans ?_ (BEq.symm (replace_array map' _)))
          exact ih component (List.mem_singleton.2 rfl)
      | applied owner raw args =>
          refine BEq.trans (replace_applied map owner raw args)
            (BEq.trans ?_ (BEq.symm (replace_applied map' owner raw args)))
          rw [applied_beq_applied, Bool.and_eq_true, Bool.and_eq_true, list_beq_iff]
          refine ⟨⟨BEq.rfl, ?_⟩, ?_⟩
          · cases owner with
            | none => rfl
            | some owner => exact ih owner (List.mem_append_left _ (List.mem_singleton.2 rfl))
          · rw [Matches, List.forall₂_map_left_iff, List.forall₂_map_right_iff, List.forall₂_same]
            exact fun arg harg => ih arg (List.mem_append_right _ harg)
      | wildcard upper lower =>
          cases lower with
          | none => exact extendsOf_congr (ih upper List.mem_cons_self)
          | some lower =>
              exact superOf_congr (ih lower (List.mem_cons_of_mem _ (List.mem_singleton.2 rfl)))

/-- Applying substitutions with equal values gives equal types. -/
theorem substitute_congr {map map' : Substitution}
    (h : Substitution.Related (fun s t => (s == t) = true) map map') (t : Ty) :
    (substitute t map == substitute t map') = true := by
  rw [substitute, substitute, h.isEmpty_eq]
  split
  · exact BEq.rfl
  · exact replace_congr h t

end Ty

end Nominal
