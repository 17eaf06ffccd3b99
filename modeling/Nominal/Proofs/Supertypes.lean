import Mathlib.Logic.Relation
import Nominal.Proofs.Equality
import Nominal.Proofs.Erasure
import Nominal.Supertypes

/-!
# Direct supertypes as a relation

`Directs t types` says that `types` is the list of the direct supertypes of `t` when enough steps
are allowed, and `Direct t s` that `s` is in it. `Supertype` is the reflexive and transitive
closure. The rules of `Directs` are given kind by kind; `closure_from_closed` says what the search
for the closure finds.
-/

namespace Nominal.Context

open Query

variable {context : Context}

/-- Looking up a declaration does not depend on the trail. -/
theorem declaration_oblivious (head : Named) : (context.declaration? head).Oblivious := by
  rw [declaration?]
  split
  · exact .pure _
  · exact (Oblivious.report _).bind fun _ => .pure _

/-- Looking up a declaration finds what the environment has. -/
theorem declaration_answer (head : Named) :
    (context.declaration? head).answer = some (context.env.find? head.name) := by
  rw [declaration?]
  split
  · rename_i h
    rw [h]
    rfl
  · rename_i h
    rw [h]
    rfl

/-- The direct supertypes of a name do not depend on the trail. -/
theorem named_oblivious (fuel : Nat) (head : Named) :
    (context.namedSupertypes fuel head).Oblivious := by
  rw [namedSupertypes]
  split
  · exact .pure _
  · refine (declaration_oblivious head).bind fun found => ?_
    split
    · exact .pure _
    · split
      · exact .pure _
      · exact (erase_all_oblivious context.heap fuel _).bind fun _ => .pure _

/-- The direct supertypes of an applied type do not depend on the trail. -/
theorem applied_oblivious (owner : Option Ty) (raw : ClassName) (args : List Ty) :
    (context.appliedSupertypes owner raw args).Oblivious := by
  rw [appliedSupertypes]
  refine (declaration_oblivious raw).bind fun found => ?_
  split <;> exact .pure _

/-- Direct supertypes do not depend on the trail. -/
theorem direct_oblivious (fuel : Nat) (t : Ty) : (context.directSupertypes fuel t).Oblivious := by
  induction t using Ty.parts_induction with
  | step t ih =>
      cases t with
      | named head => exact named_oblivious fuel head
      | applied owner raw args => exact applied_oblivious owner raw args
      | array component =>
          exact (ih component (List.mem_singleton.2 rfl)).bind fun _ => .pure _
      | var param => exact (Oblivious.bounds _ _).bind fun _ => .pure _
      | wildcard upper lower => exact ih upper List.mem_cons_self

/-- Direct supertypes with one step more are the same. -/
theorem direct_succ (fuel : Nat) (t : Ty) :
    (context.directSupertypes fuel t).AnsweredBy (context.directSupertypes (fuel + 1) t) := by
  induction t using Ty.parts_induction with
  | step t ih =>
      cases t with
      | named head =>
          show (context.namedSupertypes fuel head).AnsweredBy
            (context.namedSupertypes (fuel + 1) head)
          rw [namedSupertypes, namedSupertypes]
          split
          · exact .refl _
          · refine (AnsweredBy.refl _).bind fun found => ?_
            split
            · exact .refl _
            · split
              · exact .refl _
              · exact (AnsweredBy.mapM (erase_along_succ context.heap fuel []) _).bind
                  fun _ => .refl _
      | applied owner raw args => exact .refl _
      | array component =>
          exact (ih component (List.mem_singleton.2 rfl)).bind fun _ => .refl _
      | var param => exact .refl _
      | wildcard upper lower => exact ih upper List.mem_cons_self

/-- Direct supertypes with more steps are the same. -/
theorem direct_mono (t : Ty) {fewer more : Nat} (h : fewer ≤ more) :
    (context.directSupertypes fewer t).AnsweredBy (context.directSupertypes more t) :=
  .of_succ (fun fuel => direct_succ fuel t) h

variable (context) in
/-- The direct supertypes of a type, in order. -/
def Directs (t : Ty) (types : List Ty) : Prop :=
  ∃ fuel, (context.directSupertypes fuel t).answer = some types

variable (context) in
/-- One type is a direct supertype of another. -/
def Direct (t s : Ty) : Prop := ∃ types, context.Directs t types ∧ s ∈ types

variable (context) in
/-- One type is reached from another by any number of direct supertypes. -/
abbrev Supertype : Ty → Ty → Prop := Relation.ReflTransGen context.Direct

/-- Enough steps give the direct supertypes. -/
theorem Directs.eventually {t : Ty} {types : List Ty} (h : context.Directs t types) :
    ∃ enough, ∀ fuel, enough ≤ fuel → (context.directSupertypes fuel t).answer = some types := by
  obtain ⟨enough, hanswer⟩ := h
  exact ⟨enough, fun fuel hfuel => (direct_mono t hfuel).answer_eq hanswer⟩

/-- A type has only one list of direct supertypes. -/
theorem Directs.unique {t : Ty} {types types' : List Ty} (h : context.Directs t types)
    (h' : context.Directs t types') : types = types' := by
  obtain ⟨enough, henough⟩ := h.eventually
  obtain ⟨enough', henough'⟩ := h'.eventually
  have heq := henough _ (Nat.le_max_left enough enough')
  rw [henough' _ (Nat.le_max_right enough enough')] at heq
  exact (Option.some.inj heq).symm

/-! ## Direct supertypes kind by kind -/

/-- A rule of direct supertypes, from answers that do not depend on the steps. -/
theorem directs_of_answer {t : Ty} {known types : List Ty}
    (h : ∀ fuel, (context.directSupertypes fuel t).answer = some known) :
    context.Directs t types ↔ types = known :=
  ⟨fun ⟨fuel, hanswer⟩ => Option.some.inj (hanswer.symm.trans (h fuel)), fun heq => ⟨0, heq ▸ h 0⟩⟩

/-- The universal supertype and primitives have no direct supertypes. -/
theorem directs_leaf {head : Named} {types : List Ty}
    (hleaf : (head.isTop || head.isPrimitive) = true) :
    context.Directs (.named head) types ↔ types = [] := by
  refine directs_of_answer fun fuel => ?_
  show (context.namedSupertypes fuel head).answer = _
  rw [namedSupertypes, if_pos hleaf, answer_pure]

/-- What a name that is not a leaf answers, by its declaration. -/
theorem named_answer {head : Named} (hleaf : (head.isTop || head.isPrimitive) = false)
    (fuel : Nat) :
    (context.directSupertypes fuel (.named head)).answer =
      match context.env.find? head.name with
      | none => some []
      | some declaration =>
          if declaration.params.isEmpty then some (orTop (Ty.distinct declaration.supertypes))
          else (declaration.supertypes.mapM (erase context.heap fuel)).answer.map
            (fun types => orTop (Ty.distinct types)) := by
  show (context.namedSupertypes fuel head).answer = _
  rw [namedSupertypes, if_neg (by rw [hleaf]; exact Bool.false_ne_true),
    (declaration_oblivious head).answer_bind, declaration_answer, Option.bind_some]
  · cases context.env.find? head.name with
    | none => rfl
    | some declaration =>
        dsimp only
        split
        · rfl
        · exact (erase_all_oblivious context.heap fuel _).answer_map _
  · intro found
    split
    · exact .pure _
    · split
      · exact .pure _
      · exact (erase_all_oblivious context.heap fuel _).bind fun _ => .pure _

/-- A name without a declaration has no direct supertypes. -/
theorem directs_missing {head : Named} {types : List Ty}
    (hfound : context.env.find? head.name = none) :
    context.Directs (.named head) types ↔ types = [] := by
  cases hleaf : head.isTop || head.isPrimitive with
  | true => exact directs_leaf hleaf
  | false => exact directs_of_answer fun fuel => by rw [named_answer hleaf, hfound]

/-- The direct supertypes of a name without parameters are the declared ones. -/
theorem directs_plain {head : Named} {declaration : Declaration} {types : List Ty}
    (hleaf : (head.isTop || head.isPrimitive) = false)
    (hfound : context.env.find? head.name = some declaration)
    (hparams : declaration.params.isEmpty = true) :
    context.Directs (.named head) types ↔ types = orTop (Ty.distinct declaration.supertypes) :=
  directs_of_answer fun fuel => by rw [named_answer hleaf, hfound]; exact if_pos hparams

/-- The direct supertypes of a raw use are the erasures of the declared ones. -/
theorem directs_raw {head : Named} {declaration : Declaration} {types : List Ty}
    (hleaf : (head.isTop || head.isPrimitive) = false)
    (hfound : context.env.find? head.name = some declaration)
    (hparams : declaration.params.isEmpty = false) :
    context.Directs (.named head) types ↔
      ∃ erased, List.Forall₂ (Erases context.heap []) declaration.supertypes erased ∧
        types = orTop (Ty.distinct erased) := by
  have hanswer (fuel : Nat) : (context.directSupertypes fuel (.named head)).answer =
      (declaration.supertypes.mapM (erase context.heap fuel)).answer.map
        (fun types => orTop (Ty.distinct types)) := by
    rw [named_answer hleaf, hfound]
    exact if_neg (by rw [hparams]; exact Bool.false_ne_true)
  constructor
  · rintro ⟨fuel, h⟩
    rw [hanswer] at h
    obtain ⟨erased, herased, rfl⟩ := Option.map_eq_some_iff.1 h
    exact ⟨erased, erases_mapM.1 ⟨fuel, herased⟩, rfl⟩
  · rintro ⟨erased, herased, rfl⟩
    obtain ⟨fuel, h⟩ := erases_mapM.2 herased
    exact ⟨fuel, by rw [hanswer, h, Option.map_some]⟩

/-- What an applied type answers, by its declaration. -/
theorem applied_answer (owner : Option Ty) (raw : ClassName) (args : List Ty) (fuel : Nat) :
    (context.directSupertypes fuel (.applied owner raw args)).answer =
      match context.env.find? raw.name with
      | none => some []
      | some declaration =>
          let types := Ty.distinct (declaration.supertypes.map
            (fun t => t.substitute (context.argumentsOf declaration owner args)))
          some (if raw.isTop then types else orTop types) := by
  show (context.appliedSupertypes owner raw args).answer = _
  rw [appliedSupertypes, (declaration_oblivious raw).answer_bind, declaration_answer,
    Option.bind_some]
  · cases context.env.find? raw.name <;> rfl
  · intro found
    split <;> exact .pure _

/-- An applied type without a declaration has no direct supertypes. -/
theorem directs_applied_missing {owner : Option Ty} {raw : ClassName} {args types : List Ty}
    (hfound : context.env.find? raw.name = none) :
    context.Directs (.applied owner raw args) types ↔ types = [] :=
  directs_of_answer fun fuel => by rw [applied_answer, hfound]

/-- The direct supertypes of an applied type are the declared ones with its arguments in them. -/
theorem directs_applied {owner : Option Ty} {raw : ClassName} {args types : List Ty}
    {declaration : Declaration} (hfound : context.env.find? raw.name = some declaration) :
    context.Directs (.applied owner raw args) types ↔
      types =
        (let types := Ty.distinct (declaration.supertypes.map
          (fun t => t.substitute (context.argumentsOf declaration owner args)))
        if raw.isTop then types else orTop types) :=
  directs_of_answer fun fuel => by rw [applied_answer, hfound]

/-- A member of a list that the universal supertype stands in for if it is empty. -/
theorem mem_of_mem_orTop_distinct {types : List Ty} {s : Ty} (h : s ∈ orTop (Ty.distinct types)) :
    s ∈ types ∨ types = [] ∧ s = .top := by
  rw [orTop] at h
  split at h
  case isTrue hempty =>
      refine .inr ⟨List.eq_nil_iff_forall_not_mem.2 fun t ht => ?_, List.mem_singleton.1 h⟩
      obtain ⟨u, hu, _⟩ := Ty.exists_mem_distinct ht
      cases List.isEmpty_iff.1 hempty ▸ hu
  case isFalse => exact .inl (Ty.mem_of_mem_distinct h)

/-- A direct supertype of an applied type is a declared supertype in which the arguments stand for
the parameters, or the universal supertype if none is declared. -/
theorem direct_applied_cases {owner : Option Ty} {raw : ClassName} {args : List Ty} {s : Ty}
    (h : context.Direct (.applied owner raw args) s) :
    ∃ declaration, context.env.find? raw.name = some declaration ∧
      ((∃ t ∈ declaration.supertypes,
          s = t.substitute (context.argumentsOf declaration owner args)) ∨
        declaration.supertypes = [] ∧ raw.isTop = false ∧ s = .top) := by
  obtain ⟨types, htypes, hs⟩ := h
  cases hfound : context.env.find? raw.name with
  | none =>
      cases (directs_applied_missing hfound).1 htypes
      cases hs
  | some declaration =>
      refine ⟨declaration, rfl, ?_⟩
      have hmem (hs : s ∈ declaration.supertypes.map
          (fun t => t.substitute (context.argumentsOf declaration owner args))) :
          ∃ t ∈ declaration.supertypes,
            s = t.substitute (context.argumentsOf declaration owner args) := by
        obtain ⟨t, ht, heq⟩ := List.mem_map.1 hs
        exact ⟨t, ht, heq.symm⟩
      cases (directs_applied hfound).1 htypes
      cases htop : raw.isTop with
      | true =>
          rw [if_pos htop] at hs
          exact .inl (hmem (Ty.mem_of_mem_distinct hs))
      | false =>
          rw [htop] at hs
          rcases mem_of_mem_orTop_distinct hs with hs | ⟨hnone, hs⟩
          · exact .inl (hmem hs)
          · exact .inr ⟨List.map_eq_nil_iff.1 hnone, rfl, hs⟩

/-- What a declared supertype becomes is a direct supertype of the applied type, up to equality. -/
theorem direct_applied {owner : Option Ty} {raw : ClassName} {args : List Ty}
    {declaration : Declaration}
    (hfound : context.env.find? raw.name = some declaration) {t : Ty}
    (ht : t ∈ declaration.supertypes) :
    ∃ s, context.Direct (.applied owner raw args) s ∧
      (t.substitute (context.argumentsOf declaration owner args) == s) = true := by
  obtain ⟨s, hs, heq⟩ := Ty.exists_mem_distinct (List.mem_map_of_mem
    (f := fun t => t.substitute (context.argumentsOf declaration owner args)) ht)
  refine ⟨s, ⟨_, (directs_applied hfound).2 rfl, ?_⟩, heq⟩
  dsimp only
  split
  · exact hs
  · rw [orTop, if_neg (by simpa using List.ne_nil_of_mem hs)]
    exact hs

/-- The universal supertype is a direct supertype of an applied type without declared supertypes. -/
theorem direct_applied_top {owner : Option Ty} {raw : ClassName} {args : List Ty}
    {declaration : Declaration} (hfound : context.env.find? raw.name = some declaration)
    (hnone : declaration.supertypes = []) (htop : raw.isTop = false) :
    context.Direct (.applied owner raw args) .top := by
  refine ⟨_, (directs_applied hfound).2 rfl, ?_⟩
  rw [hnone, htop]
  exact List.mem_singleton.2 rfl

/-- The direct supertypes of a variable are its bounds. -/
theorem directs_var {param : TypeVar} {types : List Ty} :
    context.Directs (.var param) types ↔ types = Ty.distinct (context.heap.bounds param) :=
  directs_of_answer fun _ => rfl

/-- The direct supertypes of a wildcard are those of its upper bound. -/
theorem directs_wildcard {upper : Ty} {lower : Option Ty} {types : List Ty} :
    context.Directs (.wildcard upper lower) types ↔ context.Directs upper types := Iff.rfl

/-- The direct supertypes of an array are arrays of those of its component, and those of all
arrays. -/
theorem directs_array {component : Ty} {types : List Ty} :
    context.Directs (.array component) types ↔
      ∃ types', context.Directs component types' ∧
        types = types'.map Ty.array ++ context.arraySupertypes := by
  have hanswer (fuel : Nat) : (context.directSupertypes fuel (.array component)).answer =
      (context.directSupertypes fuel component).answer.map
        (fun types => types.map Ty.array ++ context.arraySupertypes) :=
    (direct_oblivious fuel component).answer_map _
  constructor
  · rintro ⟨fuel, h⟩
    rw [hanswer] at h
    obtain ⟨types', htypes, rfl⟩ := Option.map_eq_some_iff.1 h
    exact ⟨types', ⟨fuel, htypes⟩, rfl⟩
  · rintro ⟨types', ⟨fuel, h⟩, rfl⟩
    exact ⟨fuel, by rw [hanswer, h, Option.map_some]⟩

/-! ## The search for the closure -/

/-- The search does not depend on the trail. -/
theorem closure_from_oblivious (fuel : Nat) (found : TypeSet) (position : Nat) :
    (context.closureFrom fuel found position).Oblivious := by
  induction fuel generalizing found position with
  | zero => exact .exhausted
  | succ fuel ih =>
      rw [closureFrom]
      split
      · exact .pure _
      · exact (direct_oblivious fuel _).bind fun _ => ih _ _

/-- The search with one step more finds the same. -/
theorem closure_from_succ (fuel : Nat) (found : TypeSet) (position : Nat) :
    (context.closureFrom fuel found position).AnsweredBy
      (context.closureFrom (fuel + 1) found position) := by
  induction fuel generalizing found position with
  | zero => exact .exhausted _
  | succ fuel ih =>
      rw [closureFrom, closureFrom]
      split
      · exact .refl _
      · exact (direct_succ fuel _).bind fun _ => ih _ _

/-- The closure does not depend on the trail. -/
theorem closure_oblivious (fuel : Nat) (t : Ty) : (context.closure fuel t).Oblivious :=
  (closure_from_oblivious fuel _ 0).bind fun _ => .pure _

/-- The closure with more steps is the same. -/
theorem closure_mono (t : Ty) {fewer more : Nat} (h : fewer ≤ more) :
    (context.closure fewer t).AnsweredBy (context.closure more t) :=
  (AnsweredBy.of_succ (fun fuel => closure_from_succ fuel _ 0) h).bind fun _ => .refl _

/-- A type has only one closure. -/
theorem closure_unique {t : Ty} {fuel fuel' : Nat} {members members' : List Ty}
    (h : (context.closure fuel t).answer = some members)
    (h' : (context.closure fuel' t).answer = some members') : members = members' := by
  have hmore := (closure_mono t (Nat.le_max_left fuel fuel')).answer_eq h
  have hmore' := (closure_mono t (Nat.le_max_right fuel fuel')).answer_eq h'
  exact Option.some.inj (hmore.symm.trans hmore')

variable (context) in
/-- The direct supertypes of a type are known and all among the members of a list. -/
def Followed (members : List Ty) (t : Ty) : Prop :=
  ∃ types, context.Directs t types ∧ ∀ s ∈ types, members.contains s = true

/-- A type that was followed stays so when members are added. -/
theorem Followed.mono {members more : List Ty} {t : Ty} (h : context.Followed members t)
    (hinitial : members <+: more) : context.Followed more t := by
  obtain ⟨types, htypes, hcontains⟩ := h
  refine ⟨types, htypes, fun s hs => ?_⟩
  obtain ⟨member, hmember, heq⟩ := List.contains_iff_exists_mem_beq.1 (hcontains s hs)
  exact List.contains_iff_exists_mem_beq.2 ⟨member, hinitial.subset hmember, heq⟩

/-- The member at a position is the type of the entry there. -/
theorem members_getElem? (found : TypeSet) (position : Nat) :
    found.members[position]? = found.entries[position]?.map Prod.fst := by
  rw [TypeSet.members, TypeMap.toList, List.getElem?_map, Array.getElem?_toList]

/-- The members after several types were added. -/
theorem members_insertAll_eq (found : TypeSet) (types : List Ty) :
    (found.insertAll types).members = Ty.addNew found.members types :=
  TypeSet.members_insertAll found types

/-- What one step of the search does: the type at the position is followed, and the search goes on
behind it. -/
theorem closure_from_step {fuel position : Nat} {found result : TypeSet}
    (h : (context.closureFrom (fuel + 1) found position).answer = some result) :
    (found.members[position]? = none ∧ result = found) ∨
      ∃ t types, found.members[position]? = some t ∧ context.Directs t types ∧
        (context.closureFrom fuel (found.insertAll types) (position + 1)).answer = some result := by
  rw [closureFrom] at h
  split at h
  · rename_i hentry
    exact .inl ⟨by rw [members_getElem?, hentry]; rfl, (Option.some.inj h).symm⟩
  · rename_i t value hentry
    rw [(direct_oblivious fuel t).answer_bind fun _ => closure_from_oblivious _ _ _] at h
    obtain ⟨types, htypes, hrest⟩ := Option.bind_eq_some_iff.1 h
    exact .inr ⟨t, types, by rw [members_getElem?, hentry]; rfl, ⟨fuel, htypes⟩, hrest⟩

/-- The search keeps what it found, follows every type, and adds only supertypes of what it
started with. Types before the position have been followed. -/
theorem closure_from_closed {fuel position : Nat} {found result : TypeSet} (start : Ty)
    (h : (context.closureFrom fuel found position).answer = some result)
    (hfollowed : ∀ index, index < position → ∀ t, found.members[index]? = some t →
      context.Followed found.members t)
    (hreached : ∀ t ∈ found.members, context.Supertype start t) :
    found.members <+: result.members ∧
      (∀ t ∈ result.members, context.Followed result.members t) ∧
      ∀ t ∈ result.members, context.Supertype start t := by
  induction fuel generalizing found position with
  | zero => cases h
  | succ fuel ih =>
      -- the invariant: everything before the position has been followed
      rcases closure_from_step h with ⟨hnone, rfl⟩ | ⟨t, types, ht, htypes, hrest⟩
      · refine ⟨List.prefix_refl _, fun s hs => ?_, hreached⟩
        obtain ⟨index, hlt, hindex⟩ := List.getElem_of_mem hs
        have hposition := List.getElem?_eq_none_iff.1 hnone
        exact hfollowed index (by omega) s (List.getElem?_eq_some_iff.2 ⟨hlt, hindex⟩)
      · have hmembers := members_insertAll_eq found types
        have hinitial : found.members <+: (found.insertAll types).members :=
          hmembers ▸ Ty.prefix_addNew _ _
        have hlt := (List.getElem?_eq_some_iff.1 ht).1
        have hfollowed' : ∀ index, index < position + 1 → ∀ s,
            (found.insertAll types).members[index]? = some s →
            context.Followed (found.insertAll types).members s := by
          intro index hindex s hs
          rw [List.prefix_iff_getElem?.1 hinitial index (by omega),
            ← List.getElem?_eq_getElem] at hs
          rcases Nat.lt_succ_iff_lt_or_eq.1 hindex with hbefore | rfl
          · exact (hfollowed index hbefore s hs).mono hinitial
          · -- the type at the position itself: its direct supertypes were just added
            cases Option.some.inj (hs.symm.trans ht)
            exact ⟨types, htypes, fun u hu => hmembers ▸ Ty.contains_addNew hu⟩
        have hreached' : ∀ s ∈ (found.insertAll types).members, context.Supertype start s := by
          intro s hs
          rw [hmembers] at hs
          rcases Ty.mem_of_mem_addNew hs with hold | hnew
          · exact hreached s hold
          · exact (hreached t (List.mem_of_getElem? ht)).tail ⟨types, htypes, hnew⟩
        obtain ⟨hkept, hresult⟩ := ih hrest hfollowed' hreached'
        exact ⟨hinitial.trans hkept, hresult⟩

variable (context) in
/-- A list is the closure of a type: it has the type, only supertypes of it, and the direct
supertypes of all its members. -/
structure ClosureOf (t : Ty) (members : List Ty) : Prop where
  self : t ∈ members
  reached : ∀ s ∈ members, context.Supertype t s
  followed : ∀ s ∈ members, context.Followed members s

/-- The search finds the closure. -/
theorem closure_closureOf {fuel : Nat} {t : Ty} {members : List Ty}
    (h : (context.closure fuel t).answer = some members) : context.ClosureOf t members := by
  rw [closure, (closure_from_oblivious fuel _ 0).answer_map] at h
  obtain ⟨result, hresult, rfl⟩ := Option.map_eq_some_iff.1 h
  have hstart : (TypeSet.insert .empty t).members = [t] := TypeSet.members_insert .empty t
  obtain ⟨hkept, hfollowed, hreached⟩ := closure_from_closed t hresult
    (fun index hindex => absurd hindex (Nat.not_lt_zero index))
    (fun s hs => by
      rw [hstart, List.mem_singleton] at hs
      exact hs ▸ .refl)
  exact ⟨hkept.subset (hstart ▸ List.mem_singleton.2 rfl), hreached, hfollowed⟩

end Nominal.Context
