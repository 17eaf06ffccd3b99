import Nominal.Proofs.Names

/-!
# What supertypes inherit

Direct supertypes are put together from declared types, from bounds, from arguments and from what
declared types erase to. A property that all of these have, and that substituting by arguments
keeps, passes from a type to its direct supertypes, and so to all of its supertypes (`Inherits`).
-/

namespace Nominal

/-- What holds of names, and of arrays of what it holds of, holds of what a type erases to. -/
theorem Erases.holds {holds : Ty → Prop} (hnamed : ∀ head, holds (.named head))
    (harray : ∀ {component}, holds component → holds (.array component)) {heap : Heap}
    {seen : List TypeVar} {t erased : Ty} (h : Erases heap seen t erased) : holds erased := by
  obtain ⟨fuel, hanswer⟩ := h
  -- on the number of steps, since bounds of variables are not parts of the type
  induction fuel generalizing seen t erased with
  | zero => cases hanswer
  | succ fuel ih =>
      cases t with
      | named head =>
          cases erases_named.1 ⟨_, hanswer⟩
          exact hnamed _
      | applied owner raw args =>
          cases erases_applied.1 ⟨_, hanswer⟩
          exact hnamed _
      | array component =>
          rw [erase_along_array] at hanswer
          obtain ⟨component', hcomponent, rfl⟩ := Option.map_eq_some_iff.1 hanswer
          exact harray (ih hcomponent)
      | wildcard upper lower => exact ih hanswer
      | var param =>
          cases hseen : seen.contains param with
          | true =>
              cases (erases_seen hseen).1 ⟨_, hanswer⟩
              exact hnamed _
          | false =>
              rw [erase_along_fresh hseen] at hanswer
              cases hbound : (heap.bounds param).head? with
              | none =>
                  rw [hbound] at hanswer
                  cases Option.some.inj hanswer
                  exact hnamed _
              | some bound =>
                  rw [hbound] at hanswer
                  exact ih hanswer

namespace Context

variable {context : Context}

/-- The values for the parameters of an applied type are arguments of it or of its owner. -/
theorem values_argumentsOf {holds : Ty → Prop} (declaration : Declaration) {owner : Option Ty}
    {args : List Ty} (hargs : ∀ arg ∈ args, holds arg)
    (howner : ∀ {outer raw outerArgs}, owner = some (.applied outer raw outerArgs) →
      ∀ arg ∈ outerArgs, holds arg) :
    (context.argumentsOf declaration owner args).Values holds := by
  have hown := Substitution.values_ofArgs declaration hargs
  match owner with
  | some (.applied outer raw outerArgs) =>
      rw [argumentsOf]
      split
      · rename_i enclosing _
        have hadded := Substitution.values_ofArgs enclosing (howner rfl)
        rw [Substitution.values_iff_related] at hown hadded ⊢
        exact hadded.insertNew_all hown
      · exact hown
  | none | some (.named _) | some (.array _) | some (.var _) | some (.wildcard _ _) => exact hown

/-- A direct supertype of a name is a declared one, what such a one erases to, or the universal
supertype. -/
theorem direct_named_declared {head : Named} {s : Ty} (h : context.Direct (.named head) s) :
    s = .top ∨ ∃ declaration, context.env.find? head.name = some declaration ∧
      ∃ t ∈ declaration.supertypes, s = t ∨ Erases context.heap [] t s := by
  obtain ⟨types, htypes, hs⟩ := h
  cases hleaf : head.isTop || head.isPrimitive with
  | true =>
      cases (directs_leaf hleaf).1 htypes
      cases hs
  | false =>
      cases hfound : context.env.find? head.name with
      | none =>
          cases (directs_missing hfound).1 htypes
          cases hs
      | some declaration =>
          cases hparams : declaration.params.isEmpty with
          | true =>
              cases (directs_plain hleaf hfound hparams).1 htypes
              rcases mem_of_mem_orTop_distinct hs with hs | ⟨_, rfl⟩
              · exact .inr ⟨declaration, rfl, s, hs, .inl rfl⟩
              · exact .inl rfl
          | false =>
              obtain ⟨erased, herased, rfl⟩ := (directs_raw hleaf hfound hparams).1 htypes
              rcases mem_of_mem_orTop_distinct hs with hs | ⟨_, rfl⟩
              · obtain ⟨t, ht, herases⟩ := herased.flip.exists_mem hs
                exact .inr ⟨declaration, rfl, t, ht, .inr herases⟩
              · exact .inl rfl

variable (context) in
/-- A property of names, declared types and bounds that passes on to parts, arrays and what is
substituted for parameters. -/
structure Inherits (holds : Ty → Prop) : Prop where
  named : ∀ head, holds (.named head)
  array : ∀ {component}, holds component → holds (.array component)
  part : ∀ {t part}, holds t → part ∈ t.parts → holds part
  declared : ∀ {name declaration}, context.env.find? name = some declaration →
    ∀ t ∈ declaration.supertypes, holds t
  bounds : ∀ {param}, ∀ bound ∈ context.heap.bounds param, holds bound
  substitute : ∀ {declaration owner raw args t}, holds (.applied owner raw args) → holds t →
    holds (t.substitute (context.argumentsOf declaration owner args))

namespace Inherits

variable {holds : Ty → Prop}

/-- The property passes to direct supertypes. -/
theorem direct (hinherits : context.Inherits holds) {t s : Ty} (ht : holds t)
    (h : context.Direct t s) : holds s := by
  induction t using Ty.parts_induction generalizing s with
  | step t ih =>
      cases t with
      | named head =>
          rcases direct_named_declared h with rfl | ⟨declaration, hfound, u, hu, rfl | herases⟩
          · exact hinherits.named _
          · exact hinherits.declared hfound s hu
          · exact herases.holds hinherits.named hinherits.array
      | applied owner raw args =>
          obtain ⟨declaration, hfound, ⟨u, hu, rfl⟩ | ⟨_, _, rfl⟩⟩ := direct_applied_cases h
          · exact hinherits.substitute ht (hinherits.declared hfound u hu)
          · exact hinherits.named _
      | array component =>
          obtain ⟨types, htypes, hs⟩ := h
          obtain ⟨inner, hinner, rfl⟩ := directs_array.1 htypes
          rcases List.mem_append.1 hs with hs | hs
          · obtain ⟨u, hu, rfl⟩ := List.mem_map.1 hs
            have hpart : component ∈ (Ty.array component).parts := List.mem_singleton.2 rfl
            exact hinherits.array (ih component hpart (hinherits.part ht hpart) ⟨inner, hinner, hu⟩)
          · rcases exists_of_mem_arraySupertypes hs with rfl | rfl | rfl <;>
              exact hinherits.named _
      | var param =>
          obtain ⟨types, htypes, hs⟩ := h
          cases directs_var.1 htypes
          exact hinherits.bounds s (Ty.mem_of_mem_distinct hs)
      | wildcard upper lower =>
          obtain ⟨types, htypes, hs⟩ := h
          have hpart : upper ∈ (Ty.wildcard upper lower).parts := List.mem_cons_self
          exact ih upper hpart (hinherits.part ht hpart) ⟨types, directs_wildcard.1 htypes, hs⟩

/-- The property passes to supertypes. -/
theorem supertype (hinherits : context.Inherits holds) {t s : Ty} (ht : holds t)
    (h : context.Supertype t s) : holds s := by
  induction h with
  | refl => exact ht
  | tail _ hdirect ih => exact hinherits.direct ih hdirect

end Inherits

end Context

end Nominal
