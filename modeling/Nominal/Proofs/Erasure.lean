import Nominal.Erasure
import Nominal.Proofs.Answers
import Nominal.Type.Equality

/-!
# Erasure as a relation

`Erases heap seen t u` says that `t`, reached through the variables `seen`, erases to `u` when
enough steps are allowed. The lemmas of this file give it rule by rule, so that no later proof
counts steps.
-/

namespace Nominal

/-- Erasure does not depend on the trail. -/
theorem erase_along_oblivious (heap : Heap) (fuel : Nat) (seen : List TypeVar) (t : Ty) :
    (eraseAlong heap fuel seen t).Oblivious := by
  induction fuel generalizing seen t with
  | zero => exact .exhausted
  | succ fuel ih =>
      cases t with
      | named head => exact .pure _
      | applied owner raw args => exact .pure _
      | array component => exact (ih [] component).bind fun _ => .pure _
      | wildcard upper lower => exact ih [] upper
      | var param =>
          rw [eraseAlong]
          split
          · exact .pure _
          · refine (Query.Oblivious.bounds heap param).bind fun bounds => ?_
            split
            · exact ih _ _
            · exact .pure _

/-- Erasing a list of types does not depend on the trail. -/
theorem erase_all_oblivious (heap : Heap) (fuel : Nat) (types : List Ty) :
    (types.mapM (erase heap fuel)).Oblivious :=
  .mapM (erase_along_oblivious heap fuel []) types

/-- Erasure with one step more answers the same. -/
theorem erase_along_succ (heap : Heap) (fuel : Nat) (seen : List TypeVar) (t : Ty) :
    (eraseAlong heap fuel seen t).AnsweredBy (eraseAlong heap (fuel + 1) seen t) := by
  induction fuel generalizing seen t with
  | zero => exact .exhausted _
  | succ fuel ih =>
      cases t with
      | named head => exact .refl _
      | applied owner raw args => exact .refl _
      | array component => exact (ih [] component).bind fun _ => .refl _
      | wildcard upper lower => exact ih [] upper
      | var param =>
          rw [eraseAlong, eraseAlong]
          split
          · exact .refl _
          · refine (Query.AnsweredBy.refl _).bind fun bounds => ?_
            split
            · exact ih _ _
            · exact .refl _

/-- Erasure with more steps answers the same. -/
theorem erase_along_mono (heap : Heap) (seen : List TypeVar) (t : Ty) {fewer more : Nat}
    (h : fewer ≤ more) :
    (eraseAlong heap fewer seen t).AnsweredBy (eraseAlong heap more seen t) :=
  .of_succ (fun fuel => erase_along_succ heap fuel seen t) h

/-- A type that was reached through the variables in `seen` erases to another one. -/
def Erases (heap : Heap) (seen : List TypeVar) (t erased : Ty) : Prop :=
  ∃ fuel, (eraseAlong heap fuel seen t).answer = some erased

namespace Erases

variable {heap : Heap} {seen : List TypeVar} {t erased : Ty}

/-- Enough steps give the erasure. -/
theorem eventually (h : Erases heap seen t erased) :
    ∃ enough, ∀ fuel, enough ≤ fuel → (eraseAlong heap fuel seen t).answer = some erased := by
  obtain ⟨enough, hanswer⟩ := h
  exact ⟨enough, fun fuel hfuel => (erase_along_mono heap seen t hfuel).answer_eq hanswer⟩

/-- A type has at most one erasure. -/
theorem unique {other : Ty} (h : Erases heap seen t erased) (h' : Erases heap seen t other) :
    erased = other := by
  obtain ⟨enough, henough⟩ := h.eventually
  obtain ⟨enough', henough'⟩ := h'.eventually
  have heq := henough _ (Nat.le_max_left enough enough')
  rw [henough' _ (Nat.le_max_right enough enough')] at heq
  exact (Option.some.inj heq).symm

/-- A rule of erasure, from what one step answers. -/
theorem iff_of_succ {rule : Prop} (hsound : ∀ fuel,
      (eraseAlong heap (fuel + 1) seen t).answer = some erased → rule)
    (hcomplete : rule → Erases heap seen t erased) : Erases heap seen t erased ↔ rule := by
  refine ⟨fun ⟨fuel, h⟩ => ?_, hcomplete⟩
  cases fuel with
  | zero => cases h
  | succ fuel => exact hsound fuel h

end Erases

section Rules

variable {heap : Heap} {seen : List TypeVar} {erased : Ty}

/-- A name is its own erasure. -/
@[simp]
theorem erases_named {head : Named} :
    Erases heap seen (.named head) erased ↔ erased = .named head :=
  Erases.iff_of_succ (fun _ h => (Option.some.inj h).symm) fun h => ⟨1, by rw [h]; rfl⟩

/-- Erasing an applied type drops its arguments. -/
@[simp]
theorem erases_applied {owner : Option Ty} {raw : ClassName} {args : List Ty} :
    Erases heap seen (.applied owner raw args) erased ↔ erased = .named raw :=
  Erases.iff_of_succ (fun _ h => (Option.some.inj h).symm) fun h => ⟨1, by rw [h]; rfl⟩

/-- The answer about an array comes from its component. -/
theorem erase_along_array (fuel : Nat) (component : Ty) :
    (eraseAlong heap (fuel + 1) seen (.array component)).answer =
      (eraseAlong heap fuel [] component).answer.map Ty.array := by
  exact (erase_along_oblivious heap fuel [] component).answer_map Ty.array

/-- An array erases to the array of its erased component. -/
theorem erases_array {component : Ty} :
    Erases heap seen (.array component) erased ↔
      ∃ component', Erases heap [] component component' ∧ erased = .array component' := by
  refine Erases.iff_of_succ (fun fuel h => ?_) ?_
  · rw [erase_along_array] at h
    obtain ⟨component', hcomponent, rfl⟩ := Option.map_eq_some_iff.1 h
    exact ⟨component', ⟨fuel, hcomponent⟩, rfl⟩
  · rintro ⟨component', ⟨fuel, hcomponent⟩, rfl⟩
    exact ⟨fuel + 1, by rw [erase_along_array, hcomponent, Option.map_some]⟩

/-- A wildcard erases to what its upper bound erases to. -/
@[simp]
theorem erases_wildcard {upper : Ty} {lower : Option Ty} :
    Erases heap seen (.wildcard upper lower) erased ↔ Erases heap [] upper erased :=
  Erases.iff_of_succ (fun fuel h => ⟨fuel, h⟩) fun ⟨fuel, h⟩ => ⟨fuel + 1, h⟩

/-- The answer about a variable that was met before is the universal supertype. -/
theorem erase_along_seen {param : TypeVar} (hseen : seen.contains param = true) (fuel : Nat) :
    eraseAlong heap (fuel + 1) seen (.var param) = pure .top := by
  rw [eraseAlong, if_pos hseen]

/-- The answer about a new variable comes from its first bound. -/
theorem erase_along_fresh {param : TypeVar} (hseen : seen.contains param = false) (fuel : Nat) :
    (eraseAlong heap (fuel + 1) seen (.var param)).answer =
      match (heap.bounds param).head? with
      | some bound => (eraseAlong heap fuel (param :: seen) bound).answer
      | none => some .top := by
  rw [eraseAlong, if_neg (by rw [hseen]; exact Bool.false_ne_true),
    (Query.Oblivious.bounds heap param).answer_bind, Query.answer_bounds, Option.bind_some]
  · cases (heap.bounds param).head? <;> rfl
  · intro bounds
    split
    · exact erase_along_oblivious heap fuel _ _
    · exact .pure _

/-- A variable that was met before erases to the universal supertype. -/
theorem erases_seen {param : TypeVar} (hseen : seen.contains param = true) :
    Erases heap seen (.var param) erased ↔ erased = .top := by
  refine Erases.iff_of_succ (fun fuel h => ?_) fun h => ⟨1, by rw [erase_along_seen hseen, h]; rfl⟩
  rw [erase_along_seen hseen] at h
  exact (Option.some.inj h).symm

/-- A new variable erases to what its first bound erases to. -/
theorem erases_fresh {param : TypeVar} {bound : Ty} (hseen : seen.contains param = false)
    (hbound : (heap.bounds param).head? = some bound) :
    Erases heap seen (.var param) erased ↔ Erases heap (param :: seen) bound erased := by
  refine Erases.iff_of_succ (fun fuel h => ?_) fun ⟨fuel, h⟩ => ⟨fuel + 1, ?_⟩
  · rw [erase_along_fresh hseen, hbound] at h
    exact ⟨fuel, h⟩
  · rw [erase_along_fresh hseen, hbound]
    exact h

/-- A new variable without bounds erases to the universal supertype. -/
theorem erases_unbounded {param : TypeVar} (hseen : seen.contains param = false)
    (hbound : (heap.bounds param).head? = none) :
    Erases heap seen (.var param) erased ↔ erased = .top := by
  refine Erases.iff_of_succ (fun fuel h => ?_) fun h => ⟨1, ?_⟩
  · rw [erase_along_fresh hseen, hbound] at h
    exact (Option.some.inj h).symm
  · rw [erase_along_fresh hseen, hbound, h]

end Rules

/-- Some number of steps is enough to erase every member of a list. -/
theorem erases_eventually {heap : Heap} {types erased : List Ty}
    (h : List.Forall₂ (Erases heap []) types erased) :
    ∃ enough, ∀ fuel, enough ≤ fuel →
      List.Forall₂ (fun t u => (eraseAlong heap fuel [] t).answer = some u) types erased := by
  induction h with
  | nil => exact ⟨0, fun _ _ => .nil⟩
  | cons hfirst _ ih =>
      obtain ⟨enough, henough⟩ := hfirst.eventually
      obtain ⟨enough', hrest⟩ := ih
      refine ⟨max enough enough', fun fuel hfuel => .cons ?_ ?_⟩
      · exact henough fuel (Nat.le_trans (Nat.le_max_left ..) hfuel)
      · exact hrest fuel (Nat.le_trans (Nat.le_max_right ..) hfuel)

/-- The answers about a list are the erasures of its members. -/
theorem erases_mapM {heap : Heap} {types erased : List Ty} :
    (∃ fuel, (types.mapM (erase heap fuel)).answer = some erased) ↔
      List.Forall₂ (Erases heap []) types erased := by
  have hmapM (fuel : Nat) : (types.mapM (erase heap fuel)).answer = some erased ↔
      List.Forall₂ (fun t u => (eraseAlong heap fuel [] t).answer = some u) types erased :=
    Query.Oblivious.answer_mapM (erase_along_oblivious heap fuel [])
  constructor
  · rintro ⟨fuel, h⟩
    exact ((hmapM fuel).1 h).imp fun _ _ hanswer => ⟨fuel, hanswer⟩
  · intro h
    obtain ⟨enough, henough⟩ := erases_eventually h
    exact ⟨enough, (hmapM enough).2 (henough enough (Nat.le_refl _))⟩

end Nominal
