import Mathlib.Data.Fintype.Card
import Mathlib.Data.Set.Finite.List
import Nominal.Proofs.Termination

/-!
# Circular bounds

Bounds may mention any variable, their own too. Erasure follows first bounds and stops at a variable
that it has met before, but behind an array it forgets which variables it has met. So it ends unless
the component of an array leads back to an array of itself, as it does for a variable the first
bound of which is an array of the variable. `erase_answers_iff` says so for all heaps that
operations make; what comes out is a name inside arrays and its own erasure.
-/

namespace Nominal

namespace Ty

/-- A name, or a name inside arrays. -/
def isErased : Ty → Bool
  | .named _ => true
  | .array component => component.isErased
  | _ => false

/-- The components of the arrays in a type that erasure may come to, without looking at bounds of
variables. -/
def components : Ty → List Ty
  | .array component => component :: component.components
  | .wildcard upper _ => upper.components
  | _ => []

/-- The components in a component of a type are components in the type. -/
theorem components_subset {t component : Ty} (h : component ∈ t.components) :
    component.components ⊆ t.components := by
  induction t using parts_induction with
  | step t ih =>
      cases t with
      | array inner =>
          rcases List.mem_cons.1 h with rfl | h
          · exact List.subset_cons_self _ _
          · exact List.subset_cons_of_subset _ (ih inner (List.mem_singleton.2 rfl) h)
      | wildcard upper lower => exact ih upper List.mem_cons_self h
      | named | applied | var => cases h

/-- Components are smaller than the type. -/
theorem sizeOf_lt_of_mem_components {t component : Ty} (h : component ∈ t.components) :
    sizeOf component < sizeOf t := by
  induction t using parts_induction with
  | step t ih =>
      have hpart {part : Ty} (hpart : part ∈ t.parts) (h : component ∈ part.components) :
          sizeOf component < sizeOf t :=
        Nat.lt_trans (ih part hpart h) (sizeOf_lt_of_mem_parts hpart)
      cases t with
      | array inner =>
          rcases List.mem_cons.1 h with rfl | h
          · exact sizeOf_lt_of_mem_parts (List.mem_singleton.2 rfl)
          · exact hpart (List.mem_singleton.2 rfl) h
      | wildcard upper lower => exact hpart List.mem_cons_self h
      | named | applied | var => cases h

end Ty

namespace Heap

/-! ## Circles -/

/-- The erasure of a type is an array of the erasure of the component. -/
def Component (heap : Heap) (t component : Ty) : Prop := heap.LeadsTo component [] t

/-- Erasing a type comes to an array in which it comes to the same array again. -/
def Circular (heap : Heap) (t : Ty) : Prop :=
  ∃ component, Relation.ReflTransGen heap.Component t component ∧
    Relation.TransGen heap.Component component component

variable {heap : Heap} {seen : List TypeVar} {t component erased : Ty}

/-- What is inside an erasure that was found gets smaller on the way from array to array. -/
theorem exists_erases_of_transGen (h : Relation.TransGen heap.Component t component)
    (ht : Erases heap [] t erased) :
    ∃ inner, Erases heap [] component inner ∧ sizeOf inner < sizeOf erased := by
  have hstep {t component erased : Ty} (h : heap.Component t component)
      (ht : Erases heap [] t erased) :
      ∃ inner, Erases heap [] component inner ∧ sizeOf inner < sizeOf erased := by
    obtain ⟨inner, hinner, rfl⟩ := (LeadsTo.erases_iff h).1 ht
    exact ⟨inner, hinner, Ty.sizeOf_lt_of_mem_parts (List.mem_singleton.2 rfl)⟩
  induction h with
  | single h => exact hstep h ht
  | tail _ h ih =>
      obtain ⟨middle, hmiddle, hlt⟩ := ih
      obtain ⟨inner, hinner, hlt'⟩ := hstep h hmiddle
      exact ⟨inner, hinner, Nat.lt_trans hlt' hlt⟩

/-- A type that leads into a circle has no erasure. -/
theorem not_circular_of_erases (ht : Erases heap [] t erased) : ¬ heap.Circular t := by
  rintro ⟨component, hreach, hcircle⟩
  have hcomponent : ∃ inner, Erases heap [] component inner := by
    rcases Relation.reflTransGen_iff_eq_or_transGen.1 hreach with rfl | hreach
    · exact ⟨erased, ht⟩
    · obtain ⟨inner, hinner, _⟩ := exists_erases_of_transGen hreach ht
      exact ⟨inner, hinner⟩
  obtain ⟨inner, hinner⟩ := hcomponent
  obtain ⟨inner', hinner', hlt⟩ := exists_erases_of_transGen hcircle hinner
  cases hinner.unique hinner'
  exact Nat.lt_irrefl _ hlt

/-- Arrays that are reached stand in the type or in a bound. -/
theorem LeadsTo.mem_components (h : heap.LeadsTo component seen t) :
    component ∈ t.components ∨ component ∈ heap.boundTypes.flatMap Ty.components := by
  induction h with
  | array => exact .inl List.mem_cons_self
  | wildcard _ ih => exact ih
  | var _ hbound _ ih =>
      rcases ih with hmem | hmem
      · rcases eq_top_or_mem_boundTypes (List.mem_of_head? hbound) with rfl | hstored
        · cases hmem
        · exact .inr (List.mem_flatMap.2 ⟨_, hstored, hmem⟩)
      · exact .inr hmem

/-- From array to array, the components stay among those in the type and in the bounds. -/
theorem mem_components_of_transGen (h : Relation.TransGen heap.Component t component) :
    component ∈ t.components ++ heap.boundTypes.flatMap Ty.components := by
  induction h with
  | single h => exact List.mem_append.2 (LeadsTo.mem_components h)
  | tail _ h ih =>
      rcases LeadsTo.mem_components h with hmem | hmem
      · rcases List.mem_append.1 ih with hbefore | hbefore
        · exact List.mem_append_left _ (Ty.components_subset hbefore hmem)
        · obtain ⟨bound, hbound, hbefore⟩ := List.mem_flatMap.1 hbefore
          exact List.mem_append_right _
            (List.mem_flatMap.2 ⟨bound, hbound, Ty.components_subset hbefore hmem⟩)
      · exact List.mem_append_right _ hmem

/-- A type that leads into no circle has an erasure: only finitely many components can be reached,
and none is reached twice. -/
theorem exists_erases_of_not_circular (hformed : heap.Formed) (h : ¬ heap.Circular t) :
    ∃ erased, Erases heap [] t erased := by
  let Reached := { component : Ty // Relation.ReflTransGen heap.Component t component }
  have hfinite : Finite Reached := by
    refine Set.Finite.subset (List.finite_toSet
      (t :: (t.components ++ heap.boundTypes.flatMap Ty.components))) fun component hreach => ?_
    rcases Relation.reflTransGen_iff_eq_or_transGen.1 hreach with rfl | hreach
    · exact List.mem_cons_self
    · exact List.mem_cons_of_mem _ (mem_components_of_transGen hreach)
  let after (inner outer : Reached) : Prop := Relation.TransGen heap.Component outer.1 inner.1
  have htrans : IsTrans Reached after := ⟨fun _ _ _ hab hbc => hbc.trans hab⟩
  have hirrefl : Std.Irrefl after :=
    ⟨fun component hcircle => h ⟨component.1, component.2, hcircle⟩⟩
  have hall (component : Reached) : ∃ erased, Erases heap [] component.1 erased := by
    induction component using (Finite.wellFounded_of_trans_of_irrefl after).induction with
    | _ component ih =>
        rcases leadsTo_or_erases hformed [] component.1 with ⟨inner, hinner⟩ | ⟨head, hhead⟩
        · obtain ⟨erased, herased⟩ := ih ⟨inner, component.2.tail hinner⟩ (.single hinner)
          exact ⟨.array erased, hinner.erases_iff.2 ⟨erased, herased, rfl⟩⟩
        · exact ⟨.named head, hhead⟩
  exact hall ⟨t, .refl⟩

/-- Where no first bound is an array, the arrays that are reached stand in the type. -/
theorem LeadsTo.mem_components_of_no_array (hformed : heap.Formed)
    (hbounds : ∀ param inner, (heap.bounds param).head? ≠ some (.array inner))
    (h : heap.LeadsTo component seen t) : component ∈ t.components := by
  induction h with
  | array => exact List.mem_cons_self
  | wildcard _ ih => exact ih
  | @var _ param bound _ hbound _ ih =>
      cases bound with
      | array inner => exact absurd hbound (hbounds param inner)
      | wildcard => cases ((hformed param.cell).reference _ (List.mem_of_head? hbound)).2
      | named | applied | var => cases ih

/-- Where no first bound is an array, there are no circles: components get smaller. -/
theorem not_circular_of_no_array (hformed : heap.Formed)
    (hbounds : ∀ param inner, (heap.bounds param).head? ≠ some (.array inner)) (t : Ty) :
    ¬ heap.Circular t := by
  have hstep {t component : Ty} (h : heap.Component t component) : sizeOf component < sizeOf t :=
    Ty.sizeOf_lt_of_mem_components (LeadsTo.mem_components_of_no_array hformed hbounds h)
  have hsize {t component : Ty} (h : Relation.TransGen heap.Component t component) :
      sizeOf component < sizeOf t := by
    induction h with
    | single h => exact hstep h
    | tail _ h ih => exact Nat.lt_trans (hstep h) ih
  rintro ⟨component, _, hcircle⟩
  exact Nat.lt_irrefl _ (hsize hcircle)

/-! ## What erasures are -/

/-- An erasure is a name inside arrays. -/
theorem isErased_of_erases (hformed : heap.Formed) (h : Erases heap seen t erased) :
    erased.isErased = true := by
  induction erased using Ty.parts_induction generalizing seen t with
  | step erased ih =>
      rcases leadsTo_or_erases hformed seen t with ⟨component, hleads⟩ | ⟨head, hhead⟩
      · obtain ⟨inner, hinner, rfl⟩ := hleads.erases_iff.1 h
        exact ih inner (List.mem_singleton.2 rfl) hinner
      · cases hhead.unique h
        rfl

/-- Names inside arrays are their own erasure. -/
theorem erases_self (heap : Heap) (seen : List TypeVar) {t : Ty} (h : t.isErased = true) :
    Erases heap seen t t := by
  induction t using Ty.parts_induction generalizing seen with
  | step t ih =>
      cases t with
      | named head => exact erases_named.2 rfl
      | array component =>
          exact erases_array.2 ⟨component, ih component (List.mem_singleton.2 rfl) [] h, rfl⟩
      | applied | var | wildcard => cases h

end Heap

/-- Erasure ends for exactly the types that do not lead into a circle, so it always ends where no
first bound is an array. What it gives is a name inside arrays, and erasing that gives it again. -/
theorem erase_answers_iff {heap : Heap} (hmade : heap.Made) (t : Ty) :
    ((∃ fuel erased, (erase heap fuel t).answer = some erased) ↔ ¬ heap.Circular t) ∧
    ((∀ param component, (heap.bounds param).head? ≠ some (.array component)) →
      ∃ fuel erased, (erase heap fuel t).answer = some erased) ∧
    ∀ fuel erased, (erase heap fuel t).answer = some erased →
      erased.isErased = true ∧ ∃ fuel, (erase heap fuel erased).answer = some erased := by
  have hends (hcircular : ¬ heap.Circular t) :
      ∃ fuel erased, (erase heap fuel t).answer = some erased := by
    obtain ⟨erased, fuel, h⟩ := heap.exists_erases_of_not_circular hmade.formed hcircular
    exact ⟨fuel, erased, h⟩
  refine ⟨⟨?_, hends⟩, fun hbounds => ?_, fun fuel erased h => ?_⟩
  · rintro ⟨fuel, erased, h⟩
    exact Heap.not_circular_of_erases ⟨fuel, h⟩
  · exact hends (Heap.not_circular_of_no_array hmade.formed hbounds t)
  · have herased := Heap.isErased_of_erases hmade.formed ⟨fuel, h⟩
    exact ⟨herased, heap.erases_self [] herased⟩

section Boxes

/-- The type parameters of boxes. -/
def boxed (name : String) (handle : Handle) : TypeVar := ⟨name, "Box", handle⟩

/-- What can be compared with the given type. -/
def comparable (t : Ty) : Ty := .applied none ⟨⟨"java.lang.Comparable", .interfaceType, 1⟩, rfl⟩ [t]

/-- The first parameter is ordered by itself, and the second is an array of the first. -/
def orderedBoxes : Heap :=
  ⟨#[.bound [comparable (.var (boxed "T" (.back 0)))],
    .bound [.array (.var (boxed "T" (.back 0)))]], [0]⟩

/-- Arrays of what is below the second parameter erase to arrays of arrays, although one bound is an
array and another one mentions its own variable. -/
theorem erase_ordered_boxes :
    orderedBoxes.Made ∧
    ¬ orderedBoxes.Circular (.array (.wildcard (.var (boxed "U" (.owning 1))) none)) ∧
    (erase orderedBoxes 6 (.array (.wildcard (.var (boxed "U" (.owning 1))) none))).answer =
      some (.array (.array (.named ⟨"java.lang.Comparable", .interfaceType, 1⟩))) := by
  have hmade : orderedBoxes.Made := by
    have harray : ((Heap.empty.declare "T" "Box").2.declare "U" "Box").2.bind
        (boxed "U" (.owning 1)) [.array (.var (boxed "T" (.owning 0)))] =
          .ok ⟨#[.unbound, .bound [.array (.var (boxed "T" (.back 0)))]], [0]⟩ := rfl
    have hself : Heap.bind ⟨#[.unbound, .bound [.array (.var (boxed "T" (.back 0)))]], [0]⟩
        (boxed "T" (.owning 0)) [comparable (.var (boxed "T" (.owning 0)))] =
          .ok orderedBoxes := rfl
    exact .bind (.bind (.declare "U" "Box" (.declare "T" "Box" .empty)) harray) hself
  exact ⟨hmade, (erase_answers_iff hmade _).1.1 ⟨6, _, rfl⟩, rfl⟩

/-- The only parameter is an array of itself. -/
def nestedBoxes : Heap := ⟨#[.bound [.array (.var (boxed "T" (.back 0)))]], [0]⟩

/-- A variable may be bound by an array of itself, and then has no erasure. -/
theorem erase_nested_boxes :
    (Heap.empty.declare "T" "Box").2.bind (boxed "T" (.owning 0))
      [.array (.var (boxed "T" (.owning 0)))] = .ok nestedBoxes ∧
    nestedBoxes.Made ∧ nestedBoxes.Circular (.var (boxed "T" (.owning 0))) ∧
    ∀ fuel, (erase nestedBoxes fuel (.var (boxed "T" (.owning 0)))).answer = none := by
  have hbind : (Heap.empty.declare "T" "Box").2.bind (boxed "T" (.owning 0))
      [.array (.var (boxed "T" (.owning 0)))] = .ok nestedBoxes := rfl
  have hnext (handle : Handle) (hcell : (boxed "T" handle).cell = 0) :
      nestedBoxes.Component (.var (boxed "T" handle)) (.var (boxed "T" (.back 0))) := by
    refine .var rfl ?_ .array
    rw [Heap.bounds, hcell]
    rfl
  have hcircular : nestedBoxes.Circular (.var (boxed "T" (.owning 0))) :=
    ⟨_, .single (hnext _ rfl), .single (hnext _ rfl)⟩
  refine ⟨hbind, .bind (.declare "T" "Box" .empty) hbind, hcircular, fun fuel => ?_⟩
  refine Option.eq_none_iff_forall_ne_some.2 fun erased h => ?_
  exact Heap.not_circular_of_erases ⟨fuel, h⟩ hcircular

end Boxes

end Nominal
