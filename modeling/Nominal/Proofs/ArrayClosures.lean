import Nominal.Proofs.BreadthFirst
import Nominal.Proofs.ClosureAcceptance
import Nominal.Proofs.FiniteClosures

/-!
# Closures of arrays

An array lies below the arrays of what its component lies below, and below the supertypes of all
arrays. So the closure of an array is made of the closure of its component and the closures of those
supertypes, whatever the component is: an array, a variable that bounds itself, a wildcard. Above an
array the two kinds of supertypes do not mix (`supertype_array_iff`), and the search from an array
ends if the searches from the component and from the interfaces of arrays do. Conversely it ends
from the component if it does so from the array; among types that are not coherent, this takes that
no array lies above those interfaces (`Drains.components`).
-/

namespace Nominal.Context

open Query

variable {context : Context} {roots : List Ty}

/-! ## Listed supertypes -/

/-- What is listed for a type are its supertypes. -/
theorem Lists.represents {t : Ty} {members : List Ty} (h : context.Lists roots t members)
    (hcoherent : context.Coherent roots) (ht : context.Reached roots t) :
    context.Represents roots t members := by
  obtain ⟨fuel, trail, after, hmemo, hrun⟩ := h
  exact (supertypes_ensures hcoherent ht trail hmemo members after hrun).2

/-- A list of the supertypes of a type contains what is equal to one of them. -/
theorem Represents.contains_iff {t u : Ty} {members : List Ty}
    (h : context.Represents roots t members) :
    members.contains u = true ↔ ∃ s, context.Supertype t s ∧ (s == u) = true := by
  rw [List.contains_iff_exists_mem_beq]
  constructor
  · rintro ⟨member, hmember, heq⟩
    obtain ⟨s, hs, hequal⟩ := h.sound member hmember
    exact ⟨s, hs, BEq.trans hequal (BEq.symm heq)⟩
  · rintro ⟨s, hs, heq⟩
    obtain ⟨member, hmember, hequal⟩ := h.complete s hs
    exact ⟨member, hmember, BEq.trans (BEq.symm heq) hequal⟩

/-- Arrays of the supertypes of a type contain what is equal to such an array. -/
theorem Represents.contains_map_array_iff {t u : Ty} {members : List Ty}
    (h : context.Represents roots t members) :
    (members.map Ty.array).contains u = true ↔
      ∃ s, context.Supertype t s ∧ (Ty.array s == u) = true := by
  rw [List.contains_iff_exists_mem_beq]
  constructor
  · rintro ⟨_, hmem, heq⟩
    obtain ⟨member, hmember, rfl⟩ := List.mem_map.1 hmem
    obtain ⟨s, hs, hequal⟩ := h.sound member hmember
    exact ⟨s, hs, BEq.trans (show (Ty.array s == .array member) = true from hequal) (BEq.symm heq)⟩
  · rintro ⟨s, hs, heq⟩
    obtain ⟨member, hmember, hequal⟩ := h.complete s hs
    exact ⟨.array member, List.mem_map_of_mem hmember,
      BEq.trans (BEq.symm heq) (show (Ty.array s == .array member) = true from hequal)⟩

/-! ## Supertypes of arrays -/

variable (context) in
/-- What all arrays lie below: the universal supertype and the two interfaces of arrays. -/
def markers : List Ty :=
  [.top, .named context.env.cloneable, .named context.env.serializable]

/-- The supertypes of an array are the arrays of the supertypes of its component, and what lies
above the supertypes of all arrays. -/
theorem supertype_array_iff {component s : Ty} (h : ∃ types, context.Directs component types) :
    context.Supertype (.array component) s ↔
      (∃ s', s = .array s' ∧ context.Supertype component s') ∨
        ∃ marker ∈ context.arraySupertypes, context.Supertype marker s := by
  constructor
  · exact supertype_array
  · rintro (⟨s', rfl, hs'⟩ | ⟨marker, hmarker, hs⟩)
    · exact supertype_array_of_component hs'
    · obtain ⟨types, htypes⟩ := h
      exact hs.head ⟨_, directs_array.2 ⟨types, htypes, rfl⟩, List.mem_append_right _ hmarker⟩

/-- The search from a component ends if it does so from the array. -/
theorem FiniteClosure.component (hcoherent : context.Coherent roots) {component : Ty}
    (harray : context.Reached roots (.array component))
    (h : context.FiniteClosure (.array component)) : context.FiniteClosure component := by
  obtain ⟨_, members, hanswer⟩ := h
  have hclosure := closure_closureOf hanswer
  -- the supertypes of the component stand in the closure as arrays
  have hcover (s : Ty) (hs : context.Supertype component s) :
      ∃ p ∈ members.flatMap Ty.parts, (s == p) = true := by
    obtain ⟨member, hmember, heq⟩ := hcoherent.uniform.exists_mem harray harray BEq.rfl hclosure
      (supertype_array_of_component hs)
    obtain ⟨s', rfl, hequal⟩ := Ty.array_beq heq
    exact ⟨s', List.mem_flatMap.2 ⟨_, hmember, List.mem_singleton.2 rfl⟩, hequal⟩
  refine finiteClosure_of_cover (fun s hs => ?_) hcover
  obtain ⟨types, htypes⟩ :=
    hclosure.exists_directs hcoherent.uniform harray (supertype_array_of_component hs)
  obtain ⟨types', htypes', _⟩ := directs_array.1 htypes
  exact ⟨types', htypes'⟩

/-! ## The arrays of a search -/

/-- What the arrays in a list are over, in their order. -/
def arrayComponents (types : List Ty) : List Ty :=
  types.filterMap fun
    | .array component => some component
    | _ => none

/-- Only an array of a type adds the type to what arrays are over. -/
theorem arrayComponents_eq_nil {types : List Ty}
    (h : ∀ component, .array component ∉ types) : arrayComponents types = [] := by
  refine List.filterMap_eq_nil_iff.2 fun t ht => ?_
  cases t with
  | array component => exact absurd ht (h component)
  | named | applied | var | wildcard => rfl

/-- A list contains an array if the component is among what its arrays are over. -/
theorem contains_arrayComponents (types : List Ty) (component : Ty) :
    (arrayComponents types).contains component = types.contains (.array component) := by
  induction types with
  | nil => rfl
  | cons t rest ih =>
      cases t with
      | array first =>
          show ((first :: arrayComponents rest).contains component) = _
          rw [List.contains_cons, List.contains_cons, ih]
          rfl
      | named | applied | var | wildcard => exact ih

/-- Known arrays are left out together with their components. -/
theorem arrayComponents_filter (known types : List Ty) :
    arrayComponents (types.filter fun t => !known.contains t) =
      (arrayComponents types).filter fun t => !(arrayComponents known).contains t := by
  induction types with
  | nil => rfl
  | cons t rest ih =>
      cases t with
      | array component =>
          show _ = (component :: arrayComponents rest).filter _
          rw [List.filter_cons, List.filter_cons, contains_arrayComponents, ← ih]
          split <;> rfl
      | named | applied | var | wildcard =>
          rw [List.filter_cons]
          split <;> exact ih

/-- Lists in sequence have what the arrays in each of them are over. -/
theorem arrayComponents_append (types types' : List Ty) :
    arrayComponents (types ++ types') = arrayComponents types ++ arrayComponents types' :=
  List.filterMap_append

/-- The arrays over the types of a list are over those types. -/
theorem arrayComponents_map (types : List Ty) : arrayComponents (types.map Ty.array) = types := by
  rw [arrayComponents, List.filterMap_map]
  exact List.filterMap_some

variable (context) in
/-- No array lies above the supertypes of all arrays. -/
def MarkersApart : Prop :=
  ∀ marker ∈ context.arraySupertypes, ∀ component, ¬ context.Supertype marker (.array component)

/-- Among the arrays of a search that ends, the components are searched too. All that is not an
array lies above the supertypes of all arrays, so nothing there leads to an array again. -/
theorem Drains.components (hapart : context.MarkersApart) {visited queue members : List Ty}
    (h : context.Drains visited queue members)
    (hqueue : ∀ t ∈ queue, (∃ component, t = .array component) ∨
      ∃ marker ∈ context.arraySupertypes, context.Supertype marker t) :
    context.Drains (arrayComponents visited) (arrayComponents queue) (arrayComponents members) := by
  induction h with
  | done => exact .done
  | @skip visited queue members current hvisited _ ih =>
      have hrest := ih fun t ht => hqueue t (List.mem_cons_of_mem _ ht)
      cases current with
      | array component =>
          exact .skip ((contains_arrayComponents visited component).trans hvisited) hrest
      | named | applied | var | wildcard => exact hrest
  | @visit visited queue types members current hnew htypes _ ih =>
      have hnext (h : ∀ t ∈ types, (∃ component, t = .array component) ∨
          ∃ marker ∈ context.arraySupertypes, context.Supertype marker t) :=
        ih (List.forall_mem_append.2 ⟨fun t ht => hqueue t (List.mem_cons_of_mem _ ht),
          fun t ht => h t (List.mem_filter.1 ht).1⟩)
      rw [arrayComponents_append, arrayComponents_append, arrayComponents_filter,
        arrayComponents_append] at hnext
      rcases hqueue current List.mem_cons_self with ⟨component, rfl⟩ | ⟨marker, hmarker, habove⟩
      · obtain ⟨types', htypes', rfl⟩ := directs_array.1 htypes
        have hmarkers : arrayComponents context.arraySupertypes = [] :=
          arrayComponents_eq_nil fun component hmem => hapart _ hmem component .refl
        rw [arrayComponents_append, arrayComponents_map, hmarkers, List.append_nil] at hnext
        refine .visit ((contains_arrayComponents visited component).trans hnew) htypes' (hnext ?_)
        refine List.forall_mem_append.2 ⟨fun t ht => ?_, fun t ht => .inr ⟨t, ht, .refl⟩⟩
        obtain ⟨component', _, rfl⟩ := List.mem_map.1 ht
        exact .inl ⟨component', rfl⟩
      · have hall (t : Ty) (ht : t ∈ types) : context.Supertype marker t :=
          habove.tail ⟨types, htypes, ht⟩
        have hcurrent : arrayComponents [current] = [] :=
          arrayComponents_eq_nil fun component hmem =>
            hapart marker hmarker component (List.mem_singleton.1 hmem ▸ habove)
        have hnone : arrayComponents types = [] :=
          arrayComponents_eq_nil fun component hmem => hapart marker hmarker component (hall _ hmem)
        rw [hnone, List.filter_nil, List.append_nil, hcurrent, List.append_nil] at hnext
        rw [← List.singleton_append, arrayComponents_append, hcurrent]
        exact hnext fun t ht => .inr ⟨marker, hmarker, hall t ht⟩

/-- Where no array lies above the supertypes of all arrays, the search from a component ends if it
does so from the array. -/
theorem FiniteClosure.component_of_markersApart (hapart : context.MarkersApart) {component : Ty}
    (h : context.FiniteClosure (.array component)) : context.FiniteClosure component := by
  obtain ⟨fuel, members, hanswer⟩ := h
  have hdrains := (drains_iff.2 ⟨fuel, hanswer⟩).components hapart
    (List.forall_mem_singleton.2 (.inl ⟨component, rfl⟩))
  obtain ⟨enough, hcomponents⟩ := drains_iff.1 hdrains
  exact ⟨enough, _, hcomponents⟩

/-- The search from an array ends if it does so from its component and from the supertypes of all
arrays. -/
theorem finiteClosure_array (hcoherent : context.Coherent roots) {component : Ty}
    (harray : context.Reached roots (.array component))
    (hcomponent : context.FiniteClosure component)
    (hmarkers : ∀ marker ∈ context.arraySupertypes, context.Reached roots marker ∧
      context.FiniteClosure marker) :
    context.FiniteClosure (.array component) := by
  obtain ⟨_, members, hanswer⟩ := hcomponent
  have hclosure := closure_closureOf hanswer
  -- one list of supertypes for each of the supertypes of all arrays
  obtain ⟨lists, hlists⟩ := List.exists_forall₂ fun marker hmarker => by
    obtain ⟨fuel, list, hlist⟩ := (hmarkers marker hmarker).2
    exact ⟨list, closure_closureOf hlist⟩
  have hcover (s : Ty) (hs : context.Supertype (.array component) s) :
      ∃ p ∈ members.map Ty.array ++ lists.flatten, (s == p) = true := by
    rcases supertype_array hs with ⟨s', rfl, hs'⟩ | ⟨marker, hmarker, hs⟩
    · obtain ⟨member, hmember, heq⟩ :=
        hcoherent.uniform.exists_mem harray.component harray.component BEq.rfl hclosure hs'
      exact ⟨.array member, List.mem_append_left _ (List.mem_map_of_mem hmember), heq⟩
    · obtain ⟨list, hlist, hmarkerClosure⟩ := hlists.exists_mem hmarker
      have hreached := (hmarkers marker hmarker).1
      obtain ⟨member, hmember, heq⟩ :=
        hcoherent.uniform.exists_mem hreached hreached BEq.rfl hmarkerClosure hs
      exact ⟨member, List.mem_append_right _ (List.mem_flatten_of_mem hlist hmember), heq⟩
  refine finiteClosure_of_cover (fun s hs => ?_) hcover
  rcases supertype_array hs with ⟨s', rfl, hs'⟩ | ⟨marker, hmarker, hs⟩
  · obtain ⟨types, htypes⟩ := hclosure.exists_directs hcoherent.uniform harray.component hs'
    exact ⟨_, directs_array.2 ⟨types, htypes, rfl⟩⟩
  · obtain ⟨list, _, hmarkerClosure⟩ := hlists.exists_mem hmarker
    exact hmarkerClosure.exists_directs hcoherent.uniform (hmarkers marker hmarker).1 hs

/-- What lies above one of two markers with one name lies above the one that is listed, up to
equality. -/
theorem exists_above_marker (hcoherent : context.Coherent roots)
    (hmarkers : ∀ marker ∈ context.markers, context.Reached roots marker) {marker s : Ty}
    (hmarker : marker ∈ context.markers) (hs : context.Supertype marker s) :
    ∃ other ∈ context.arraySupertypes, ∃ s', context.Supertype other s' ∧ (s == s') = true := by
  obtain ⟨other, hother, heq⟩ := Ty.exists_mem_distinct hmarker
  obtain ⟨s', hs', hequal⟩ := hcoherent.uniform.supertype (hmarkers marker hmarker)
    (hmarkers other (Ty.mem_of_mem_distinct hother)) heq hs
  exact ⟨other, hother, s', hs', hequal⟩

/-- A list of the supertypes of an array contains what is equal to an array over the supertypes of
its component, or lies above one of the markers. -/
theorem Represents.contains_array_iff (hcoherent : context.Coherent roots)
    (hmarkers : ∀ marker ∈ context.markers, context.Reached roots marker) {component t : Ty}
    {arrays components : List Ty} (harrays : context.Represents roots (.array component) arrays)
    (hcomponents : context.Represents roots component components)
    (hdirects : ∃ types, context.Directs component types) :
    arrays.contains t = true ↔ (components.map Ty.array).contains t = true ∨
      ∃ marker ∈ context.markers, ∃ s, context.Supertype marker s ∧ (s == t) = true := by
  rw [harrays.contains_iff, hcomponents.contains_map_array_iff]
  simp only [supertype_array_iff hdirects]
  constructor
  · rintro ⟨s, ⟨s', rfl, hs'⟩ | ⟨marker, hmarker, hs⟩, heq⟩
    · exact .inl ⟨s', hs', heq⟩
    · exact .inr ⟨marker, Ty.mem_of_mem_distinct hmarker, s, hs, heq⟩
  · rintro (⟨s', hs', heq⟩ | ⟨marker, hmarker, s, hs, heq⟩)
    · exact ⟨.array s', .inl ⟨s', rfl, hs'⟩, heq⟩
    · obtain ⟨other, hother, s', hs', hequal⟩ :=
        exists_above_marker hcoherent hmarkers hmarker hs
      exact ⟨s', .inr ⟨other, hother, hs'⟩, BEq.trans (BEq.symm hequal) heq⟩

/-- The closure of an array is, as a set, made of the arrays over the closure of its component and
of the closures of the universal supertype and of the two interfaces of arrays. It is found if those
closures are finite. -/
theorem supertypes_array (hcoherent : context.Coherent roots) {component : Ty}
    (hroots : ∀ t ∈ .array component :: context.markers, t ∈ roots)
    (hfinite : ∀ t ∈ component :: context.markers, context.FiniteClosure t) :
    (∀ t ∈ .array component :: component :: context.markers,
      Terminates (context.MemoSound roots) fun fuel => context.supertypes fuel t) ∧
    ∀ {arrays components objects cloneables serializables : List Ty},
      context.Lists roots (.array component) arrays →
      context.Lists roots component components →
      context.Lists roots .top objects →
      context.Lists roots (.named context.env.cloneable) cloneables →
      context.Lists roots (.named context.env.serializable) serializables →
      ∀ t, arrays.contains t =
        (components.map Ty.array ++ objects ++ cloneables ++ serializables).contains t := by
  rw [List.forall_mem_cons] at hroots hfinite
  have harray : context.Reached roots (.array component) := .root hroots.1
  have hmarkers (marker : Ty) (h : marker ∈ context.markers) : context.Reached roots marker :=
    .root (hroots.2 marker h)
  constructor
  · have hends {t : Ty} (ht : context.Reached roots t) (h : context.FiniteClosure t) :
        Terminates (context.MemoSound roots) fun fuel => context.supertypes fuel t :=
      (supertypes_represent hcoherent ht h).mono fun _ _ => trivial
    have harrayFinite := finiteClosure_array hcoherent harray hfinite.1 fun marker h =>
      ⟨hmarkers marker (Ty.mem_of_mem_distinct h), hfinite.2 marker (Ty.mem_of_mem_distinct h)⟩
    rw [List.forall_mem_cons, List.forall_mem_cons]
    exact ⟨hends harray harrayFinite, hends harray.component hfinite.1,
      fun marker h => hends (hmarkers marker h) (hfinite.2 marker h)⟩
  · intro arrays components objects cloneables serializables harrays hcomponents hobjects
      hcloneables hserializables t
    have hdirects : ∃ types, context.Directs component types := by
      obtain ⟨_, members, hanswer⟩ := hfinite.1
      exact (closure_closureOf hanswer).exists_directs hcoherent.uniform harray.component .refl
    rw [Bool.eq_iff_iff, Represents.contains_array_iff hcoherent hmarkers
      (harrays.represents hcoherent harray) (hcomponents.represents hcoherent harray.component)
      hdirects]
    have hlists {marker : Ty} (hmarker : marker ∈ context.markers) {list : List Ty}
        (h : context.Lists roots marker list) :
        (∃ s, context.Supertype marker s ∧ (s == t) = true) ↔ list.contains t = true :=
      (h.represents hcoherent (hmarkers marker hmarker)).contains_iff.symm
    have hmem : .top ∈ context.markers ∧ .named context.env.cloneable ∈ context.markers ∧
        .named context.env.serializable ∈ context.markers := by simp [markers]
    simp only [List.contains_append, Bool.or_eq_true, or_assoc, markers, List.mem_cons,
      List.not_mem_nil, or_false, exists_eq_or_imp, exists_eq_left, hlists hmem.1 hobjects,
      hlists hmem.2.1 hcloneables, hlists hmem.2.2 hserializables]

/-- The closure of an array of a variable that is bounded by lists of itself has the arrays over the
closure of the variable, beside the universal supertype and the interfaces of arrays. -/
theorem chain_array_supertypes :
    ∃ arrays components : List Ty,
      chains.Lists chainTypes (.array (.var (chainVar (.owning 2)))) arrays ∧
      chains.Lists chainTypes (.var (chainVar (.owning 2))) components ∧
      components.length = 4 ∧
      ∀ t, arrays.contains t = (components.map Ty.array ++ [Ty.top] ++ [Ty.named .cloneable] ++
        [Ty.named .serializable]).contains t := by
  have hroots : ∀ t ∈ .array (.var (chainVar (.owning 2))) :: chains.markers, t ∈ chainTypes := by
    simp [markers, chainTypes, chains, listEnv]
  have hfinite : ∀ t ∈ .var (chainVar (.owning 2)) :: chains.markers, chains.FiniteClosure t := by
    simp only [markers, List.forall_mem_cons]
    exact ⟨⟨6, _, rfl⟩, ⟨3, _, rfl⟩, ⟨3, _, rfl⟩, ⟨3, _, rfl⟩, List.forall_mem_nil _⟩
  refine ⟨_, _, ⟨12, .empty, _, memoSound_empty, rfl⟩, ⟨12, .empty, _, memoSound_empty, rfl⟩, rfl,
    ?_⟩
  exact (supertypes_array chains_coherent hroots hfinite).2 ⟨12, .empty, _, memoSound_empty, rfl⟩
    ⟨12, .empty, _, memoSound_empty, rfl⟩ ⟨3, .empty, _, memoSound_empty, rfl⟩
    ⟨3, .empty, _, memoSound_empty, rfl⟩ ⟨3, .empty, _, memoSound_empty, rfl⟩

end Nominal.Context
