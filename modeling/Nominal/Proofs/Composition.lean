import Nominal.Proofs.Substitution

/-!
# Composition of substitutions

Two substitutions one after the other do the same as one that takes the values of the first with the
second applied to them, and the values of the second for all other variables. This holds of every
type. A substitution that gives no variable of a type another value leaves a well formed type equal
to itself.
-/

namespace Nominal

namespace Substitution

/-- The substitution does what the two others do one after the other. -/
def Composes (both first second : Substitution) : Prop :=
  ∀ param, both.lookup param =
    ((first.lookup param).map fun value => value.substitute second).or (second.lookup param)

variable {both first second : Substitution}

/-- If the first substitution is empty, the other two have the same values. -/
theorem Composes.lookup_of_isEmpty_first (h : both.Composes first second)
    (hfirst : first.isEmpty = true) (param : TypeVar) :
    both.lookup param = second.lookup param := by
  rw [h param, List.isEmpty_iff.1 hfirst]
  rfl

/-- If the second substitution is empty, the other two have the same values. -/
theorem Composes.lookup_of_isEmpty_second (h : both.Composes first second)
    (hsecond : second.isEmpty = true) (param : TypeVar) :
    both.lookup param = first.lookup param := by
  cases List.isEmpty_iff.1 hsecond
  rw [h param, List.lookup_nil, Option.or_none]
  cases first.lookup param <;> rfl

/-- A composite of substitutions of which one is not empty is not empty. -/
theorem Composes.isEmpty_eq_false (h : both.Composes first second)
    (hsecond : second.isEmpty = false) : both.isEmpty = false := by
  cases second with
  | nil => cases hsecond
  | cons pair rest =>
      have hsome := h pair.1
      rw [List.lookup_cons, BEq.rfl] at hsome
      cases both with
      | nil => cases hlookup : first.lookup pair.1 <;> simp [hlookup] at hsome
      | cons => rfl

/-- Variables are replaced twice by what they are replaced by once. -/
theorem Composes.replace_var (h : both.Composes first second)
    (hsecond : second.isEmpty = false) (param : TypeVar) :
    Ty.replace second (Ty.replace first (.var param)) = Ty.replace both (.var param) := by
  rw [Ty.replace, Ty.replace, h param]
  cases first.lookup param with
  | none => rfl
  | some value => exact (Ty.substitute_of_not_isEmpty hsecond value).symm

end Substitution

namespace Ty

/-- Substitution composes. Substituting twice is substituting once by the composite, whatever the
type and the values are: wildcards may meet wildcards in either step. And a well formed type stays
equal to itself if none of its variables has a value, or if variables that have a value are their
own. -/
theorem substitute_compose :
    (∀ {first second both : Substitution}, both.Composes first second → ∀ t : Ty,
      ((t.substitute first).substitute second == t.substitute both) = true) ∧
    ∀ {map : Substitution} {t : Ty}, t.WellFormed →
      (t.Vars fun param => map.lookup param = none) ∨
        (∀ param value, map.lookup param = some value → (value == .var param) = true) →
      (t.substitute map == t) = true := by
  constructor
  · intro first second both h t
    cases hsecond : second.isEmpty with
    | true =>
        rw [substitute_of_isEmpty hsecond,
          substitute_of_lookup (h.lookup_of_isEmpty_second hsecond)]
        exact BEq.rfl
    | false =>
        cases hfirst : first.isEmpty with
        | true =>
            rw [substitute_of_isEmpty hfirst,
              substitute_of_lookup (h.lookup_of_isEmpty_first hfirst)]
            exact BEq.rfl
        | false =>
            rw [substitute_of_not_isEmpty hfirst, substitute_of_not_isEmpty hsecond,
              substitute_of_not_isEmpty (h.isEmpty_eq_false hsecond)]
            refine replace_replace (vars_of_forall (fun param => ?_) t)
            rw [h.replace_var hsecond]
            exact BEq.rfl
  · intro map t hformed hmap
    rcases hmap with hnone | hown
    · exact substitute_of_unmapped hformed hnone
    · rw [substitute]
      split
      · exact BEq.rfl
      · refine replace_fixed hformed (vars_of_forall (fun param => ?_) t)
        rw [replace]
        cases hlookup : map.lookup param with
        | none => exact BEq.rfl
        | some value => exact hown param value hlookup

section Routes

/-- A type parameter of routes. -/
def stop (name : String) (handle : Handle) : TypeVar := ⟨name, "Route", handle⟩

/-- Where routes go. -/
def city : Ty := .named ⟨"City", .classType, 0⟩

/-- The variables of a route stand below an upper and, in an array, above a lower bound. -/
def route : Ty :=
  .applied none ⟨⟨"Route", .classType, 2⟩, rfl⟩
    [.wildcard (.var (stop "From" (.owning 0))) none,
      .wildcard .top (some (.array (.var (stop "To" (.owning 1)))))]

/-- Both variables lead to a third one, the first through a lower bound. -/
def detour : Substitution :=
  [(stop "From" (.owning 0), .wildcard .top (some (.var (stop "Via" (.owning 2))))),
    (stop "To" (.owning 1), .var (stop "Via" (.owning 2)))]

/-- The third variable is a city or what is below. -/
def arrival : Substitution :=
  [(stop "Via" (.owning 2), .wildcard city none), (stop "From" (.owning 0), .top)]

/-- The detour and then the arrival, in one. -/
def trip : Substitution :=
  [(stop "From" (.owning 0), .unbounded), (stop "To" (.owning 1), .wildcard city none),
    (stop "Via" (.owning 2), .wildcard city none)]

/-- On the trip the lower bound around the third variable meets the upper bound of a city and is
lost, whether the route is changed in two steps or in one. The route does not change where the third
variable alone has a value, nor where a variable stands for itself by another handle. -/
theorem route_trip :
    trip.Composes detour arrival ∧ route.WellFormed ∧
    ((route.substitute detour).substitute arrival == route.substitute trip) = true ∧
    (route.substitute trip == .applied none ⟨⟨"Route", .classType, 2⟩, rfl⟩
      [.unbounded, .wildcard .top (some (.array (.wildcard city none)))]) = true ∧
    (route.substitute [(stop "Via" (.owning 2), .wildcard city none)] == route) = true ∧
    (route.substitute [(stop "From" (.owning 0), .var (stop "From" (.back 0)))] == route) =
      true := by
  have hcomposes : trip.Composes detour arrival := by
    intro param
    simp only [trip, detour, arrival, List.lookup_cons, List.lookup_nil]
    cases param == stop "From" (.owning 0) with
    | true => rfl
    | false =>
        cases param == stop "To" (.owning 1) with
        | true => rfl
        | false => cases param == stop "Via" (.owning 2) <;> rfl
  have hformed : route.WellFormed := by
    refine .intro trivial (List.forall_mem_cons.2 ⟨?_, List.forall_mem_singleton.2 ?_⟩)
    · exact .intro rfl (List.forall_mem_singleton.2 (wellFormed_var _))
    · refine .intro ⟨rfl, rfl⟩ (List.forall_mem_cons.2 ⟨?_, List.forall_mem_singleton.2 ?_⟩)
      · exact .intro trivial (List.forall_mem_nil _)
      · exact .intro trivial (List.forall_mem_singleton.2 (wellFormed_var _))
  obtain ⟨htwice, hself⟩ := substitute_compose
  refine ⟨hcomposes, hformed, htwice hcomposes route, rfl, hself hformed (.inl ?_),
    hself hformed (.inr ?_)⟩
  · refine .intro nofun (List.forall_mem_cons.2 ⟨?_, List.forall_mem_singleton.2 ?_⟩)
    · exact .intro nofun (List.forall_mem_singleton.2 (vars_var.2 rfl))
    · refine .intro nofun (List.forall_mem_cons.2 ⟨?_, List.forall_mem_singleton.2 ?_⟩)
      · exact .intro nofun (List.forall_mem_nil _)
      · exact .intro nofun (List.forall_mem_singleton.2 (vars_var.2 rfl))
  · intro param value hlookup
    rw [List.lookup_cons, List.lookup_nil] at hlookup
    split at hlookup
    · rename_i hparam
      cases hlookup
      exact BEq.symm hparam
    · cases hlookup

end Routes

end Ty

end Nominal
