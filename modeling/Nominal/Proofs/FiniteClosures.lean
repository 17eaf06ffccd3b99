import Nominal.Proofs.Instantiation

/-!
# Hierarchies with finite closures

The search for the closure of a type ends if the type lies in a finite pool that is closed under
direct supertypes (`Confined`). Where declared supertypes have heads and no chain of declared names
goes on for ever, names and applied types are confined, by induction along those chains: the
arguments of the supertypes may grow, because only names are counted. Variables are confined
because the heap has finitely many bounds, and arrays of confined types are confined. The main
statement is `closure_ends`.
-/

namespace Nominal

/-- One name declares a supertype whose raw name is the other. -/
def Env.Declares (env : Env) (below above : String) : Prop :=
  ∃ declaration, env.find? below = some declaration ∧
    ∃ s ∈ declaration.supertypes, s.headName? = some above

/-- What stands as a bound in the heap is seen by the readers of a cell. -/
theorem Heap.exists_cell_of_mem_boundTypes {heap : Heap} {bound : Ty}
    (h : bound ∈ heap.boundTypes) : ∃ cell, bound ∈ heap.boundsAt cell := by
  obtain ⟨content, hcontent, hbound⟩ := List.mem_flatMap.1 h
  obtain ⟨cell, hcell⟩ := Array.mem_iff_getElem?.1 (Array.mem_toList_iff.1 hcontent)
  refine ⟨cell, ?_⟩
  rw [boundsAt, slot, hcell]
  cases content with
  | bound bounds => exact hbound
  | unbound | released => cases hbound

namespace Context

variable {context : Context}

/-! ## Pools -/

variable (context) in
/-- The types in the pool have their direct supertypes in it. -/
def ClosedPool (pool : List Ty) : Prop :=
  ∀ s ∈ pool, ∃ types, context.Directs s types ∧ types ⊆ pool

variable (context) in
/-- The type lies in a finite pool that is closed under direct supertypes. -/
def Confined (t : Ty) : Prop := ∃ pool, context.ClosedPool pool ∧ t ∈ pool

/-- Two closed pools make one. -/
theorem ClosedPool.append {first second : List Ty} (hfirst : context.ClosedPool first)
    (hsecond : context.ClosedPool second) : context.ClosedPool (first ++ second) := by
  intro s hs
  rcases List.mem_append.1 hs with hs | hs
  · obtain ⟨types, htypes, hmem⟩ := hfirst s hs
    exact ⟨types, htypes, fun u hu => List.mem_append_left _ (hmem hu)⟩
  · obtain ⟨types, htypes, hmem⟩ := hsecond s hs
    exact ⟨types, htypes, fun u hu => List.mem_append_right _ (hmem hu)⟩

/-- Supertypes of a type in a closed pool stay in the pool. -/
theorem ClosedPool.supertype {pool : List Ty} (hpool : context.ClosedPool pool) {t s : Ty}
    (ht : t ∈ pool) (hs : context.Supertype t s) : s ∈ pool := by
  induction hs with
  | refl => exact ht
  | tail _ hdirect ih =>
      obtain ⟨types, htypes, hu⟩ := hdirect
      obtain ⟨others, hothers, hsub⟩ := hpool _ ih
      exact hsub (htypes.unique hothers ▸ hu)

/-- One closed pool has room for several confined types. -/
theorem exists_closedPool {types : List Ty} (h : ∀ s ∈ types, context.Confined s) :
    ∃ pool, context.ClosedPool pool ∧ types ⊆ pool := by
  induction types with
  | nil => exact ⟨[], List.forall_mem_nil _, List.nil_subset _⟩
  | cons first rest ih =>
      rw [List.forall_mem_cons] at h
      obtain ⟨⟨pool, hpool, hfirst⟩, hrest⟩ := h
      obtain ⟨others, hothers, hmem⟩ := ih hrest
      refine ⟨pool ++ others, hpool.append hothers, ?_⟩
      rw [List.cons_subset]
      exact ⟨List.mem_append_left _ hfirst, fun s hs => List.mem_append_right _ (hmem hs)⟩

namespace Confined

/-- A type with confined direct supertypes is confined. -/
theorem of_directs {t : Ty} {types : List Ty} (htypes : context.Directs t types)
    (h : ∀ s ∈ types, context.Confined s) : context.Confined t := by
  obtain ⟨pool, hpool, hmem⟩ := exists_closedPool h
  refine ⟨t :: pool, fun s hs => ?_, List.mem_cons_self⟩
  rcases List.mem_cons.1 hs with rfl | hs
  · exact ⟨types, htypes, fun u hu => List.mem_cons_of_mem _ (hmem hu)⟩
  · obtain ⟨others, hothers, hsub⟩ := hpool s hs
    exact ⟨others, hothers, fun u hu => List.mem_cons_of_mem _ (hsub hu)⟩

/-- A confined type has confined direct supertypes. -/
theorem exists_directs {t : Ty} (h : context.Confined t) :
    ∃ types, context.Directs t types ∧ ∀ s ∈ types, context.Confined s := by
  obtain ⟨pool, hpool, ht⟩ := h
  obtain ⟨types, htypes, hmem⟩ := hpool t ht
  exact ⟨types, htypes, fun s hs => ⟨pool, hpool, hmem hs⟩⟩

/-- The search from a confined type ends. -/
theorem finiteClosure {t : Ty} (h : context.Confined t) : context.FiniteClosure t := by
  obtain ⟨pool, hpool, ht⟩ := h
  refine finiteClosure_of_cover (fun s hs => ?_) fun s hs => ⟨s, hpool.supertype ht hs, BEq.rfl⟩
  obtain ⟨types, htypes, _⟩ := hpool s (hpool.supertype ht hs)
  exact ⟨types, htypes⟩

/-- A confined type can be erased. -/
theorem exists_erases (hformed : context.heap.Formed) {t : Ty} (h : context.Confined t) :
    ∃ erased, Erases context.heap [] t erased := by
  obtain ⟨pool, hpool, ht⟩ := h
  have hself := List.mem_map_of_mem (f := Ty.arrayDepth) ht
  refine Context.exists_erases hformed ((pool.map Ty.arrayDepth).max (List.ne_nil_of_mem hself))
    (fun s hs => ?_) []
  exact List.le_max_of_mem (List.mem_map_of_mem (hpool.supertype ht hs))

/-- A wildcard is confined if its upper bound is. -/
theorem wildcard {upper : Ty} (h : context.Confined upper) (lower : Option Ty) :
    context.Confined (.wildcard upper lower) := by
  obtain ⟨types, htypes, hconfined⟩ := h.exists_directs
  exact of_directs (directs_wildcard.2 htypes) hconfined

/-- An array is confined if its component and the supertypes of all arrays are. -/
theorem array {component : Ty} (h : context.Confined component)
    (hmarkers : ∀ s ∈ context.arraySupertypes, context.Confined s) :
    context.Confined (.array component) := by
  obtain ⟨pool, hpool, hcomponent⟩ := h
  obtain ⟨markers, hclosed, hmem⟩ := exists_closedPool hmarkers
  refine ⟨pool.map Ty.array ++ markers, fun s hs => ?_,
    List.mem_append_left _ (List.mem_map_of_mem hcomponent)⟩
  rcases List.mem_append.1 hs with hs | hs
  · -- an array over the pool leads to arrays over the pool, beside the supertypes of all arrays
    obtain ⟨t, ht, rfl⟩ := List.mem_map.1 hs
    obtain ⟨types, htypes, hsub⟩ := hpool t ht
    refine ⟨_, directs_array.2 ⟨types, htypes, rfl⟩, List.append_subset.2 ⟨?_, ?_⟩⟩
    · exact fun u hu => List.mem_append_left _ (List.map_subset Ty.array hsub hu)
    · exact fun u hu => List.mem_append_right _ (hmem hu)
  · obtain ⟨types, htypes, hsub⟩ := hclosed s hs
    exact ⟨types, htypes, fun u hu => List.mem_append_right _ (hsub hu)⟩

end Confined

/-- The universal supertype is confined. -/
theorem confined_top : context.Confined .top :=
  .of_directs ((directs_leaf rfl).2 rfl) (List.forall_mem_nil _)

/-! ## Names and applied types -/

/-- The direct supertypes of a type with a head have heads that are declared above it, apart from
the universal supertype. -/
theorem exists_directs_of_head (hheaded : context.env.Headed) {t : Ty} {head : Named}
    (ht : t.head? = some head) :
    ∃ types, context.Directs t types ∧ ∀ s ∈ types, s = .top ∨
      ∃ above, s.head? = some above ∧ context.env.Declares head.name above.name := by
  -- a direct supertype has the head of a declared one, whatever became of its arguments
  have hdeclares {declaration : Declaration}
      (hfound : context.env.find? head.name = some declaration) {s u : Ty}
      (hs : s ∈ declaration.supertypes)
      (hhead : ∀ {above : Named}, s.head? = some above → u.head? = some above) :
      ∃ above, u.head? = some above ∧ context.env.Declares head.name above.name := by
    obtain ⟨above, habove, _⟩ := hheaded hfound s hs
    exact ⟨above, hhead habove, declaration, hfound, s, hs, (Ty.shape_of_head habove).2.2⟩
  cases t with
  | named _ =>
      cases Option.some.inj ht
      cases hleaf : head.isTop || head.isPrimitive with
      | true => exact ⟨[], (directs_leaf hleaf).2 rfl, List.forall_mem_nil _⟩
      | false =>
          cases hfound : context.env.find? head.name with
          | none => exact ⟨[], (directs_missing hfound).2 rfl, List.forall_mem_nil _⟩
          | some declaration =>
              cases hparams : declaration.params.isEmpty with
              | true =>
                  refine ⟨_, (directs_plain hleaf hfound hparams).2 rfl, fun s hs => ?_⟩
                  rcases mem_of_mem_orTop_distinct hs with hs | ⟨_, rfl⟩
                  · exact .inr (hdeclares hfound hs id)
                  · exact .inl rfl
              | false =>
                  obtain ⟨erased, herased⟩ := exists_erased hheaded hfound
                  refine ⟨_, (directs_raw hleaf hfound hparams).2 ⟨erased, herased, rfl⟩,
                    fun u hu => ?_⟩
                  rcases mem_of_mem_orTop_distinct hu with hu | ⟨_, rfl⟩
                  · obtain ⟨s, hs, hsu⟩ := herased.flip.exists_mem hu
                    refine .inr (hdeclares hfound hs fun habove => ?_)
                    rw [← (Ty.erases_head habove).unique hsu]
                    rfl
                  · exact .inl rfl
  | applied owner raw args =>
      cases Option.some.inj ht
      cases hfound : context.env.find? raw.name with
      | none => exact ⟨[], (directs_applied_missing hfound).2 rfl, List.forall_mem_nil _⟩
      | some declaration =>
          refine ⟨_, (directs_applied hfound).2 rfl, fun s hs => ?_⟩
          obtain ⟨other, hother, ⟨u, hu, rfl⟩ | ⟨_, _, rfl⟩⟩ :=
            direct_applied_cases ⟨_, (directs_applied hfound).2 rfl, hs⟩
          · cases Option.some.inj (hfound.symm.trans hother)
            exact .inr (hdeclares hfound hu (Ty.substitute_head _))
          · exact .inl rfl
  | array | var | wildcard => cases ht

/-- Names and applied types are confined where chains of declared names end. -/
theorem confined_of_head (hheaded : context.env.Headed)
    (hchains : WellFounded fun above below => context.env.Declares below above) {t : Ty}
    {head : Named} (ht : t.head? = some head) : context.Confined t := by
  -- on the name at the head, whatever the arguments are
  generalize hname : head.name = name
  induction name using hchains.induction generalizing t head with
  | _ name ih =>
      subst hname
      obtain ⟨types, htypes, hheads⟩ := exists_directs_of_head hheaded ht
      refine .of_directs htypes fun s hs => ?_
      rcases hheads s hs with rfl | ⟨above, habove, hdeclares⟩
      · exact confined_top
      · exact ih above.name hdeclares habove rfl

/-! ## Variables -/

/-- Bounds are variables, names and applied types. -/
theorem head_of_bound (hformed : context.heap.Formed)
    (harrays : ∀ cell component, .array component ∉ context.heap.boundsAt cell) {cell : CellId}
    {bound : Ty} (h : bound ∈ context.heap.boundsAt cell) :
    (∃ next, bound = .var next) ∨ ∃ head, bound.head? = some head := by
  cases bound with
  | named head => exact .inr ⟨head, rfl⟩
  | applied owner raw args => exact .inr ⟨raw, rfl⟩
  | array component => exact absurd h (harrays cell component)
  | var next => exact .inl ⟨next, rfl⟩
  | wildcard => cases ((hformed cell).reference _ h).2

/-- Variables are confined if their bounds are no arrays, also where they bound each other. -/
theorem confined_var (hheaded : context.env.Headed)
    (hchains : WellFounded fun above below => context.env.Declares below above)
    (hformed : context.heap.Formed)
    (harrays : ∀ cell component, .array component ∉ context.heap.boundsAt cell)
    (param : TypeVar) : context.Confined (.var param) := by
  -- all bounds that are no variables, and what lies above them
  have hconfined : ∀ s ∈ .top :: context.heap.boundTypes.filter (fun t => t.head?.isSome),
      context.Confined s := by
    intro s hs
    rcases List.mem_cons.1 hs with rfl | hs
    · exact confined_top
    · obtain ⟨head, hhead⟩ := Option.isSome_iff_exists.1 (List.mem_filter.1 hs).2
      exact confined_of_head hheaded hchains hhead
  obtain ⟨pool, hpool, hmem⟩ := exists_closedPool hconfined
  rw [List.cons_subset] at hmem
  refine ⟨.var param :: context.heap.boundTypes ++ pool, fun s hs => ?_, List.mem_cons_self⟩
  have hvar (other : TypeVar) : ∃ types, context.Directs (.var other) types ∧
      types ⊆ .var param :: context.heap.boundTypes ++ pool := by
    refine ⟨_, directs_var.2 rfl, fun bound hbound => ?_⟩
    rcases Heap.eq_top_or_mem_boundTypes (Ty.mem_of_mem_distinct hbound) with rfl | hbound
    · exact List.mem_append_right _ hmem.1
    · exact List.mem_append_left _ (List.mem_cons_of_mem _ hbound)
  have hbelow {s : Ty} (hs : s ∈ pool) : ∃ types, context.Directs s types ∧
      types ⊆ .var param :: context.heap.boundTypes ++ pool := by
    obtain ⟨types, htypes, hsub⟩ := hpool s hs
    exact ⟨types, htypes, fun u hu => List.mem_append_right _ (hsub hu)⟩
  rcases List.mem_append.1 hs with hs | hs
  · rcases List.mem_cons.1 hs with rfl | hs
    · exact hvar param
    · obtain ⟨cell, hcell⟩ := Heap.exists_cell_of_mem_boundTypes hs
      rcases head_of_bound hformed harrays hcell with ⟨next, rfl⟩ | ⟨head, hhead⟩
      · exact hvar next
      · exact hbelow (hmem.2 (List.mem_filter.2 ⟨hs, by rw [hhead]; rfl⟩))
  · exact hbelow hs

/-! ## All types -/

/-- Where chains of declared names end and no bound is an array, every type is confined. -/
theorem confined_of_chains (hheaded : context.env.Headed)
    (hchains : WellFounded fun above below => context.env.Declares below above)
    (hformed : context.heap.Formed)
    (harrays : ∀ cell component, .array component ∉ context.heap.boundsAt cell)
    (t : Ty) : context.Confined t := by
  induction t using Ty.parts_induction with
  | step t ih =>
      cases t with
      | named head => exact confined_of_head hheaded hchains rfl
      | applied owner raw args => exact confined_of_head hheaded hchains rfl
      | array component =>
          refine (ih component (List.mem_singleton.2 rfl)).array fun s hs => ?_
          rcases exists_of_mem_arraySupertypes hs with rfl | rfl | rfl <;>
            exact confined_of_head hheaded hchains rfl
      | var param => exact confined_var hheaded hchains hformed harrays param
      | wildcard upper lower => exact (ih upper List.mem_cons_self).wildcard lower

/-- Where declared supertypes are names or applied types, chains of declared names end and no bound
is an array, the search for the closure ends for every type: the queue drains, and on every trail
the closure is given once enough steps are allowed. -/
theorem closure_ends (hheaded : context.env.Headed)
    (hchains : WellFounded fun above below => context.env.Declares below above)
    (hformed : context.heap.Formed)
    (harrays : ∀ cell component, .array component ∉ context.heap.boundsAt cell) (t : Ty) :
    ∃ members enough, context.Drains [] [t] members ∧ context.ClosureOf t members ∧
      ∀ fuel trail, enough ≤ fuel →
        ∃ after, context.closure fuel t trail = some (members, after) := by
  have hconfined := confined_of_chains hheaded hchains hformed harrays t
  obtain ⟨enough, members, hanswer⟩ := hconfined.finiteClosure
  refine ⟨members, enough, drains_iff.2 ⟨enough, hanswer⟩, closure_closureOf hanswer,
    fun fuel trail hfuel => ?_⟩
  obtain ⟨after, hrun, _⟩ := (closure_oblivious enough t).run_eq hanswer trail
  exact ⟨after, closure_mono t hfuel _ _ hrun⟩

/-! ## Growing arguments -/

/-- A box with one parameter. -/
def crate : ClassName := ⟨⟨"Crate", .classType, 1⟩, rfl⟩

/-- What crates are, with one parameter. -/
def depot : ClassName := ⟨⟨"Depot", .interfaceType, 1⟩, rfl⟩

/-- A crate of something is a depot of crates of crates of it. Two variables bound each other, and
one is bounded by a crate of itself. -/
def growing : Context where
  env := {
    find? := fun name =>
      if name = "Crate" then
        some ⟨crate, [item "Crate" 0], none, [.applied none depot
          [.applied none crate [.applied none crate [.var (item "Crate" 0)]]]]⟩
      else if name = "Depot" then some ⟨depot, [item "Depot" 1], none, []⟩
      else none
    cloneable := .cloneable
    serializable := .serializable }
  heap := ⟨#[.unbound, .unbound,
    .bound [.var ⟨"U", "m", .back 3⟩], .bound [.var ⟨"T", "m", .owning 2⟩],
    .bound [.applied none crate [.var ⟨"S", "m", .back 4⟩]]], [3, 4]⟩
  memoize := true

/-- What is declared of crates and depots. -/
theorem growing_cases {name : String} {declaration : Declaration}
    (h : growing.env.find? name = some declaration) {s : Ty} (hs : s ∈ declaration.supertypes) :
    name = "Crate" ∧ s.head? = some depot := by
  change (if name = "Crate" then _ else if name = "Depot" then _ else _) = _ at h
  split at h
  · cases h
    cases List.mem_singleton.1 hs
    exact ⟨by assumption, rfl⟩
  · split at h
    · cases h
      cases hs
    · cases h

/-- Depots do not lead back to crates. -/
theorem growing_chains : WellFounded fun above below => growing.env.Declares below above := by
  refine Subrelation.wf ?_
    (InvImage.wf (fun name => if name = "Crate" then 1 else 0) Nat.lt_wfRel.wf)
  rintro above below ⟨declaration, hfound, s, hs, hname⟩
  obtain ⟨rfl, hhead⟩ := growing_cases hfound hs
  cases Option.some.inj ((Ty.shape_of_head hhead).2.2.symm.trans hname)
  exact Nat.zero_lt_one

/-- Each variable has one bound, and that is no array. -/
theorem growing_bounds (cell : CellId) :
    ∃ bound, growing.heap.boundsAt cell = [bound] ∧ bound.isPrimitive = false ∧
      bound.isWildcard = false ∧ ∀ component, bound ≠ .array component := by
  match cell with
  | 0 | 1 | 2 | 3 | 4 | _ + 5 => exact ⟨_, rfl, rfl, rfl, nofun⟩

/-- The bounds in the heap have been checked. -/
theorem growing_formed : growing.heap.Formed := by
  intro cell
  obtain ⟨bound, hbounds, hprimitive, hwild, _⟩ := growing_bounds cell
  rw [hbounds]
  refine ⟨List.forall_mem_singleton.2 ⟨hprimitive, hwild⟩, fun other hother _ => ?_⟩
  rw [List.mem_singleton.1 hother]

/-- No bound in the heap is an array. -/
theorem growing_arrays (cell : CellId) (component : Ty) :
    .array component ∉ growing.heap.boundsAt cell := by
  obtain ⟨bound, hbounds, _, _, hbound⟩ := growing_bounds cell
  rw [hbounds, List.mem_singleton]
  exact fun heq => hbound component heq.symm

/-- Declared supertypes are depots. -/
theorem growing_headed : growing.env.Headed :=
  fun hfound _ hs => ⟨depot, (growing_cases hfound hs).2, trivial⟩

/-- The search ends for arrays of a variable that is bounded by a crate of itself, although the
arguments of a crate grow on the way up. -/
theorem growing_arrays_end :
    ∃ members enough,
      growing.Drains [] [.array (.array (.var ⟨"S", "m", .owning 4⟩))] members ∧
      growing.ClosureOf (.array (.array (.var ⟨"S", "m", .owning 4⟩))) members ∧
      ∀ fuel trail, enough ≤ fuel → ∃ after,
        growing.closure fuel (.array (.array (.var ⟨"S", "m", .owning 4⟩))) trail =
          some (members, after) :=
  closure_ends growing_headed growing_chains growing_formed growing_arrays _

end Context

end Nominal
