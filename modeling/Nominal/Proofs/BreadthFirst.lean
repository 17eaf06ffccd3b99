import Nominal.Proofs.Termination

/-!
# The order of supertypes

The search for the closure keeps one list and a position in it. `Drains` is the same search with a
queue: a type is followed when it leaves the queue, unless an equal one was visited, and queued
types may repeat. Both list the same types in the same order (`drains_iff`). The invariant of the
search is `Explored`; a finished list solves an equation in which every member is followed by its
direct supertypes in turn, and stands in the order of the number of steps that lead to it.
-/

namespace Nominal

namespace Ty

/-! ## Adding what is new -/

/-- Types that are added in two portions are added one after the other. -/
theorem addNew_append (kept first second : List Ty) :
    addNew kept (first ++ second) = addNew (addNew kept first) second :=
  List.foldl_append

/-- A type that is contained stays so when types are added. -/
theorem contains_addNew_of_contains {kept : List Ty} {s : Ty} (types : List Ty)
    (h : kept.contains s = true) : (addNew kept types).contains s = true := by
  obtain ⟨member, hmember, heq⟩ := List.contains_iff_exists_mem_beq.1 h
  exact List.contains_iff_exists_mem_beq.2
    ⟨member, (prefix_addNew kept types).subset hmember, heq⟩

/-- Types that are contained already need not be added. -/
theorem addNew_filter {known kept : List Ty} (types : List Ty)
    (h : ∀ s, known.contains s = true → kept.contains s = true) :
    addNew kept (types.filter fun s => !known.contains s) = addNew kept types := by
  induction types generalizing kept with
  | nil => rfl
  | cons t rest ih =>
      have hstep : ∀ s, known.contains s = true →
          (if kept.contains t then kept else kept ++ [t]).contains s = true :=
        fun s hs => contains_addNew_of_contains [t] (h s hs)
      rw [List.filter_cons, addNew_cons, ← ih hstep]
      cases hknown : known.contains t with
      | true => simp only [Bool.not_true, Bool.false_eq_true, if_false, h t hknown, if_true]
      | false => rfl

/-- Adding what is new keeps the members of a list unequal. -/
theorem pairwise_addNew {kept : List Ty} (types : List Ty)
    (h : kept.Pairwise fun s t => (s == t) = false) :
    (addNew kept types).Pairwise fun s t => (s == t) = false := by
  induction types generalizing kept with
  | nil => exact h
  | cons t rest ih =>
      rw [addNew_cons]
      apply ih
      split
      · exact h
      · rename_i hnew
        refine List.pairwise_append.2 ⟨h, List.pairwise_singleton _ _, fun s hs u hu => ?_⟩
        cases List.mem_singleton.1 hu
        exact Bool.eq_false_iff.2 fun heq =>
          hnew (List.contains_iff_exists_mem_beq.2 ⟨s, hs, BEq.symm heq⟩)

/-- What stands behind the types that were there is one of those added. -/
theorem mem_of_getElem?_addNew {kept types : List Ty} {index : Nat} {s : Ty}
    (hindex : kept.length ≤ index) (h : (addNew kept types)[index]? = some s) : s ∈ types := by
  induction types generalizing kept with
  | nil => cases (List.getElem?_eq_none hindex).symm.trans h
  | cons t rest ih =>
      rw [addNew_cons] at h
      split at h
      · exact List.mem_cons_of_mem t (ih hindex h)
      · rcases Nat.eq_or_lt_of_le hindex with rfl | hlater
        · -- the first new type stands right behind the old ones
          have hplace := List.prefix_iff_getElem?.1 (prefix_addNew (kept ++ [t]) rest) kept.length
            (by simp)
          rw [h, List.getElem_concat_length rfl] at hplace
          exact Option.some.inj hplace ▸ List.mem_cons_self
        · exact List.mem_cons_of_mem t (ih (by rw [List.length_append]; exact hlater) h)

end Ty

namespace Context

variable {context : Context}

/-! ## One step of the search -/

/-- The search ends behind the last type. -/
theorem closure_from_done {found : TypeSet} {position : Nat}
    (h : found.members[position]? = none) :
    (context.closureFrom 1 found position).answer = some found := by
  rw [members_getElem?, Option.map_eq_none_iff] at h
  rw [closureFrom, h]
  rfl

/-- The search ends if it ends behind the type at its position. -/
theorem closure_from_next {found result : TypeSet} {position fuel : Nat} {t : Ty}
    {types : List Ty} (ht : found.members[position]? = some t)
    (htypes : context.Directs t types)
    (h : (context.closureFrom fuel (found.insertAll types) (position + 1)).answer = some result) :
    ∃ enough, (context.closureFrom enough found position).answer = some result := by
  obtain ⟨enough, henough⟩ := htypes.eventually
  have hmore : (context.closureFrom (max fuel enough) (found.insertAll types)
      (position + 1)).answer = some result :=
    (Query.AnsweredBy.of_succ (fun fuel => closure_from_succ fuel _ _)
      (Nat.le_max_left fuel enough)).answer_eq h
  refine ⟨max fuel enough + 1, ?_⟩
  rw [members_getElem?] at ht
  obtain ⟨⟨t', value⟩, hentry, rfl⟩ := Option.map_eq_some_iff.1 ht
  rw [closureFrom, hentry]
  show (context.directSupertypes _ t' >>= _).answer = some result
  rw [(direct_oblivious _ t').answer_bind fun _ => closure_from_oblivious _ _ _,
    henough _ (Nat.le_max_right fuel enough)]
  exact hmore

/-! ## The search with a queue -/

variable (context) in
/-- The search with a queue ends with a list. -/
inductive Drains : List Ty → List Ty → List Ty → Prop where
  /-- Nothing is left to follow. -/
  | done {visited : List Ty} : Drains visited [] visited
  /-- A type that was visited is passed over. -/
  | skip {visited queue members : List Ty} {current : Ty} :
      visited.contains current = true → Drains visited queue members →
      Drains visited (current :: queue) members
  /-- Another one is visited, and those of its direct supertypes that were not are queued. -/
  | visit {visited queue types members : List Ty} {current : Ty} :
      visited.contains current = false → context.Directs current types →
      Drains (visited ++ [current])
        (queue ++ types.filter fun s => !(visited ++ [current]).contains s) members →
      Drains visited (current :: queue) members

/-- The list after a visit is the list before it with the direct supertypes added. -/
theorem members_visit {visited queue : List Ty} {found : TypeSet} {current : Ty}
    (hfound : found.members = Ty.addNew (visited ++ [current]) queue) (types : List Ty) :
    (found.insertAll types).members = Ty.addNew (visited ++ [current])
      (queue ++ types.filter fun s => !(visited ++ [current]).contains s) := by
  rw [members_insertAll_eq, hfound, Ty.addNew_append]
  exact (Ty.addNew_filter types fun _ => Ty.contains_addNew_of_contains queue).symm

/-- A type that is visited stands at the position of the search. -/
theorem getElem?_visit {visited queue members : List Ty} {current : Ty}
    (h : members = Ty.addNew (visited ++ [current]) queue) :
    members[visited.length]? = some current := by
  have hplace := List.prefix_iff_getElem?.1 (Ty.prefix_addNew (visited ++ [current]) queue)
    visited.length (by simp)
  rw [h, hplace, List.getElem_concat_length rfl]

/-- A search that ends with a queue ends at a position too. What was visited and then what is new
in the queue is the list, and the position is behind what was visited. -/
theorem Drains.closureFrom {visited queue members : List Ty}
    (h : context.Drains visited queue members) {found : TypeSet}
    (hfound : found.members = Ty.addNew visited queue) :
    ∃ fuel result, (context.closureFrom fuel found visited.length).answer = some result ∧
      result.members = members := by
  induction h generalizing found with
  | @done visited =>
      exact ⟨1, found, closure_from_done (hfound ▸ List.getElem?_length visited), hfound⟩
  | skip hvisited _ ih =>
      rw [Ty.addNew_cons, if_pos hvisited] at hfound
      exact ih hfound
  | @visit visited queue types members current hnew htypes _ ih =>
      rw [Ty.addNew_cons, if_neg (Bool.eq_false_iff.1 hnew)] at hfound
      obtain ⟨fuel, result, hresult, hmembers⟩ := ih (members_visit hfound types)
      rw [List.length_append] at hresult
      obtain ⟨enough, hanswer⟩ := closure_from_next (getElem?_visit hfound) htypes hresult
      exact ⟨enough, result, hanswer, hmembers⟩

/-- A search that ends at a position ends with a queue too. -/
theorem drains_of_closureFrom {fuel : Nat} {visited queue : List Ty} {found result : TypeSet}
    (h : (context.closureFrom fuel found visited.length).answer = some result)
    (hfound : found.members = Ty.addNew visited queue) :
    context.Drains visited queue result.members := by
  induction fuel generalizing found visited queue with
  | zero => cases h
  | succ fuel ih =>
      -- types that are passed over take no step, so there is an induction along the queue inside
      induction queue with
      | nil =>
          have hend : found.members[visited.length]? = none := hfound ▸ List.getElem?_length visited
          rcases closure_from_step h with ⟨_, rfl⟩ | ⟨t, _, ht, _⟩
          · exact hfound ▸ .done
          · cases hend.symm.trans ht
      | cons current queue skipped =>
          cases hvisited : visited.contains current with
          | true =>
              rw [Ty.addNew_cons, if_pos hvisited] at hfound
              exact .skip hvisited (skipped hfound)
          | false =>
              rw [Ty.addNew_cons, if_neg (Bool.eq_false_iff.1 hvisited)] at hfound
              have hplace := getElem?_visit hfound
              rcases closure_from_step h with ⟨hend, _⟩ | ⟨t, types, ht, htypes, hrest⟩
              · cases hend.symm.trans hplace
              · cases Option.some.inj (ht.symm.trans hplace)
                refine .visit hvisited htypes (ih ?_ (members_visit hfound types))
                rw [List.length_append]
                exact hrest

/-- The two searches end together and list the same types in the same order. -/
theorem drains_iff {t : Ty} {members : List Ty} :
    context.Drains [] [t] members ↔ ∃ fuel, (context.closure fuel t).answer = some members := by
  have hstart : (TypeSet.insert .empty t).members = Ty.addNew [] [t] :=
    TypeSet.members_insert .empty t
  have hanswer (fuel : Nat) : (context.closure fuel t).answer =
      (context.closureFrom fuel (TypeSet.insert .empty t) 0).answer.map TypeSet.members :=
    (closure_from_oblivious fuel _ 0).answer_map _
  constructor
  · intro h
    obtain ⟨fuel, result, hresult, rfl⟩ := h.closureFrom hstart
    exact ⟨fuel, by rw [hanswer, show (0 : Nat) = ([] : List Ty).length from rfl, hresult]; rfl⟩
  · rintro ⟨fuel, h⟩
    rw [hanswer] at h
    obtain ⟨result, hresult, rfl⟩ := Option.map_eq_some_iff.1 h
    exact drains_of_closureFrom hresult hstart

/-! ## What the search has listed -/

variable (context) in
/-- The types before the position have been followed. Besides the first type, each type in the list
is a direct supertype of a parent before it, and what the types before the parent lead to is listed
before the type. -/
structure Explored (t : Ty) (members : List Ty) (position : Nat) : Prop where
  listed : ∃ lists, List.Forall₂ context.Directs (members.take position) lists ∧
    members = Ty.distinct (t :: lists.flatten)
  parent : ∀ {index s}, 0 < index → members[index]? = some s →
    ∃ parent u, parent < index ∧ members[parent]? = some u ∧ context.Direct u s ∧
      ∀ {earlier v r}, earlier < parent → members[earlier]? = some v → context.Direct v r →
        (members.take index).contains r = true

namespace Explored

variable {t : Ty} {members : List Ty} {position : Nat}

/-- At first only the type itself is listed. -/
theorem start (t : Ty) : context.Explored t [t] 0 where
  listed := ⟨[], .nil, rfl⟩
  parent hindex hs := by
    rw [List.getElem?_eq_none (show [t].length ≤ _ from hindex)] at hs
    cases hs

/-- The type that the search starts from comes first. -/
theorem first (h : context.Explored t members position) : members[0]? = some t := by
  obtain ⟨lists, _, hmembers⟩ := h.listed
  obtain ⟨rest, hrest⟩ := Ty.prefix_addNew [t] lists.flatten
  rw [hmembers, Ty.distinct_eq_addNew, Ty.addNew_cons]
  exact hrest ▸ rfl

/-- No two types in the list are equal. -/
theorem pairwise (h : context.Explored t members position) :
    members.Pairwise fun s u => (s == u) = false := by
  obtain ⟨lists, _, hmembers⟩ := h.listed
  exact hmembers ▸ Ty.pairwise_addNew _ .nil

/-- A type stands only at one place in the list. -/
theorem index_eq (h : context.Explored t members position) {index index' : Nat} {s s' : Ty}
    (hs : members[index]? = some s) (hs' : members[index']? = some s') (heq : (s == s') = true) :
    index = index' := by
  obtain ⟨hlt, rfl⟩ := List.getElem?_eq_some_iff.1 hs
  obtain ⟨hlt', rfl⟩ := List.getElem?_eq_some_iff.1 hs'
  have hpairwise := List.pairwise_iff_getElem.1 h.pairwise
  rcases Nat.lt_trichotomy index index' with hbefore | rfl | hafter
  · cases (hpairwise index index' hlt hlt' hbefore).symm.trans heq
  · rfl
  · cases (hpairwise index' index hlt' hlt hafter).symm.trans (BEq.symm heq)

/-- What the types before the position lead to is in the list. -/
theorem followed (h : context.Explored t members position) {index : Nat} {s : Ty}
    (hindex : index < position) (hs : members[index]? = some s) : context.Followed members s := by
  obtain ⟨lists, hlists, hmembers⟩ := h.listed
  have hmem : s ∈ members.take position :=
    List.mem_of_getElem? (i := index) (by rw [List.getElem?_take_of_lt hindex, hs])
  obtain ⟨types, htypes, hdirects⟩ := hlists.exists_mem hmem
  refine ⟨types, hdirects, fun r hr => ?_⟩
  rw [hmembers]
  exact Ty.contains_addNew (List.mem_cons_of_mem t (List.mem_flatten_of_mem htypes hr))

/-- What the types before the position lead to is in the list, as a fact about one step. -/
theorem contains_of_direct (h : context.Explored t members position) {index : Nat} {s r : Ty}
    (hindex : index < position) (hs : members[index]? = some s) (hr : context.Direct s r) :
    members.contains r = true := by
  obtain ⟨types, hdirects, hcontains⟩ := h.followed hindex hs
  obtain ⟨types', hdirects', hmem⟩ := hr
  exact hcontains r (hdirects'.unique hdirects ▸ hmem)

/-- Following the type at the position moves the position on. -/
theorem step (h : context.Explored t members position) {s : Ty} {types : List Ty}
    (hs : members[position]? = some s) (htypes : context.Directs s types) :
    context.Explored t (Ty.addNew members types) (position + 1) := by
  have hlt : position < members.length := (List.getElem?_eq_some_iff.1 hs).1
  obtain ⟨added, hadded⟩ := Ty.prefix_addNew members types
  have hplace {index : Nat} (hindex : index < members.length) :
      (Ty.addNew members types)[index]? = members[index]? := by
    rw [← hadded, List.getElem?_append_left hindex]
  have htake {count : Nat} (hcount : count ≤ members.length) :
      (Ty.addNew members types).take count = members.take count := by
    rw [← hadded, List.take_append_of_le_length hcount]
  constructor
  case listed =>
      obtain ⟨lists, hlists, hmembers⟩ := h.listed
      refine ⟨lists ++ [types], ?_, ?_⟩
      · rw [List.take_add_one, htake (Nat.le_of_lt hlt), hplace hlt, hs]
        exact List.rel_append hlists (.cons htypes .nil)
      · rw [List.flatten_append, List.flatten_singleton, ← List.cons_append,
          Ty.distinct_eq_addNew, Ty.addNew_append, ← Ty.distinct_eq_addNew, ← hmembers]
  case parent =>
      intro index r hindex hr
      rcases Nat.lt_or_ge index members.length with hold | hnew
      · -- a type that was listed keeps its parent
        rw [hplace hold] at hr
        obtain ⟨parent, u, hparent, hu, hdirect, hearlier⟩ := h.parent hindex hr
        refine ⟨parent, u, hparent, ?_, hdirect, fun hlt' hv hr' => ?_⟩
        · rw [hplace (by omega), hu]
        · rw [hplace (by omega)] at hv
          rw [htake (by omega)]
          exact hearlier hlt' hv hr'
      · -- a new one has the type at the position as its parent, and all before that was followed
        refine ⟨position, s, by omega, by rw [hplace hlt, hs],
          ⟨types, htypes, Ty.mem_of_getElem?_addNew hnew hr⟩, fun hlt' hv hr' => ?_⟩
        rw [hplace (by omega)] at hv
        obtain ⟨member, hmember, heq⟩ :=
          List.contains_iff_exists_mem_beq.1 (h.contains_of_direct hlt' hv hr')
        refine List.contains_iff_exists_mem_beq.2 ⟨member, ?_, heq⟩
        rw [← hadded, List.take_append]
        exact List.mem_append_left _ (by rwa [List.take_of_length_le hnew])

/-- What the search ends with has been explored to its end. -/
theorem run {fuel : Nat} {found result : TypeSet}
    (h : context.Explored t found.members position)
    (hanswer : (context.closureFrom fuel found position).answer = some result) :
    context.Explored t result.members result.members.length := by
  induction fuel generalizing found position with
  | zero => cases hanswer
  | succ fuel ih =>
      rcases closure_from_step hanswer with ⟨hend, rfl⟩ | ⟨s, types, hs, htypes, hrest⟩
      · refine ⟨?_, h.parent⟩
        obtain ⟨lists, hlists, hmembers⟩ := h.listed
        rw [List.take_of_length_le (List.getElem?_eq_none_iff.1 hend)] at hlists
        exact ⟨lists, by rwa [List.take_length], hmembers⟩
      · refine ih ?_ hrest
        rw [members_insertAll_eq]
        exact h.step hs htypes

end Explored

/-- A closure has been explored to its end. -/
theorem explored_closure {fuel : Nat} {t : Ty} {members : List Ty}
    (h : (context.closure fuel t).answer = some members) :
    context.Explored t members members.length := by
  rw [closure, (closure_from_oblivious fuel _ 0).answer_map] at h
  obtain ⟨result, hresult, rfl⟩ := Option.map_eq_some_iff.1 h
  have hstart : (TypeSet.insert .empty t).members = [t] := TypeSet.members_insert .empty t
  have hexplored : context.Explored t (TypeSet.insert .empty t).members 0 :=
    hstart ▸ Explored.start t
  exact hexplored.run hresult

/-! ## Breadth-first order -/

variable (context) in
/-- A number of steps leads from a type to a member of a list, each step from one member to the
member that is equal to a direct supertype of it. -/
inductive ReachedIn (members : List Ty) (t : Ty) : Nat → Ty → Prop where
  /-- No step leads to the type itself. -/
  | start : ReachedIn members t 0 t
  /-- One step more leads to what a member lies below. -/
  | step {count : Nat} {s r u : Ty} : ReachedIn members t count s → context.Direct s r →
      u ∈ members → (r == u) = true → ReachedIn members t (count + 1) u

/-- Steps lead to members. -/
theorem ReachedIn.mem {members : List Ty} {t s : Ty} {count : Nat}
    (h : context.ReachedIn members t count s) (ht : t ∈ members) : s ∈ members := by
  cases h with
  | start => exact ht
  | step _ _ hmem _ => exact hmem

/-- What stands earlier in a list that was explored is reached in no more steps. -/
theorem Explored.ordered {t : Ty} {members : List Ty} {position : Nat}
    (h : context.Explored t members position) {count index index' : Nat} {s s' : Ty}
    (hle : index ≤ index') (hs : members[index]? = some s) (hs' : members[index']? = some s')
    (hsteps : context.ReachedIn members t count s') :
    ∃ fewer, fewer ≤ count ∧ context.ReachedIn members t fewer s := by
  induction hsteps generalizing index index' s with
  | start =>
      have hzero : index' = 0 := h.index_eq hs' h.first BEq.rfl
      have hindex : index = 0 := by omega
      cases Option.some.inj (h.first.symm.trans (hindex ▸ hs))
      exact ⟨0, Nat.le_refl 0, .start⟩
  | @step count v r u hbefore hdirect hmem heq ih =>
      rcases Nat.eq_zero_or_pos index with rfl | hpos
      · cases Option.some.inj (h.first.symm.trans hs)
        exact ⟨0, Nat.zero_le _, .start⟩
      · obtain ⟨parent, w, hparent, hw, hdirect', hearlier⟩ := h.parent hpos hs
        obtain ⟨place, hplace⟩ := List.mem_iff_getElem?.1
          (hbefore.mem (List.mem_of_getElem? h.first))
        -- were the last step taken before the parent, it would lead to something before the index
        have hle' : parent ≤ place := by
          by_contra hlt
          obtain ⟨member, hmember, hequal⟩ := List.contains_iff_exists_mem_beq.1
            (hearlier (Nat.lt_of_not_le hlt) hplace hdirect)
          obtain ⟨other, hother⟩ := List.mem_iff_getElem?.1 hmember
          rw [List.getElem?_take] at hother
          split at hother
          · have hsame := h.index_eq hother hs' (BEq.trans (BEq.symm hequal) heq)
            omega
          · cases hother
        obtain ⟨fewer, hfewer, hreached⟩ := ih hle' hw hplace
        exact ⟨fewer + 1, by omega, hreached.step hdirect' (List.mem_of_getElem? hs) BEq.rfl⟩

variable (context) in
/-- A list has the supertypes of a type in breadth-first order. -/
structure BreadthFirst (t : Ty) (members : List Ty) : Prop where
  /-- The members stand in the order in which they leave the queue. -/
  queued : context.Drains [] [t] members
  /-- The list is the type and the direct supertypes of the members in turn, without repetitions. -/
  listed : ∃ lists, List.Forall₂ context.Directs members lists ∧
    members = Ty.distinct (t :: lists.flatten)
  first : members.head? = some t
  unequal : members.Pairwise fun s u => (s == u) = false
  closed : ∀ s ∈ members, context.Followed members s
  parent : ∀ {index s}, 0 < index → members[index]? = some s →
    ∃ earlier u, earlier < index ∧ members[earlier]? = some u ∧ context.Direct u s
  /-- What stands earlier is reached in no more steps. -/
  ordered : ∀ {count index index' : Nat} {s s'}, index ≤ index' → members[index]? = some s →
    members[index']? = some s' → context.ReachedIn members t count s' →
    ∃ fewer, fewer ≤ count ∧ context.ReachedIn members t fewer s

/-- Closures are in breadth-first order. -/
theorem breadthFirst_closure {fuel : Nat} {t : Ty} {members : List Ty}
    (h : (context.closure fuel t).answer = some members) : context.BreadthFirst t members := by
  have hexplored := explored_closure h
  constructor
  case queued => exact drains_iff.2 ⟨fuel, h⟩
  case listed =>
      obtain ⟨lists, hlists, hmembers⟩ := hexplored.listed
      exact ⟨lists, by rwa [List.take_length] at hlists, hmembers⟩
  case first => rw [List.head?_eq_getElem?, hexplored.first]
  case unequal => exact hexplored.pairwise
  case closed => exact (closure_closureOf h).followed
  case parent =>
      intro index s hindex hs
      obtain ⟨earlier, u, hearlier, hu, hdirect, _⟩ := hexplored.parent hindex hs
      exact ⟨earlier, u, hearlier, hu, hdirect⟩
  case ordered => exact fun hle hs hs' hsteps => hexplored.ordered hle hs hs' hsteps

variable (context) in
/-- All that is memoized are closures. -/
def Remembers : Memo → Prop :=
  MemoAll fun t members => ∃ fuel, (context.closure fuel t).answer = some members

/-- The supertypes of a type whose search ends are handed out in breadth-first order. They start
from the type itself, or else from the equal type for which they were memoized. -/
theorem supertypes_breadthFirst {t : Ty} (hends : context.FiniteClosure t) {trail : Trail}
    (htrail : context.Remembers trail.memo) :
    ∃ t' members, (t == t') = true ∧
      (context.memoize = false ∨ trail.memo.get? t = none → t' = t) ∧
      context.BreadthFirst t' members ∧
      ∃ enough after, context.Remembers after.memo ∧
        ∀ fuel, enough ≤ fuel → context.supertypes fuel t trail = some (members, after) := by
  obtain ⟨fuel, members, hanswer⟩ := hends
  obtain ⟨t', found, heq, ⟨_, hfound⟩, hself, after, hafter, enough, hrun⟩ :=
    supertypes_answers hanswer ⟨fuel, hanswer⟩ htrail
  exact ⟨t', found, heq, hself, breadthFirst_closure hfound, enough, after, hafter, hrun⟩

/-- A class without type parameters. -/
def plainClass (name : String) : Named := ⟨name, .classType, 0⟩

/-- A hierarchy that runs in a circle and has two ways from its first class to its last. -/
def diamond : Context where
  env := {
    find? := fun name =>
      if name = "D" then some ⟨plainClass "D", [], none, [.named (plainClass "B"),
        .named (plainClass "C")]⟩
      else if name = "B" ∨ name = "C" then
        some ⟨plainClass name, [], some (.named (plainClass "A")), []⟩
      else if name = "A" then some ⟨plainClass "A", [], some (.named (plainClass "D")), []⟩
      else none
    cloneable := .cloneable
    serializable := .serializable }
  heap := ⟨#[], []⟩
  memoize := true

/-- Both ways through the circle are followed, and each class is listed once. -/
theorem diamond_breadthFirst :
    diamond.BreadthFirst (.named (plainClass "D"))
      [.named (plainClass "D"), .named (plainClass "B"), .named (plainClass "C"),
        .named (plainClass "A")] := by
  have hends : diamond.FiniteClosure (.named (plainClass "D")) := ⟨6, _, rfl⟩
  have hempty : diamond.Remembers Trail.empty.memo := memoAll_empty _
  obtain ⟨t, members, _, hsame, hmembers, enough, after, _, hrun⟩ :=
    supertypes_breadthFirst hends hempty
  cases hsame (.inr rfl)
  have hknown : diamond.supertypes 6 (.named (plainClass "D")) .empty = some (
      [.named (plainClass "D"), .named (plainClass "B"), .named (plainClass "C"),
        .named (plainClass "A")], _) := rfl
  have hmore := supertypes_mono _ (Nat.le_max_left 6 enough) _ _ hknown
  rw [hrun _ (Nat.le_max_right 6 enough)] at hmore
  cases hmore
  exact hmembers

end Context

end Nominal
