import Nominal.Proofs.ClosureAcceptance
import Nominal.Proofs.FiniteClosures
import Nominal.Proofs.Unanswered

/-!
# Everything lies below the universal supertype

The universal supertype is put in where a declaration contributes nothing, and above arrays. This
keeps everything connected that leads to declared names: the closure has the universal supertype,
and a covariant comparison with it says yes. In a closure one climbs from a member to one of its
direct supertypes or an equal member in its place, along declared names, which cannot go on for
ever. Nothing is assumed about variables that are equal and differ in their bounds. So the way along
variables is taken in the search itself, where variables of one chain do not stand for each other
(`Linked.exists_mem`).
-/

namespace Nominal

/-- The type is named and no primitive, or applied to arguments, and its name is declared. A name
may also be the universal supertype, which is not applied. -/
def Env.Anchored (env : Env) : Ty → Prop
  | .named head =>
      head.isPrimitive = false ∧ (head.isTop = true ∨ (env.find? head.name).isSome = true)
  | .applied _ raw _ => raw.isTop = false ∧ (env.find? raw.name).isSome = true
  | _ => False

/-- Chains of declared names end, and declared supertypes are anchored. -/
structure Env.Grounded (env : Env) : Prop where
  regular : env.Regular
  chains : WellFounded fun above below => env.Declares below above
  anchored : ∀ {name declaration}, env.find? name = some declaration →
    ∀ s ∈ declaration.supertypes, env.Anchored s

namespace Env

variable {env : Env}

/-- An anchored type has a head, which is declared unless it is the universal supertype. -/
theorem Anchored.exists_head {t : Ty} (h : env.Anchored t) :
    ∃ head, t.head? = some head ∧ t.isPrimitive = false ∧
      (head.isTop = true → t.isTop = true) ∧
      (head.isTop = true ∨ (env.find? head.name).isSome = true) := by
  cases t with
  | named head => exact ⟨head, rfl, h.1, id, h.2⟩
  | applied owner raw args =>
      refine ⟨raw, rfl, rfl, fun htop => ?_, .inr h.2⟩
      rw [h.1] at htop
      cases htop
  | array | var | wildcard => exact h.elim

/-- A type that is equal to an anchored one is anchored, unless it is a primitive. -/
theorem Anchored.congr {s t : Ty} (h : env.Anchored s) (heq : (s == t) = true)
    (hprimitive : t.isPrimitive = false) : env.Anchored t := by
  cases s with
  | named head =>
      obtain ⟨head', rfl, hhead⟩ := Ty.named_beq heq
      have hname := Named.beq_iff.1 hhead
      refine ⟨hprimitive, ?_⟩
      rw [Named.isTop, ← hname]
      exact h.2
  | applied owner raw args =>
      obtain ⟨_, raw', _, rfl, hraw, _⟩ := Ty.applied_beq heq
      have hname := Named.beq_iff.1 hraw
      rw [Anchored, Named.isTop, ← hname]
      exact h
  | array | var | wildcard => exact h.elim

/-- Substitution keeps types anchored. -/
theorem Anchored.substitute {t : Ty} (h : env.Anchored t) (map : Substitution) :
    env.Anchored (t.substitute map) := by
  cases t with
  | named head =>
      rw [Ty.substitute_named]
      exact h
  | applied owner raw args =>
      rw [Ty.substitute]
      split
      · exact h
      · rw [Ty.replace]
        split <;> exact h
  | array | var | wildcard => exact h.elim

/-- A name that is declared above another one is anchored if it is no primitive. -/
theorem Grounded.anchored_named (henv : env.Grounded) {below : String} {above : Named}
    (h : env.Declares below above.name) (hprimitive : above.isPrimitive = false) :
    env.Anchored (.named above) := by
  obtain ⟨declaration, hfound, s, hs, hname⟩ := h
  have hanchored := henv.anchored hfound s hs
  refine ⟨hprimitive, ?_⟩
  cases s with
  | named head =>
      rw [Named.isTop, ← Option.some.inj hname]
      exact hanchored.2
  | applied owner raw args =>
      rw [← Option.some.inj hname]
      exact .inr hanchored.2
  | array | var | wildcard => exact hanchored.elim

end Env

namespace Context

open Query

variable {context : Context}

/-! ## One step up -/

/-- Direct supertypes of anchored types are anchored. -/
theorem direct_anchored (henv : context.env.Grounded) {t s : Ty} (ht : context.env.Anchored t)
    (h : context.Direct t s) : context.env.Anchored s := by
  cases t with
  | named head =>
      rcases direct_named henv.regular h with
        ⟨declaration, hfound, _, hs⟩ | ⟨above, rfl, hprimitive⟩
      · exact henv.anchored hfound s hs
      · obtain ⟨types, htypes, hmem⟩ := h
        obtain ⟨others, hothers, hdeclared⟩ : ∃ others, context.Directs (.named head) others ∧ _ :=
          exists_directs_of_head (Env.Regular.headed henv.regular) rfl
        rcases hdeclared _ (htypes.unique hothers ▸ hmem) with htop | ⟨_, habove, hdeclares⟩
        · cases htop
          exact ⟨rfl, .inl rfl⟩
        · cases Option.some.inj habove
          exact henv.anchored_named hdeclares hprimitive
  | applied owner raw args =>
      obtain ⟨declaration, hfound, ⟨u, hu, rfl⟩ | ⟨_, _, rfl⟩⟩ := direct_applied_cases h
      · exact (henv.anchored hfound u hu).substitute _
      · exact ⟨rfl, .inl rfl⟩
  | array | var | wildcard => exact ht.elim

/-- An anchored type other than the universal supertype has a direct supertype: the universal
supertype, or one whose name is declared above its own. -/
theorem exists_direct_anchored (henv : context.env.Grounded) {t : Ty} {head : Named}
    (ht : context.env.Anchored t) (hhead : t.head? = some head) (htop : t.isTop = false) :
    ∃ s, context.Direct t s ∧ (s = .top ∨
      ∃ above, s.head? = some above ∧ context.env.Declares head.name above.name) := by
  obtain ⟨types, htypes, hdeclared⟩ :=
    exists_directs_of_head (Env.Regular.headed henv.regular) hhead
  obtain ⟨s, hs⟩ : ∃ s, s ∈ types := by
    obtain ⟨other, hother, hprimitive, hnotTop, hknown⟩ := ht.exists_head
    cases Option.some.inj (hhead.symm.trans hother)
    have hheadTop : head.isTop = false := Bool.eq_false_iff.2 fun h =>
      Bool.eq_false_iff.1 htop (hnotTop h)
    rw [hheadTop, Bool.false_eq_true, false_or] at hknown
    rcases directs_declared henv.regular hhead htypes with
      ⟨_, h | h | h⟩ | ⟨declaration, list, _, _, rfl⟩
    · rw [hheadTop] at h
      cases h
    · rw [hprimitive] at h
      cases h
    · rw [h] at hknown
      cases hknown
    · -- the universal supertype stands in where nothing is declared
      rw [hheadTop, if_neg Bool.false_ne_true, orTop]
      split
      · exact ⟨.top, List.mem_singleton.2 rfl⟩
      · rename_i hempty
        exact List.exists_mem_of_ne_nil _ fun h => hempty (List.isEmpty_iff.2 h)
  exact ⟨s, ⟨types, htypes, hs⟩, hdeclared s hs⟩

/-- The universal supertype is a direct supertype of everything that has a primitive above it: only
the interfaces of arrays can be primitives. -/
theorem direct_top_of_primitive (hregular : context.env.Regular) (hformed : context.heap.Formed)
    {t s : Ty} (h : context.Direct t s) (hprimitive : s.isPrimitive = true) :
    context.Direct t .top := by
  have hhead {t : Ty} {head : Named} (ht : t.head? = some head) (h : context.Direct t s) :
      False := by
    obtain ⟨above, habove, hnot⟩ := direct_head hregular ht h
    rw [(Ty.headed_of_head habove hnot).2] at hprimitive
    cases hprimitive
  induction t using Ty.parts_induction with
  | step t ih =>
      cases t with
      | named head => exact (hhead rfl h).elim
      | applied owner raw args => exact (hhead rfl h).elim
      | array component =>
          exact direct_array hregular component ((Ty.prefix_addNew [.top] _).subset
            (List.mem_singleton.2 rfl))
      | var param =>
          obtain ⟨types, htypes, hs⟩ := h
          cases directs_var.1 htypes
          have hnot := ((hformed param.cell).reference s (Ty.mem_of_mem_distinct hs)).1
          rw [hnot] at hprimitive
          cases hprimitive
      | wildcard upper lower => exact ih upper List.mem_cons_self h

/-! ## Closures have the universal supertype -/

/-- The direct supertypes of the members of a closure are among its members, up to equality. -/
theorem ClosureOf.contains_of_direct {t member s : Ty} {members : List Ty}
    (h : context.ClosureOf t members) (hmember : member ∈ members)
    (hdirect : context.Direct member s) : members.contains s = true := by
  obtain ⟨types, htypes, hcontains⟩ := h.followed member hmember
  obtain ⟨others, hothers, hs⟩ := hdirect
  exact hcontains s (hothers.unique htypes ▸ hs)

section Closure

variable {t : Ty} {members : List Ty} {fuel : Nat}

/-- A closure that has a primitive has the universal supertype, if it does not start with a
primitive. -/
theorem contains_top_of_primitive (hregular : context.env.Regular)
    (hformed : context.heap.Formed) (ht : t.isPrimitive = false)
    (h : (context.closure fuel t).answer = some members) {member : Ty} (hmember : member ∈ members)
    (hprimitive : member.isPrimitive = true) : members.contains .top = true := by
  obtain ⟨index, hindex⟩ := List.mem_iff_getElem?.1 hmember
  have hlist := breadthFirst_closure h
  have hfirst := hlist.first
  rw [List.head?_eq_getElem?] at hfirst
  rcases Nat.eq_zero_or_pos index with rfl | hpositive
  · cases Option.some.inj (hfirst.symm.trans hindex)
    rw [ht] at hprimitive
    cases hprimitive
  · obtain ⟨earlier, parent, _, hparent, hdirect⟩ := hlist.parent hpositive hindex
    exact (closure_closureOf h).contains_of_direct (List.mem_of_getElem? hparent)
      (direct_top_of_primitive hregular hformed hdirect hprimitive)

/-- A closure that has an anchored type has the universal supertype. -/
theorem contains_top_of_anchored (henv : context.env.Grounded) (hformed : context.heap.Formed)
    (ht : t.isPrimitive = false) (h : (context.closure fuel t).answer = some members) {member : Ty}
    (hmember : member ∈ members) (hanchored : context.env.Anchored member) :
    members.contains .top = true := by
  obtain ⟨head, hhead, -⟩ := hanchored.exists_head
  -- on the name of the member
  generalize hname : head.name = name
  induction name using henv.chains.induction generalizing member head with
  | _ name ih =>
      subst hname
      cases htop : member.isTop with
      | true => exact List.contains_iff_exists_mem_beq.2 ⟨member, hmember, Ty.top_beq htop⟩
      | false =>
          obtain ⟨s, hdirect, hs⟩ := exists_direct_anchored henv hanchored hhead htop
          have hcontains := (closure_closureOf h).contains_of_direct hmember hdirect
          rcases hs with rfl | ⟨above, habove, hdeclares⟩
          · exact hcontains
          · -- an equal member may stand for the supertype, and have another kind
            obtain ⟨next, hnext, heq⟩ := List.contains_iff_exists_mem_beq.1 hcontains
            cases hprimitive : next.isPrimitive with
            | true => exact contains_top_of_primitive henv.regular hformed ht h hnext hprimitive
            | false =>
                obtain ⟨above', habove', hsame⟩ := Ty.exists_head_congr heq habove
                exact ih above.name hdeclares hnext
                  ((direct_anchored henv hanchored hdirect).congr heq hprimitive) above' habove'
                  (Named.beq_iff.1 hsame).symm

end Closure

/-! ## Variables -/

variable (context) in
/-- The type is an array or anchored, or a variable with such bounds, perhaps behind further
variables. A chain of variables does not come back to an equal variable. -/
inductive Linked : List TypeVar → Ty → Prop where
  | array {seen : List TypeVar} {component : Ty} : Linked seen (.array component)
  | anchored {seen : List TypeVar} {t : Ty} : context.env.Anchored t → Linked seen t
  | var {seen : List TypeVar} {param : TypeVar} : seen.contains param = false →
      context.heap.bounds param ≠ [] →
      (∀ bound ∈ context.heap.bounds param, Linked (param :: seen) bound) → Linked seen (.var param)

namespace Linked

variable {seen : List TypeVar} {t : Ty}

/-- A type that is linked is no primitive. -/
theorem isPrimitive_eq (h : context.Linked seen t) : t.isPrimitive = false := by
  cases h with
  | array | var => rfl
  | anchored h =>
      obtain ⟨_, _, hprimitive, _⟩ := h.exists_head
      exact hprimitive

/-- A variable is not linked behind an equal one. -/
theorem not_seen {param : TypeVar} (h : context.Linked seen (.var param)) :
    seen.contains param = false := by
  cases h with
  | anchored h => exact h.elim
  | var hseen _ _ => exact hseen

end Linked

/-- What was visited is among the members that the search ends with. -/
theorem Drains.visited_subset {visited queue members : List Ty}
    (h : context.Drains visited queue members) : visited ⊆ members := by
  induction h with
  | done => exact List.Subset.refl _
  | skip _ _ ih => exact ih
  | visit _ _ _ ih => exact fun s hs => ih (List.mem_append_left _ hs)

/-- A type that was not visited before its turn is among the members. -/
theorem Drains.mem_of_not_visited {visited queue members : List Ty} {current : Ty}
    (h : context.Drains visited (current :: queue) members)
    (hnew : visited.contains current = false) : current ∈ members := by
  cases h with
  | skip hvisited _ =>
      rw [hnew] at hvisited
      cases hvisited
  | visit _ _ hrest =>
      exact hrest.visited_subset (List.mem_append_right _ (List.mem_singleton.2 rfl))

/-- The bounds of a variable start with one that is listed first among its direct supertypes, and is
alone if it is a variable. -/
theorem exists_first_bound (hformed : context.heap.Formed) {param : TypeVar} {types : List Ty}
    (hbounds : context.heap.bounds param ≠ []) (htypes : context.Directs (.var param) types) :
    ∃ bound rest, bound ∈ context.heap.bounds param ∧ types = bound :: rest ∧
      (bound.isVar = true → rest = []) := by
  cases directs_var.1 htypes
  obtain ⟨bound, bounds, heq⟩ := List.exists_cons_of_ne_nil hbounds
  have hmem : bound ∈ context.heap.bounds param := heq ▸ List.mem_cons_self
  obtain ⟨rest, hrest⟩ := Ty.prefix_addNew [bound] bounds
  refine ⟨bound, rest, hmem, ?_, fun hvar => ?_⟩
  · rw [heq, Ty.distinct_eq_addNew, Ty.addNew_cons]
    exact hrest.symm
  · have halone : context.heap.bounds param = [bound] :=
      (hformed param.cell).alone bound hmem hvar
    rw [halone] at heq
    cases heq
    exact List.append_cancel_left (hrest.trans (List.append_nil _).symm)

namespace Linked

/-- Behind the variables that were seen, a type that is linked has not been visited. -/
theorem not_visited {seen : List TypeVar} {visited : List Ty} {t : Ty}
    (h : context.Linked seen t)
    (hvisited : ∀ s ∈ visited, ∃ param, s = .var param ∧ seen.contains param = true) :
    visited.contains t = false := by
  refine Bool.eq_false_iff.2 fun hcontains => ?_
  obtain ⟨s, hs, heq⟩ := List.contains_iff_exists_mem_beq.1 hcontains
  obtain ⟨param, rfl, hseen⟩ := hvisited s hs
  obtain ⟨param', rfl, hsame⟩ := Ty.var_beq (BEq.symm heq)
  have hmet := contains_of_beq hsame hseen
  rw [h.not_seen] at hmet
  cases hmet

/-- A search that comes to a type that is linked comes to an array or an anchored type. -/
theorem exists_mem (hformed : context.heap.Formed) {seen : List TypeVar} {t : Ty}
    (h : context.Linked seen t) {visited queue members : List Ty}
    (hvisited : ∀ s ∈ visited, ∃ param, s = .var param ∧ seen.contains param = true)
    (hqueue : t.isVar = true → queue = [])
    (hdrains : context.Drains visited (t :: queue) members) :
    ∃ member ∈ members, member.isVar = false ∧ context.Linked [] member := by
  -- along the chain of variables: all that was visited are the variables before
  induction h generalizing visited queue with
  | @array seen component =>
      have hself :=
        hdrains.mem_of_not_visited (not_visited (.array : context.Linked seen _) hvisited)
      exact ⟨_, hself, rfl, .array⟩
  | @anchored seen t ht =>
      have hlinked : context.Linked seen t := .anchored ht
      cases hvar : t.isVar with
      | true =>
          obtain ⟨param, rfl⟩ := Ty.eq_var hvar
          exact ht.elim
      | false => exact ⟨t, hdrains.mem_of_not_visited (hlinked.not_visited hvisited), hvar,
          .anchored ht⟩
  | @var seen param hseen hbounds hlinked ih =>
      cases hqueue rfl
      have hnew := not_visited (.var hseen hbounds hlinked : context.Linked seen _) hvisited
      cases hdrains with
      | skip hskipped _ =>
          rw [hnew] at hskipped
          cases hskipped
      | visit _ htypes hrest =>
          obtain ⟨bound, rest, hbound, rfl, halone⟩ := exists_first_bound hformed hbounds htypes
          have hvisited' : ∀ s ∈ visited ++ [.var param],
              ∃ other, s = .var other ∧ (param :: seen).contains other = true := by
            intro s hs
            rcases List.mem_append.1 hs with hs | hs
            · obtain ⟨other, rfl, hother⟩ := hvisited s hs
              exact ⟨other, rfl, by rw [List.contains_cons, hother, Bool.or_true]⟩
            · exact ⟨param, List.mem_singleton.1 hs, by simp⟩
          have hnext := (hlinked bound hbound).not_visited hvisited'
          rw [List.nil_append, List.filter_cons, hnext] at hrest
          exact ih bound hbound hvisited' (fun hvar => by rw [halone hvar]; rfl) hrest

end Linked

/-! ## Supertypes and comparisons -/

variable (context) in
/-- The type is linked and has finitely many supertypes. -/
structure FinitelyLinked (t : Ty) : Prop where
  linked : context.Linked [] t
  finite : context.FinitelyAbove t

/-- The closure of a type that is finitely linked has the universal supertype. -/
theorem FinitelyLinked.contains_top (henv : context.env.Grounded) (hformed : context.heap.Formed)
    {t : Ty} (ht : context.FinitelyLinked t) {fuel : Nat} {members : List Ty}
    (h : (context.closure fuel t).answer = some members) : members.contains .top = true := by
  obtain ⟨member, hmember, hvar, hlinked⟩ :=
    ht.linked.exists_mem hformed (List.forall_mem_nil _) (fun _ => rfl) (drains_iff.2 ⟨fuel, h⟩)
  cases hlinked with
  | array =>
      exact (closure_closureOf h).contains_of_direct hmember (direct_array henv.regular _
        ((Ty.prefix_addNew [.top] _).subset (List.mem_singleton.2 rfl)))
  | anchored hanchored =>
      exact contains_top_of_anchored henv hformed ht.linked.isPrimitive_eq h hmember hanchored
  | var => cases hvar

/-- The supertypes of a type that is finitely linked are found; the universal supertype is among
them, and all of them can be erased. -/
theorem FinitelyLinked.supertypes_halts (henv : context.env.Grounded)
    (hformed : context.heap.Formed) {t : Ty} (ht : context.FinitelyLinked t) :
    Halts (context.MemoRespects context.FinitelyLinked) (fun fuel => context.supertypes fuel t)
      fun members => members.contains .top = true ∧
        ∀ member ∈ members, ∃ erased, Erases context.heap [] member erased := by
  have hfinite := ht.finite.finiteClosure henv.regular
  refine (supertypes_halts_sort ht hfinite).mono fun members hmembers => ?_
  obtain ⟨t', ht', _, _, hanswer⟩ := hmembers
  refine ⟨ht'.contains_top henv hformed hanswer, fun member hmember => ?_⟩
  obtain ⟨depth, hdepth⟩ :=
    (ht'.finite.supertype ((closure_closureOf hanswer).reached member hmember)).exists_depth
  exact exists_erases hformed depth hdepth []

/-- A type that is finitely linked contains the universal supertype nominally. -/
theorem FinitelyLinked.nominallyContains_top (henv : context.env.Grounded)
    (hformed : context.heap.Formed) {t : Ty} (ht : context.FinitelyLinked t) :
    Halts (context.MemoRespects context.FinitelyLinked)
      (fun fuel => context.nominallyContains fuel .top t) fun yes => yes = true := by
  refine (ht.supertypes_halts henv hformed).bind fun members hmembers => ?_
  obtain ⟨hcontains, herases⟩ := hmembers
  obtain ⟨top, htop, heq⟩ := List.contains_iff_exists_mem_beq.1 hcontains
  obtain ⟨head, rfl, hhead⟩ := Ty.named_beq heq
  -- what stands before the universal supertype is erased first
  obtain ⟨before, after, rfl⟩ := List.append_of_mem htop
  refine Halts.anyM_yes before (fun member hmember => ?_) ?_
  · obtain ⟨erased, herased⟩ := herases member (List.mem_append_left _ hmember)
    exact (erasedNamed_halts herased).bind fun _ _ => .pure trivial
  · refine (erasedNamed_halts (erases_named.2 rfl)).bind fun found hfound => .pure ?_
    rw [hfound]
    exact BEq.symm hhead

/-- The universal supertype accepts a type that is linked, while it is compared with the variables
that were seen. -/
theorem Linked.covariant_top (henv : context.env.Grounded) (hformed : context.heap.Formed)
    {seen : List TypeVar} {t : Ty} (h : context.Linked seen t) (hfinite : context.FinitelyAbove t)
    {pending : List (Ty × TypeVar)} (hpending : ∀ pair ∈ pending, seen.contains pair.2 = true) :
    Halts (context.MemoRespects context.FinitelyLinked)
      (fun fuel => context.covariant fuel pending .top t) fun yes => yes = true := by
  induction h generalizing pending with
  | array => exact .step (FinitelyLinked.nominallyContains_top henv hformed ⟨.array, hfinite⟩)
  | @anchored _ t ht =>
      have hcontains := FinitelyLinked.nominallyContains_top henv hformed ⟨.anchored ht, hfinite⟩
      refine .step ?_
      cases t with
      | named | applied => exact hcontains
      | array | var | wildcard => exact ht.elim
  | @var seen param hseen hbounds hlinked ih =>
      have hnew : pending.any (fun pair => pair.1 == .top && pair.2 == param) = false := by
        rw [List.any_eq_false]
        intro pair hpair heq
        have hmet := contains_of_beq (Bool.and_eq_true_iff.1 heq).2 (hpending pair hpair)
        rw [hseen] at hmet
        cases hmet
      obtain ⟨bound, rest, hfirst⟩ := List.exists_cons_of_ne_nil hbounds
      have hbound : bound ∈ context.heap.bounds param := hfirst ▸ List.mem_cons_self
      refine .step ?_
      simp only [covariant_var (show Ty.top.isVar = false from rfl) rfl, hnew]
      refine (Halts.of_answer (Oblivious.bounds _ param)
        (answer_bounds context.heap param)).bind fun bounds heq => ?_
      rw [heq, hfirst]
      refine Halts.anyM_yes [] (List.forall_mem_nil _) (ih bound hbound ?_ ?_)
      · exact hfinite.supertype (.single (direct_first_bound (by rw [hfirst]; rfl)))
      · rw [List.forall_mem_cons]
        refine ⟨by simp, fun pair hpair => ?_⟩
        rw [List.contains_cons, hpending pair hpair, Bool.or_true]

/-- The universal supertype is among the supertypes of every type that has finitely many and is an
array, a declared name, an application of a declared name or a variable whose chain of bounds ends
with such types, and it accepts the type under covariance. Equal variables may have different
bounds, of which the search follows only those that it finds first; then all of them count among
the supertypes. Among coherent types it is enough that the search ends. -/
theorem top_above_linked (henv : context.env.Grounded) (hformed : context.heap.Formed) {t : Ty}
    (ht : context.Linked [] t)
    (hfinite : context.FinitelyAbove t ∨
      ∃ roots, context.Coherent roots ∧ t ∈ roots ∧ context.FiniteClosure t)
    (boxing : Boxing) (boxes : Bool) :
    Halts (context.MemoRespects context.FinitelyLinked) (fun fuel => context.supertypes fuel t)
      (fun members => members.contains .top = true) ∧
    Halts (context.MemoRespects context.FinitelyLinked)
      (fun fuel => context.isAssignable fuel boxing ⟨.covariant, boxes⟩ .top t)
      (fun answer => answer = true) := by
  have habove : context.FinitelyAbove t := by
    rcases hfinite with habove | ⟨roots, hcoherent, hroot, hclosure⟩
    · exact habove
    · exact hclosure.finitelyAbove hcoherent.uniform (.root hroot)
  constructor
  · exact (FinitelyLinked.supertypes_halts henv hformed ⟨ht, habove⟩).mono fun members h => h.1
  · have hcovariant := ht.covariant_top henv hformed habove (List.forall_mem_nil _)
    simp only [isAssignable_eq, box_eq ht.isPrimitive_eq, box_eq (t := .top) rfl, ite_self]
    exact hcovariant

/-- Nothing is declared above the declarations that there always are. -/
theorem split_grounded : split.env.Grounded := by
  have hnone {name : String} {declaration : Declaration}
      (hfound : Table.base.find? name = some declaration) : declaration.supertypes = [] := by
    have hentry := List.mem_of_find?_eq_some hfound
    simp only [Table.base, List.mem_cons, List.not_mem_nil, or_false] at hentry
    rcases hentry with rfl | rfl | rfl <;> rfl
  constructor
  · intro name declaration hfound s hs
    rw [hnone hfound] at hs
    cases hs
  · refine ⟨fun below => ⟨below, fun above hdeclares => ?_⟩⟩
    obtain ⟨declaration, hfound, s, hs, _⟩ := hdeclares
    rw [hnone hfound] at hs
    cases hs
  · intro name declaration hfound s hs
    rw [hnone hfound] at hs
    cases hs

/-- A finite closure is not enough where equal variables differ in their bounds. Here the closure of
an array is finite and has the universal supertype, but there is no answer whether that accepts the
array, since what lies above the variables that the search left out counts too. -/
theorem linked_array_unanswered :
    split.env.Grounded ∧ split.heap.Made ∧ split.Linked [] splitArray ∧
    (∃ fuel members, (split.closure fuel splitArray).answer = some members ∧
      members.contains .top = true) ∧
    ∀ boxing boxes fuel,
      split.isAssignable fuel boxing ⟨.covariant, boxes⟩ .top splitArray .empty = none := by
  obtain ⟨rest, htop, hclosure⟩ := split_closure
  refine ⟨split_grounded, split_made, .array, ⟨11, _, hclosure, ?_⟩, split_never⟩
  obtain ⟨member, hmember, heq⟩ := List.contains_iff_exists_mem_beq.1 htop
  exact List.contains_iff_exists_mem_beq.2
    ⟨member, List.mem_append_right _ (List.mem_cons_of_mem _ hmember), heq⟩

/-- Lists and classes of lists are grounded. -/
theorem listEnv_grounded : listEnv.Grounded where
  regular := listEnv_regular
  chains := by
    refine Subrelation.wf ?_
      (InvImage.wf (fun name => if name = "ArrayList" then 1 else 0) Nat.lt_wfRel.wf)
    rintro above below ⟨declaration, hfound, s, hs, hname⟩
    obtain ⟨rfl, rfl⟩ := listEnv_cases hfound hs
    cases Option.some.inj hname
    exact Nat.zero_lt_one
  anchored hfound s hs := by
    obtain ⟨_, rfl⟩ := listEnv_cases hfound hs
    exact ⟨rfl, rfl⟩

/-- A variable that is bounded by lists of itself lies below the universal supertype. -/
theorem chain_below_top :
    (∃ members after enough, members.contains Ty.top = true ∧ ∀ fuel, enough ≤ fuel →
      chains.supertypes fuel (.var (chainVar (.owning 2))) .empty = some (members, after)) ∧
    ∃ after enough, ∀ fuel, enough ≤ fuel →
      chains.isAssignable fuel .standard .standard .top (.var (chainVar (.owning 2))) .empty =
        some (true, after) := by
  have hlinked : chains.Linked [] (.var (chainVar (.owning 2))) := by
    refine .var rfl (List.cons_ne_nil _ _) fun bound hbound => .anchored ?_
    cases List.mem_singleton.1 hbound
    exact ⟨rfl, rfl⟩
  have hfinite : chains.FiniteClosure (.var (chainVar (.owning 2))) := ⟨6, _, rfl⟩
  obtain ⟨hsupertypes, haccepts⟩ :=
    top_above_linked listEnv_grounded chains_made.formed hlinked
      (.inr ⟨chainTypes, chains_coherent, by simp [chainTypes], hfinite⟩) .standard true
  obtain ⟨members, after, _, hcontains, enough, hrun⟩ := hsupertypes .empty (memoRespects_empty _)
  obtain ⟨answer, after', _, rfl, enough', hrun'⟩ := haccepts .empty (memoRespects_empty _)
  exact ⟨⟨members, after, enough, hcontains, hrun⟩, after', enough', hrun'⟩

end Context

end Nominal
