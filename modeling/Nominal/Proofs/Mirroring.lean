import Nominal.Proofs.BreadthFirst
import Nominal.Proofs.Congruence

/-!
# Queries that mirror each other

The same question is asked twice: of two contexts that show the same bounds but may memoize or not,
on trails with different memos, about equal types. `Mirrored` says that whenever the first query
answers, the second one does too once it may take enough steps, and that the answers are related. It
also says which closures the first query asked for (`Asks`), since these are what it memoizes. The
main result is `Mirror.supertypes`: closures that come from different memos list equal types in
the same order.
-/

namespace Nominal

open Query

/-! ## Contexts that show the same bounds -/

/-- Erasure sees of a heap only what bounds variables have. -/
theorem eraseAlong_congr {heap heap' : Heap}
    (h : ∀ param, heap.bounds param = heap'.bounds param) (fuel : Nat) (seen : List TypeVar)
    (t : Ty) : eraseAlong heap fuel seen t = eraseAlong heap' fuel seen t := by
  have hread (param : TypeVar) : Query.bounds heap param = Query.bounds heap' param := by
    rw [Query.bounds, Query.bounds, h]
  induction fuel generalizing seen t with
  | zero => rfl
  | succ fuel ih =>
      cases t with
      | named | applied => rfl
      | array component => rw [eraseAlong, eraseAlong, ih]
      | wildcard upper lower => rw [eraseAlong, eraseAlong, ih]
      | var param =>
          rw [eraseAlong, eraseAlong, hread]
          simp only [ih]

namespace Context

/-- The contexts have the same declarations, and variables have the same bounds in them. -/
structure Alike (context other : Context) : Prop where
  env : context.env = other.env
  bounds : ∀ param, context.heap.bounds param = other.heap.bounds param

variable {context other : Context}

/-- Alike contexts give the same direct supertypes. -/
theorem Alike.directSupertypes (h : context.Alike other) (fuel : Nat) (t : Ty) :
    context.directSupertypes fuel t = other.directSupertypes fuel t := by
  obtain ⟨env, heap, memoize⟩ := context
  obtain ⟨env', heap', memoize'⟩ := other
  obtain ⟨rfl, hbounds⟩ := h
  have herase : erase heap fuel = erase heap' fuel :=
    funext fun t => eraseAlong_congr hbounds fuel [] t
  induction t using Ty.parts_induction with
  | step t ih =>
      cases t with
      | named head =>
          show namedSupertypes _ fuel head = namedSupertypes _ fuel head
          rw [namedSupertypes, namedSupertypes, herase]
          rfl
      | applied owner raw args => rfl
      | array component =>
          rw [Context.directSupertypes, Context.directSupertypes,
            ih component (List.mem_singleton.2 rfl)]
          rfl
      | var param =>
          rw [Context.directSupertypes, Context.directSupertypes, Query.bounds, Query.bounds,
            hbounds]
      | wildcard upper lower =>
          rw [Context.directSupertypes, Context.directSupertypes, ih upper List.mem_cons_self]

/-- Alike contexts give the same closures. -/
theorem Alike.closure (h : context.Alike other) (fuel : Nat) (t : Ty) :
    context.closure fuel t = other.closure fuel t := by
  have hfrom : ∀ found position, context.closureFrom fuel found position =
      other.closureFrom fuel found position := by
    induction fuel with
    | zero => exact fun _ _ => rfl
    | succ fuel ih =>
        intro found position
        rw [closureFrom, closureFrom]
        simp only [h.directSupertypes, ih]
  rw [Context.closure, Context.closure, hfrom]

/-! ## The closures that a query asks for -/

variable (context) in
/-- The query answers on the trail, and on its way asks for the closures of the types in the list,
in that order. Oblivious queries ask for none: where closures are memoized, one would stay. -/
inductive Asks : {α : Type} → Query α → Trail → List Ty → α → Trail → Prop where
  | quiet {α : Type} {query : Query α} {trail after : Trail} {first : α} :
      query.Oblivious → query trail = some (first, after) → Asks query trail [] first after
  | closure {fuel : Nat} {t : Ty} {trail after : Trail} {members : List Ty} :
      context.supertypes fuel t trail = some (members, after) →
      Asks (context.supertypes fuel t) trail [t] members after
  | bind {α β : Type} {query : Query α} {next : α → Query β} {trail between after : Trail}
      {asked asked' : List Ty} {first : α} {last : β} :
      Asks query trail asked first between → Asks (next first) between asked' last after →
      Asks (query >>= next) trail (asked ++ asked') last after

/-- A query that asks for closures on a trail answers there. -/
theorem Asks.run_eq {α : Type} {query : Query α} {trail after : Trail} {asked : List Ty} {first : α}
    (h : context.Asks query trail asked first after) : query trail = some (first, after) := by
  induction h with
  | quiet _ hrun => exact hrun
  | closure hrun => exact hrun
  | bind _ _ ih ih' => rw [bind_of_some ih, ih']

/-- The types for which a memo has closures, in order. -/
def keys (memo : Memo) : List Ty := memo.toList.map Prod.fst

/-- A closure that is remembered comes last, unless there is one for an equal type. -/
theorem keys_insertNew (memo : Memo) (t : Ty) (members : List Ty) :
    keys (memo.insertNew t members) = Ty.addNew (keys memo) [t] := by
  have hcontains : memo.contains t = (keys memo).contains t := memo.contains_eq t
  show _ = if (keys memo).contains t then keys memo else keys memo ++ [t]
  rw [keys, TypeMap.toList_insertNew, hcontains]
  split
  · rfl
  · exact List.map_append

/-- With memoization on, asking for a closure leaves one for the type. -/
theorem keys_supertypes (hmemoize : context.memoize = true) {fuel : Nat} {t : Ty}
    {trail after : Trail} {members : List Ty}
    (h : context.supertypes fuel t trail = some (members, after)) :
    keys after.memo = Ty.addNew (keys trail.memo) [t] := by
  cases hfound : trail.memo.get? t with
  | some memoized =>
      cases (supertypes_memoized hmemoize hfound fuel).symm.trans h
      have hcontains : (keys trail.memo).contains t = true := by
        rw [keys, ← TypeMap.contains_eq, TypeMap.contains, hfound, Option.isSome_some]
      exact (if_pos hcontains).symm
  | none =>
      rcases supertypes_run h with ⟨t', hentry, heq, _⟩ | ⟨hanswer, _⟩
      · -- an entry for an equal type would have been found
        have hcontains : (keys trail.memo).contains t = true :=
          List.contains_iff_exists_mem_beq.2 ⟨t', List.mem_map.2 ⟨_, hentry, rfl⟩, heq⟩
        rw [keys, ← TypeMap.contains_eq, TypeMap.contains, hfound] at hcontains
        cases hcontains
      · obtain ⟨after', hrun, hmemo⟩ := supertypes_computed (fun _ => hfound) hanswer
        cases h.symm.trans hrun
        rw [hmemo, if_pos hmemoize, keys_insertNew]

/-- With memoization on, a query leaves closures for the types that it asks for. -/
theorem Asks.keys_eq (hmemoize : context.memoize = true) {α : Type} {query : Query α}
    {trail after : Trail} {asked : List Ty} {first : α}
    (h : context.Asks query trail asked first after) :
    keys after.memo = Ty.addNew (keys trail.memo) asked := by
  induction h with
  | quiet hquery hrun => rw [(hquery.answer_eq hrun).2]; rfl
  | closure hrun => exact keys_supertypes hmemoize hrun
  | bind _ _ ih ih' => rw [ih', ih, Ty.addNew_append]

/-- With memoization off, a query leaves the memo alone. -/
theorem Asks.memo_eq (hmemoize : context.memoize = false) {α : Type} {query : Query α}
    {trail after : Trail} {asked : List Ty} {first : α}
    (h : context.Asks query trail asked first after) : after.memo = trail.memo := by
  induction h with
  | quiet hquery hrun => exact (hquery.answer_eq hrun).2
  | closure hrun =>
      rw [supertypes, if_neg (Bool.eq_false_iff.1 hmemoize)] at hrun
      exact ((closure_oblivious _ _).answer_eq hrun).2
  | bind _ _ ih ih' => rw [ih', ih]

/-! ## Mirrored queries -/

variable {roots : List Ty} {first second : Context} {α β γ δ : Type}

variable (context roots first) in
/-- Whenever the query answers on a trail whose memo is sound, it asks for closures in the first
context and leaves a sound memo, and the other query answers from every trail whose memo is sound.
The two answers are related. -/
def Mirrored (query : Query α) (other : Nat → Query β) (related : α → β → Prop) : Prop :=
  ∀ trail, context.MemoSound roots trail.memo → ∀ found after, query trail = some (found, after) →
    context.MemoSound roots after.memo ∧ (∃ asked, first.Asks query trail asked found after) ∧
      Halts (context.MemoSound roots) other (related found)

namespace Mirrored

/-- Related values mirror each other. -/
theorem pure {related : α → β → Prop} {found : α} {found' : β} (h : related found found') :
    context.Mirrored roots first (Pure.pure found) (fun _ => Pure.pure found') related := by
  intro trail hmemo found after hrun
  cases hrun
  exact ⟨hmemo, ⟨[], .quiet (.pure _) rfl⟩, .pure h⟩

/-- What answers nothing is mirrored by everything. -/
theorem exhausted {other : Nat → Query β} {related : α → β → Prop} :
    context.Mirrored roots first Query.exhausted other related := by
  intro trail _ found after hrun
  cases hrun

/-- An oblivious query is mirrored where its answers are. -/
theorem of_oblivious {query : Query α} {other : Nat → Query β} {related : α → β → Prop}
    (hquery : query.Oblivious)
    (h : ∀ found, query.answer = some found →
      Halts (context.MemoSound roots) other (related found)) :
    context.Mirrored roots first query other related := by
  intro trail hmemo found after hrun
  obtain ⟨hanswer, hkept⟩ := hquery.answer_eq hrun
  exact ⟨hkept ▸ hmemo, ⟨[], .quiet hquery hrun⟩, h found hanswer⟩

/-- An oblivious query whose answers stay when it may take more steps mirrors itself. -/
theorem of_mono {query : Nat → Query α} (hquery : ∀ fuel, (query fuel).Oblivious)
    (hmore : ∀ {fewer more}, fewer ≤ more → (query fewer).AnsweredBy (query more)) (fuel : Nat) :
    context.Mirrored roots first (query fuel) query Eq := by
  refine .of_oblivious (hquery fuel) fun found hfound => ?_
  have hhalts : Halts (context.MemoSound roots) query (fun other => other = found) :=
    .of_oblivious (hquery fuel) (fun _ => hmore) hfound
  exact hhalts.mono fun _ => Eq.symm

/-- What follows mirrored queries may rely on how their answers are related. -/
theorem bind {query : Query α} {other : Nat → Query β} {next : α → Query γ}
    {next' : Nat → β → Query δ} {middle : α → β → Prop} {related : γ → δ → Prop}
    (hquery : context.Mirrored roots first query other middle)
    (hnext : ∀ found found', middle found found' →
      context.Mirrored roots first (next found) (fun fuel => next' fuel found') related) :
    context.Mirrored roots first (query >>= next) (fun fuel => other fuel >>= next' fuel)
      related := by
  intro trail hmemo last after hrun
  obtain ⟨found, between, hfound, hlast⟩ := bind_some hrun
  obtain ⟨hbetween, ⟨asked, hasked⟩, hother⟩ := hquery trail hmemo found between hfound
  obtain ⟨found', _, _, hmiddle, _⟩ := hother between hbetween
  obtain ⟨hafter, ⟨asked', hasked'⟩, _⟩ :=
    hnext found found' hmiddle between hbetween last after hlast
  refine ⟨hafter, ⟨_, hasked.bind hasked'⟩, hother.bind fun found' hmiddle => ?_⟩
  exact (hnext found found' hmiddle between hbetween last after hlast).2.2

/-- The other query may spend a step before it starts. -/
theorem step {query : Query α} {other : Nat → Query β} {related : α → β → Prop}
    (h : context.Mirrored roots first query (fun fuel => other (fuel + 1)) related) :
    context.Mirrored roots first query other related := by
  intro trail hmemo found after hrun
  obtain ⟨hafter, hasked, hother⟩ := h trail hmemo found after hrun
  exact ⟨hafter, hasked, hother.step⟩

variable {query query' : Query Bool} {other other' : Nat → Query Bool}

/-- Asking a second question only after a yes is mirrored. -/
theorem and (hquery : context.Mirrored roots first query other Eq)
    (hquery' : context.Mirrored roots first query' other' Eq) :
    context.Mirrored roots first
      (query >>= fun yes => if yes = true then query' else Pure.pure false)
      (fun fuel => other fuel >>= fun yes => if yes = true then other' fuel else Pure.pure false)
      Eq := by
  refine hquery.bind fun yes yes' heq => ?_
  cases heq
  cases yes with
  | true => exact hquery'
  | false => exact .pure rfl

/-- Asking a second question only after a no is mirrored. -/
theorem or (hquery : context.Mirrored roots first query other Eq)
    (hquery' : context.Mirrored roots first query' other' Eq) :
    context.Mirrored roots first
      (query >>= fun yes => if yes = true then Pure.pure true else query')
      (fun fuel => other fuel >>= fun yes => if yes = true then Pure.pure true else other' fuel)
      Eq := by
  refine hquery.bind fun yes yes' heq => ?_
  cases heq
  cases yes with
  | true => exact .pure rfl
  | false => exact hquery'

variable {matching : α → β → Prop} {list : List α} {list' : List β}

/-- Searches of lists are mirrored if the checks of their members are. -/
theorem anyM {check : α → Query Bool} {check' : Nat → β → Query Bool}
    (hlist : List.Forall₂ matching list list')
    (hcheck : ∀ member member', matching member member' →
      context.Mirrored roots first (check member) (fun fuel => check' fuel member') Eq) :
    context.Mirrored roots first (list.anyM check) (fun fuel => list'.anyM (check' fuel)) Eq := by
  induction hlist with
  | nil => exact .pure rfl
  | cons hmember _ ih =>
      simp only [List.anyM_cons]
      exact (hcheck _ _ hmember).or ih

/-- Passes through lists are mirrored if the checks of their members are. -/
theorem allM {check : α → Query Bool} {check' : Nat → β → Query Bool}
    (hlist : List.Forall₂ matching list list')
    (hcheck : ∀ member member', matching member member' →
      context.Mirrored roots first (check member) (fun fuel => check' fuel member') Eq) :
    context.Mirrored roots first (list.allM check) (fun fuel => list'.allM (check' fuel)) Eq := by
  induction hlist with
  | nil => exact .pure rfl
  | cons hmember _ ih =>
      simp only [List.allM_cons]
      exact (hcheck _ _ hmember).and ih

/-- Folds over lists are mirrored if their steps are. -/
theorem foldlM {state : γ → δ → Prop} {next : γ → α → Query γ} {next' : Nat → δ → β → Query δ}
    (hlist : List.Forall₂ matching list list') {start : γ} {start' : δ}
    (hstart : state start start')
    (hnext : ∀ {now now' member member'}, state now now' → matching member member' →
      context.Mirrored roots first (next now member) (fun fuel => next' fuel now' member') state) :
    context.Mirrored roots first (list.foldlM next start)
      (fun fuel => list'.foldlM (next' fuel) start') state := by
  induction hlist generalizing start start' with
  | nil => exact .pure hstart
  | cons hmember _ ih =>
      simp only [List.foldlM_cons]
      exact (hnext hstart hmember).bind fun _ _ hstate => ih hstate

/-- Selections from lists are mirrored if the checks of their members are. -/
theorem filterM {check : α → Query Bool} {check' : Nat → β → Query Bool}
    (hlist : List.Forall₂ matching list list')
    (hcheck : ∀ member member', matching member member' →
      context.Mirrored roots first (check member) (fun fuel => check' fuel member') Eq) :
    context.Mirrored roots first (list.filterM check) (fun fuel => list'.filterM (check' fuel))
      (List.Forall₂ matching) := by
  -- members that pass are collected in reverse, so what is collected so far is related as well
  have hcollect : ∀ {kept kept'}, List.Forall₂ matching kept kept' →
      context.Mirrored roots first (list.filterAuxM check kept)
        (fun fuel => list'.filterAuxM (check' fuel) kept') (List.Forall₂ matching) := by
    induction hlist with
    | nil => exact fun hkept => .pure hkept
    | cons hmember _ ih =>
        intro kept kept' hkept
        refine (hcheck _ _ hmember).bind fun yes yes' heq => ?_
        cases heq
        cases yes with
        | true => exact ih (.cons hmember hkept)
        | false => exact ih hkept
  exact (hcollect .nil).bind fun _ _ hkept => .pure (List.rel_reverse hkept)

end Mirrored

/-! ## Closures of equal types -/

/-- What is added to twins, if new, are twins. -/
theorem twins_addNew {kept kept' types types' : List Ty}
    (hkept : List.Forall₂ (context.Twins roots) kept kept')
    (htypes : List.Forall₂ (context.Twins roots) types types') :
    List.Forall₂ (context.Twins roots) (Ty.addNew kept types) (Ty.addNew kept' types') := by
  refine Twins.of_matches (Ty.addNew_congr (hkept.imp fun _ _ h => h.equal)
    (htypes.imp fun _ _ h => h.equal)) (fun t ht => ?_) (fun t ht => ?_)
  · rcases Ty.mem_of_mem_addNew ht with ht | ht
    · obtain ⟨_, _, htwins⟩ := hkept.exists_mem ht
      exact htwins.left
    · obtain ⟨_, _, htwins⟩ := htypes.exists_mem ht
      exact htwins.left
  · rcases Ty.mem_of_mem_addNew ht with ht | ht
    · obtain ⟨_, _, htwins⟩ := hkept.flip.exists_mem ht
      exact htwins.right
    · obtain ⟨_, _, htwins⟩ := htypes.flip.exists_mem ht
      exact htwins.right

/-- The direct supertypes of twins are twins. -/
theorem Coherent.twins_directs (hcoherent : context.Coherent roots) {t t' : Ty} {types : List Ty}
    (h : context.Twins roots t t') (htypes : context.Directs t types) :
    ∃ types', context.Directs t' types' ∧ List.Forall₂ (context.Twins roots) types types' := by
  obtain ⟨types', htypes', hmatches⟩ := hcoherent.directs h.left h.right h.equal htypes
  exact ⟨types', htypes', Twins.of_matches hmatches (fun s hs => h.left.direct ⟨types, htypes, hs⟩)
    (fun s hs => h.right.direct ⟨types', htypes', hs⟩)⟩

/-- A search among twins finds twins in the same order. -/
theorem Coherent.closureFrom (hcoherent : context.Coherent roots) {fuel position : Nat}
    {found found' result : TypeSet}
    (hfound : List.Forall₂ (context.Twins roots) found.members found'.members)
    (h : (context.closureFrom fuel found position).answer = some result) :
    ∃ enough result', (context.closureFrom enough found' position).answer = some result' ∧
      List.Forall₂ (context.Twins roots) result.members result'.members := by
  induction fuel generalizing found found' position with
  | zero => cases h
  | succ fuel ih =>
      rcases closure_from_step h with ⟨hend, rfl⟩ | ⟨t, types, ht, htypes, hrest⟩
      · have hend' : found'.members[position]? = none := by
          rw [List.getElem?_eq_none_iff] at hend ⊢
          exact hfound.length_eq ▸ hend
        exact ⟨1, found', closure_from_done hend', hfound⟩
      · obtain ⟨hposition, rfl⟩ := List.getElem?_eq_some_iff.1 ht
        have hposition' : position < found'.members.length := hfound.length_eq ▸ hposition
        have htwins : context.Twins roots found.members[position] found'.members[position] :=
          hfound.get hposition hposition'
        obtain ⟨types', htypes', hmatches⟩ := hcoherent.twins_directs htwins htypes
        have hadded : List.Forall₂ (context.Twins roots) (found.insertAll types).members
            (found'.insertAll types').members := by
          rw [members_insertAll_eq, members_insertAll_eq]
          exact twins_addNew hfound hmatches
        obtain ⟨enough, result', hresult', htwins'⟩ := ih hadded hrest
        obtain ⟨enough', hanswer⟩ :=
          closure_from_next (List.getElem?_eq_getElem hposition') htypes' hresult'
        exact ⟨enough', result', hanswer, htwins'⟩

/-- The closures of twins have twins in the same order. -/
theorem Coherent.closure (hcoherent : context.Coherent roots) {t t' : Ty} {fuel : Nat}
    {members : List Ty} (h : context.Twins roots t t')
    (hanswer : (context.closure fuel t).answer = some members) :
    ∃ enough members', (context.closure enough t').answer = some members' ∧
      List.Forall₂ (context.Twins roots) members members' := by
  rw [Context.closure, (closure_from_oblivious fuel _ 0).answer_map] at hanswer
  obtain ⟨result, hresult, rfl⟩ := Option.map_eq_some_iff.1 hanswer
  have hstart (t : Ty) : (TypeSet.insert .empty t).members = [t] := TypeSet.members_insert .empty t
  have htwins : List.Forall₂ (context.Twins roots) (TypeSet.insert .empty t).members
      (TypeSet.insert .empty t').members := by
    rw [hstart, hstart]
    exact .cons h .nil
  obtain ⟨enough, result', hresult', hmembers⟩ := hcoherent.closureFrom htwins hresult
  refine ⟨enough, result'.members, ?_, hmembers⟩
  rw [Context.closure, (closure_from_oblivious enough _ 0).answer_map, hresult', Option.map_some]

/-- Where the closure of a type is known, equal types are handed out twins of its members. -/
theorem supertypes_halts_twins (hcoherent : context.Coherent roots) (hsecond : second.Alike context)
    {t t' : Ty} {fuel : Nat} {members : List Ty} (h : context.Twins roots t t')
    (hanswer : (context.closure fuel t).answer = some members) :
    Halts (context.MemoSound roots) (fun more => second.supertypes more t')
      (List.Forall₂ (context.Twins roots) members) := by
  intro trail hmemo
  obtain ⟨enough, members', hanswer', _⟩ := hcoherent.closure h hanswer
  -- what is memoized may be the closure of a third type, equal to the two
  obtain ⟨u, found, heq, ⟨hu, fuel', hfound⟩, _, after, hafter, hrun⟩ :=
    supertypes_answers (hsecond.closure enough t' ▸ hanswer') ⟨h.right, enough, hanswer'⟩ hmemo
  obtain ⟨enough', members'', hanswer'', htwins⟩ :=
    hcoherent.closure ⟨h.left, hu, BEq.trans h.equal heq⟩ hanswer
  cases closure_unique hanswer'' hfound
  exact ⟨found, after, hafter, htwins, hrun⟩

/-- Two contexts that show the same as a coherent one. They may memoize closures or not. -/
structure Mirror (context : Context) (roots : List Ty) (first second : Context) : Prop where
  coherent : context.Coherent roots
  first : first.Alike context
  second : second.Alike context

/-- Closures that are handed out are mirrored for equal types, whatever is memoized. -/
theorem Mirror.supertypes (hmirror : context.Mirror roots first second) {t t' : Ty}
    (h : context.Twins roots t t') (fuel : Nat) :
    context.Mirrored roots first (first.supertypes fuel t) (fun more => second.supertypes more t')
      (List.Forall₂ (context.Twins roots)) := by
  intro trail hmemo members after hrun
  have hclosure {members : List Ty} (hanswer : (first.closure fuel t).answer = some members) :
      context.Reached roots t ∧ ∃ fuel, (context.closure fuel t).answer = some members :=
    ⟨h.left, fuel, hmirror.first.closure fuel t ▸ hanswer⟩
  obtain ⟨hafter, u, heq, hu, fuel', hanswer⟩ :=
    supertypes_memoAll hclosure trail hmemo members after hrun
  exact ⟨hafter, ⟨[t], .closure hrun⟩, supertypes_halts_twins hmirror.coherent hmirror.second
    ⟨hu, h.right, BEq.trans (BEq.symm heq) h.equal⟩ hanswer⟩

end Context

end Nominal
