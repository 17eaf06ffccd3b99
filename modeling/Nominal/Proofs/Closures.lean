import Nominal.Assignability
import Nominal.Proofs.Coherence

/-!
# Closures that queries see

Queries ask for closures through the memo, which may hold the closure of an equal type. `MemoSound`
is the invariant of the memo, and `supertypes_ensures` says that under it every closure that is
handed out has the supertypes of the type that was asked about, up to equality.
-/

namespace Nominal.Context

open Query

variable {context : Context} {roots : List Ty}

/-- Every entry of the memo, a type with the closure that is memoized for it, has the property. -/
def MemoAll (holds : Ty → List Ty → Prop) (memo : Memo) : Prop :=
  ∀ entry ∈ memo.toList, holds entry.1 entry.2

/-- An empty memo has no entries. -/
theorem memoAll_empty (holds : Ty → List Ty → Prop) : MemoAll holds Trail.empty.memo :=
  fun _ h => by cases h

variable (context) in
/-- The memo holds closures of types of a domain. -/
def HoldsClosures (domain : Ty → Prop) (memo : Memo) : Prop :=
  MemoAll (fun t members => domain t ∧ ∃ fuel, (context.closure fuel t).answer = some members) memo

variable (context roots) in
/-- The memo holds closures, each of a type that is reached from the given ones. -/
def MemoSound (memo : Memo) : Prop :=
  MemoAll (fun t members => context.Reached roots t ∧
    ∃ fuel, (context.closure fuel t).answer = some members) memo

/-- An empty memo holds closures of types of every domain. -/
theorem holdsClosures_empty (domain : Ty → Prop) : context.HoldsClosures domain Trail.empty.memo :=
  memoAll_empty _

/-- Nothing is wrong with an empty memo. -/
theorem memoSound_empty : context.MemoSound roots Trail.empty.memo := memoAll_empty _

variable (context roots) in
/-- The members of a list are the supertypes of a type, up to equality. -/
structure Represents (t : Ty) (members : List Ty) : Prop where
  reached : ∀ member ∈ members, context.Reached roots member
  sound : ∀ member ∈ members, ∃ s, context.Supertype t s ∧ (s == member) = true
  complete : ∀ s, context.Supertype t s → ∃ member ∈ members, (s == member) = true

/-- The closure of an equal type has the supertypes of a type. -/
theorem Coherent.represents (hcoherent : context.Coherent roots) {t t' : Ty} {members : List Ty}
    (ht : context.Reached roots t) (ht' : context.Reached roots t') (heq : (t == t') = true)
    (h : context.ClosureOf t' members) : context.Represents roots t members where
  reached member hmember := ht'.supertype (h.reached member hmember)
  sound member hmember := by
    obtain ⟨s, hs, hequal⟩ :=
      hcoherent.uniform.supertype ht' ht (BEq.symm heq) (h.reached member hmember)
    exact ⟨s, hs, BEq.symm hequal⟩
  complete s hs := hcoherent.uniform.exists_mem ht ht' heq h hs

/-- What is found under a type in a list was put there under an equal one. -/
theorem exists_of_lookup {entries : List (Ty × List Ty)} {t : Ty} {members : List Ty}
    (h : entries.lookup t = some members) : ∃ t', (t', members) ∈ entries ∧ (t == t') = true := by
  induction entries with
  | nil => cases h
  | cons entry rest ih =>
      rw [List.lookup_cons] at h
      cases heq : t == entry.1 with
      | true =>
          rw [heq] at h
          cases Option.some.inj h
          exact ⟨entry.1, List.mem_cons_self, heq⟩
      | false =>
          rw [heq] at h
          obtain ⟨t', hmem, hequal⟩ := ih h
          exact ⟨t', List.mem_cons_of_mem _ hmem, hequal⟩

/-- Remembering a closure that has the property keeps it a property of all entries. -/
theorem MemoAll.insertNew {holds : Ty → List Ty → Prop} {memo : Memo} (hmemo : MemoAll holds memo)
    {t : Ty} {members : List Ty} (h : holds t members) :
    MemoAll holds (memo.insertNew t members) := by
  intro entry hentry
  rw [TypeMap.toList_insertNew] at hentry
  split at hentry
  · exact hmemo entry hentry
  · rcases List.mem_append.1 hentry with hold | hnew
    · exact hmemo entry hold
    · cases List.mem_singleton.1 hnew
      exact h

/-- A closure that is handed out was memoized for an equal type, or is computed and perhaps
memoized. -/
theorem supertypes_run {t : Ty} {fuel : Nat} {trail after : Trail} {members : List Ty}
    (h : context.supertypes fuel t trail = some (members, after)) :
    (∃ t', (t', members) ∈ trail.memo.toList ∧ (t == t') = true ∧ after.memo = trail.memo) ∨
      (context.closure fuel t).answer = some members ∧
        (after.memo = trail.memo ∨ after.memo = trail.memo.insertNew t members) := by
  rw [supertypes] at h
  split at h
  · obtain ⟨found, between, hfound, hrest⟩ := bind_some h
    cases hfound
    cases hlookup : trail.memo.get? t with
    | some memoized =>
        rw [hlookup] at hrest
        cases hrest
        rw [TypeMap.get?_eq_lookup] at hlookup
        obtain ⟨t', hentry, heq⟩ := exists_of_lookup hlookup
        exact .inl ⟨t', hentry, heq, rfl⟩
    | none =>
        rw [hlookup] at hrest
        obtain ⟨members', between, hrun, hremember⟩ := bind_some hrest
        cases hremember
        obtain ⟨hanswer, hkept⟩ := (closure_oblivious fuel t).answer_eq hrun
        refine .inr ⟨hanswer, .inr ?_⟩
        rw [← hkept]
  · obtain ⟨hanswer, hkept⟩ := (closure_oblivious fuel t).answer_eq h
    exact .inr ⟨hanswer, .inl hkept⟩

/-- A closure that is memoized for a type is handed out. -/
theorem supertypes_memoized {t : Ty} {members : List Ty} {trail : Trail}
    (hmemoize : context.memoize = true) (h : trail.memo.get? t = some members) (fuel : Nat) :
    context.supertypes fuel t trail = some (members, trail) := by
  rw [supertypes, if_pos hmemoize,
    bind_of_some (show memoized? t trail = some (some members, trail) from h ▸ rfl)]
  rfl

/-- A closure that is not memoized is computed, and then memoized if closures are. -/
theorem supertypes_computed {t : Ty} {members : List Ty} {trail : Trail} {fuel : Nat}
    (hnew : context.memoize = true → trail.memo.get? t = none)
    (h : (context.closure fuel t).answer = some members) :
    ∃ after, context.supertypes fuel t trail = some (members, after) ∧
      after.memo =
        if context.memoize then trail.memo.insertNew t members else trail.memo := by
  obtain ⟨after, hrun, hkept⟩ := (closure_oblivious fuel t).run_eq h trail
  rw [supertypes]
  split
  · rename_i hmemoize
    rw [bind_of_some
      (show memoized? t trail = some (none, trail) from hnew hmemoize ▸ rfl)]
    dsimp only
    rw [bind_of_some hrun]
    exact ⟨_, rfl, by rw [← hkept]⟩
  · exact ⟨after, hrun, hkept⟩

/-- A closure that is handed out is handed out with more steps too. -/
theorem supertypes_mono (t : Ty) {fewer more : Nat} (h : fewer ≤ more) :
    (context.supertypes fewer t).AnsweredBy (context.supertypes more t) := by
  rw [supertypes, supertypes]
  split
  · refine (AnsweredBy.refl _).bind fun found => ?_
    cases found with
    | some members => exact .refl _
    | none => exact (closure_mono t h).bind fun _ => .refl _
  · exact closure_mono t h

/-- Either a closure is memoized for an equal type and is handed out, or the closure of the type, if
there is one, is computed, and then memoized if closures are. -/
theorem supertypes_hit_or_miss (context : Context) (t : Ty) (trail : Trail) :
    (∃ members, context.memoize = true ∧ trail.memo.get? t = some members ∧
        ∀ fuel, context.supertypes fuel t trail = some (members, trail)) ∨
      ∀ {enough members}, (context.closure enough t).answer = some members →
        ∃ after, (after.memo = trail.memo ∨ after.memo = trail.memo.insertNew t members) ∧
          ∀ fuel, enough ≤ fuel → context.supertypes fuel t trail = some (members, after) := by
  by_cases hhit : context.memoize = true ∧ (trail.memo.get? t).isSome = true
  · obtain ⟨hmemoize, hsome⟩ := hhit
    obtain ⟨members, hmembers⟩ := Option.isSome_iff_exists.1 hsome
    exact .inl ⟨members, hmemoize, hmembers, supertypes_memoized hmemoize hmembers⟩
  · refine .inr fun hanswer => ?_
    have hnew : context.memoize = true → trail.memo.get? t = none := fun hmemoize =>
      Option.not_isSome_iff_eq_none.1 fun hsome => hhit ⟨hmemoize, hsome⟩
    obtain ⟨after, hrun, hmemo⟩ := supertypes_computed hnew hanswer
    refine ⟨after, ?_, fun fuel hfuel => supertypes_mono t hfuel _ _ hrun⟩
    split at hmemo
    · exact .inr hmemo
    · exact .inl hmemo

/-- If all entries of the memo have a property, and the closure of a type has it, then a closure
that is handed out has it together with an equal type, and so do all entries afterwards. -/
theorem supertypes_memoAll {holds : Ty → List Ty → Prop} {t : Ty} {fuel : Nat}
    (hnew : ∀ {members}, (context.closure fuel t).answer = some members → holds t members) :
    Ensures (MemoAll holds) (context.supertypes fuel t)
      fun members => ∃ t', (t == t') = true ∧ holds t' members := by
  intro trail hmemo members after h
  rcases supertypes_run h with ⟨t', hentry, heq, hkept⟩ | ⟨hanswer, hafter⟩
  · exact ⟨hkept ▸ hmemo, t', heq, hmemo _ hentry⟩
  · refine ⟨?_, t, BEq.rfl, hnew hanswer⟩
    rcases hafter with hkept | hadded
    · exact hkept ▸ hmemo
    · exact hadded ▸ hmemo.insertNew (hnew hanswer)

/-- If in addition the type has a closure, one is handed out. It belongs to the type itself unless
another one is memoized. -/
theorem supertypes_answers {holds : Ty → List Ty → Prop} {t : Ty} {enough : Nat}
    {members : List Ty} (hanswer : (context.closure enough t).answer = some members)
    (hnew : holds t members) {trail : Trail} (hmemo : MemoAll holds trail.memo) :
    ∃ t' found, (t == t') = true ∧ holds t' found ∧
      (context.memoize = false ∨ trail.memo.get? t = none → t' = t) ∧
      ∃ after, MemoAll holds after.memo ∧ ∃ enough, ∀ fuel, enough ≤ fuel →
        context.supertypes fuel t trail = some (found, after) := by
  rcases supertypes_hit_or_miss context t trail with ⟨found, hmemoize, hfound, hrun⟩ | hmiss
  · obtain ⟨t', hentry, heq⟩ := exists_of_lookup (TypeMap.get?_eq_lookup trail.memo t ▸ hfound)
    refine ⟨t', found, heq, hmemo _ hentry, ?_, trail, hmemo, 0, fun fuel _ => hrun fuel⟩
    rintro (hoff | hnone)
    · cases hoff.symm.trans hmemoize
    · cases hnone.symm.trans hfound
  · obtain ⟨after, hafter, hrun⟩ := hmiss hanswer
    refine ⟨t, members, BEq.rfl, hnew, fun _ => rfl, after, ?_, enough, hrun⟩
    rcases hafter with hkept | hadded
    · exact hkept ▸ hmemo
    · exact hadded ▸ hmemo.insertNew hnew

/-- A closure that is handed out is that of an equal type of the domain, and the memo goes on to
hold closures. -/
theorem supertypes_closure {domain : Ty → Prop} {t : Ty} (ht : domain t) (fuel : Nat) :
    Ensures (context.HoldsClosures domain) (context.supertypes fuel t) fun members =>
      ∃ t', domain t' ∧ (t == t') = true ∧
        ∃ enough, (context.closure enough t').answer = some members := by
  refine (supertypes_memoAll fun hanswer => ⟨ht, fuel, hanswer⟩).mono fun members hmembers => ?_
  obtain ⟨t', heq, ht', hanswer⟩ := hmembers
  exact ⟨t', ht', heq, hanswer⟩

/-- A closure that is handed out has the supertypes of the type that was asked about, and the memo
stays sound. -/
theorem supertypes_ensures (hcoherent : context.Coherent roots) {t : Ty} {fuel : Nat}
    (ht : context.Reached roots t) :
    Ensures (context.MemoSound roots) (context.supertypes fuel t) (context.Represents roots t) := by
  refine Ensures.mono (supertypes_closure ht fuel) fun members hmembers => ?_
  obtain ⟨t', ht', heq, enough, hanswer⟩ := hmembers
  exact hcoherent.represents ht ht' heq (closure_closureOf hanswer)

variable (context roots) in
/-- With some number of steps, on some trail whose memo is sound, the supertypes of a type are
listed. -/
def Lists (t : Ty) (members : List Ty) : Prop :=
  ∃ fuel trail after, context.MemoSound roots trail.memo ∧
    context.supertypes fuel t trail = some (members, after)

/-! ## Nominal containment -/

variable (context) in
/-- Some supertype of the payload erases to the name. -/
def NominallyContains (head : Named) (payload : Ty) : Prop :=
  ∃ s found, context.Supertype payload s ∧ Erases context.heap [] s (.named found) ∧
    (found == head) = true

/-- The query about the erasure of one type decides whether it is the name. -/
theorem erased_named_decides {keeps : Memo → Prop} (heap : Heap) (head : Named) (t : Ty)
    (fuel : Nat) :
    Decides keeps (erasedNamed? heap fuel t >>= fun found => pure (found.any (· == head)))
      (∃ found, Erases heap [] t (.named found) ∧ (found == head) = true)
      (∃ found, Erases heap [] t (.named found) ∧ (found == head) = true) := by
  have hquery : Oblivious (erasedNamed? heap fuel t) :=
    (erase_along_oblivious heap fuel [] t).bind fun _ => .pure _
  refine (Ensures.of_oblivious hquery).bind fun found hfound => Ensures.pure ?_
  have hmap : (erasedNamed? heap fuel t).answer =
      (eraseAlong heap fuel [] t).answer.map Ty.asNamed? :=
    (erase_along_oblivious heap fuel [] t).answer_map Ty.asNamed?
  rw [hmap] at hfound
  obtain ⟨erased, hanswer, rfl⟩ := Option.map_eq_some_iff.1 hfound
  constructor
  · intro hyes
    cases erased with
    | named found => exact ⟨found, ⟨fuel, hanswer⟩, hyes⟩
    | applied | array | var | wildcard => cases hyes
  · rintro ⟨found, herases, hyes⟩
    cases herases.unique ⟨fuel, hanswer⟩
    exact hyes

/-- The query about nominal containment decides it. -/
theorem nominallyContains_decides (hcoherent : context.Coherent roots) {payload : Ty} {fuel : Nat}
    (hpayload : context.Reached roots payload) (head : Named) :
    Decides (context.MemoSound roots) (context.nominallyContains fuel head payload)
      (context.NominallyContains head payload) (context.NominallyContains head payload) := by
  refine (supertypes_ensures hcoherent hpayload).bind fun members hmembers => ?_
  refine (Decides.anyM fun t _ => erased_named_decides context.heap head t fuel).mono ?_ ?_
  · rintro ⟨member, hmember, found, herases, hfound⟩
    obtain ⟨s, hs, heq⟩ := hmembers.sound member hmember
    obtain ⟨erased, herases', hequal⟩ := hcoherent.erases (hmembers.reached member hmember)
      (hpayload.supertype hs) .nil (BEq.symm heq) herases
    obtain ⟨found', rfl, hsame⟩ := Ty.named_beq hequal
    exact ⟨s, found', hs, herases', BEq.trans (BEq.symm hsame) hfound⟩
  · rintro ⟨s, found, hs, herases, hfound⟩
    obtain ⟨member, hmember, heq⟩ := hmembers.complete s hs
    obtain ⟨erased, herases', hequal⟩ := hcoherent.erases (hpayload.supertype hs)
      (hmembers.reached member hmember) .nil heq herases
    obtain ⟨found', rfl, hsame⟩ := Ty.named_beq hequal
    exact ⟨member, hmember, found', herases', BEq.trans (BEq.symm hsame) hfound⟩

end Nominal.Context
