import Nominal.Proofs.Instantiation
import Nominal.Specialization

/-!
# The most specialized member

Members of a list are visited one by one, and from each its supertypes among the members. A
candidate takes the place of the best one so far only if it lies below it. The invariant of the
visit is `Leading`: no candidate that was visited lies strictly below the best one. What lies below
what is `Below`, which is transitive where equal types have equal sets of direct supertypes. The
main statement is `mostSpecialized_minimal`.
-/

namespace Nominal.Context

open Query

variable {context : Context} {domain : Ty → Prop}

/-! ## Below -/

variable (context) in
/-- A type is in the closure of another one. -/
def InClosure (t s : Ty) : Prop :=
  ∃ fuel members, (context.closure fuel t).answer = some members ∧ members.contains s = true

variable (context) in
/-- A type is equal to a supertype of another one. -/
def Below (t s : Ty) : Prop := ∃ u, context.Supertype t u ∧ (u == s) = true

/-- Equal types lie below equal types. -/
theorem Below.congr (huniform : context.Uniform domain) {t t' s s' : Ty} (ht : domain t)
    (ht' : domain t') (heq : (t == t') = true) (heq' : (s == s') = true)
    (h : context.Below t s) : context.Below t' s' := by
  obtain ⟨u, hu, hequal⟩ := h
  obtain ⟨u', hu', hsame⟩ := huniform.supertype ht ht' heq hu
  exact ⟨u', hu', BEq.trans (BEq.symm hsame) (BEq.trans hequal heq')⟩

/-- What lies below a type lies below all that the type lies below. -/
theorem Below.trans (huniform : context.Uniform domain) {t s r : Ty} (ht : domain t)
    (hs : domain s) (h : context.Below t s) (h' : context.Below s r) : context.Below t r := by
  obtain ⟨u, hu, hequal⟩ := h
  have hdomain := huniform.mem_domain ht hu
  obtain ⟨v, hv, hequal'⟩ := h'.congr huniform hs hdomain (BEq.symm hequal) BEq.rfl
  exact ⟨v, hu.trans hv, hequal'⟩

/-- The closure of an equal type contains what a type lies below. -/
theorem contains_iff_below (huniform : context.Uniform domain) {t t' s : Ty} {members : List Ty}
    (ht : domain t) (ht' : domain t') (heq : (t == t') = true)
    (h : context.ClosureOf t' members) : members.contains s = true ↔ context.Below t s := by
  rw [List.contains_iff_exists_mem_beq]
  constructor
  · rintro ⟨member, hmember, hequal⟩
    have hbelow : context.Below t' s := ⟨member, h.reached member hmember, BEq.symm hequal⟩
    exact hbelow.congr huniform ht' ht (BEq.symm heq) BEq.rfl
  · rintro ⟨u, hu, hequal⟩
    obtain ⟨member, hmember, hequal'⟩ := huniform.exists_mem ht ht' heq h hu
    exact ⟨member, hmember, BEq.trans (BEq.symm hequal) hequal'⟩

/-- The closure of a type has what the type lies below. -/
theorem inClosure_iff_below (huniform : context.Uniform domain) {t s : Ty} (ht : domain t)
    (hfinite : context.FiniteClosure t) : context.InClosure t s ↔ context.Below t s := by
  constructor
  · rintro ⟨fuel, members, hanswer, hcontains⟩
    exact (contains_iff_below huniform ht ht BEq.rfl (closure_closureOf hanswer)).1 hcontains
  · intro hbelow
    obtain ⟨fuel, members, hanswer⟩ := hfinite
    exact ⟨fuel, members, hanswer,
      (contains_iff_below huniform ht ht BEq.rfl (closure_closureOf hanswer)).2 hbelow⟩

/-- Whether one type is among the supertypes of another one is found out. -/
theorem isSupertype_halts (huniform : context.Uniform domain) {below : Ty} (hbelow : domain below)
    (hfinite : context.FiniteClosure below) (above : Ty) :
    Halts (context.HoldsClosures domain) (fun fuel => context.isSupertype fuel above below)
      fun yes => yes = true ↔ context.Below below above := by
  refine (supertypes_halts hbelow hfinite).bind fun members hmembers => .pure ?_
  obtain ⟨t', ht', heq, hclosure⟩ := hmembers
  exact contains_iff_below huniform hbelow ht' heq hclosure

/-! ## Members that qualify -/

variable (context) in
/-- Whether the type erases to an interface is as asked. -/
def Qualifies (interfaces : Bool) (t : Ty) : Prop :=
  ∃ fuel, (isInterfaceLike context.heap fuel t).answer = some interfaces

/-- Whether a type qualifies is found out. -/
theorem qualifies_halts {keeps : Memo → Prop} (hformed : context.heap.Formed)
    (huniform : context.Uniform domain) {t : Ty} (ht : domain t)
    (hfinite : context.FiniteClosure t) (interfaces : Bool) :
    Halts keeps
      (fun fuel => isInterfaceLike context.heap fuel t >>= fun found => pure (found == interfaces))
      fun yes => yes = true ↔ context.Qualifies interfaces t := by
  obtain ⟨depth, hdepth⟩ := hfinite.exists_depth huniform ht
  obtain ⟨erased, enough, herased⟩ := exists_erases hformed depth hdepth []
  have hlike (fuel : Nat) : (isInterfaceLike context.heap fuel t).answer =
      (eraseAlong context.heap fuel [] t).answer.map
        (fun erased => erased.asNamed?.any Named.isInterface) := by
    rw [isInterfaceLike, erasedNamed?, erase, bind_assoc]
    exact (erase_along_oblivious context.heap fuel [] t).answer_map _
  have hquery (fuel : Nat) : (isInterfaceLike context.heap fuel t).Oblivious :=
    ((erase_along_oblivious context.heap fuel [] t).bind fun _ => .pure _).bind fun _ => .pure _
  have hmore (fuel : Nat) (hfuel : enough ≤ fuel) :
      (isInterfaceLike context.heap enough t).AnsweredBy
        (isInterfaceLike context.heap fuel t) :=
    ((erase_along_mono context.heap [] t hfuel).bind fun _ => .refl _).bind fun _ => .refl _
  have hanswer : (isInterfaceLike context.heap enough t).answer =
      some (erased.asNamed?.any Named.isInterface) := by rw [hlike, herased, Option.map_some]
  refine (Halts.of_oblivious (hquery enough) hmore hanswer).bind fun found hfound => .pure ?_
  rw [beq_iff_eq, hfound]
  constructor
  · exact fun heq => ⟨enough, heq ▸ hanswer⟩
  · rintro ⟨fuel, hother⟩
    rw [hlike] at hother
    obtain ⟨erased', herased', hinterfaces⟩ := Option.map_eq_some_iff.1 hother
    rw [← hinterfaces, Erases.unique ⟨enough, herased⟩ ⟨fuel, herased'⟩]

/-! ## The visit -/

variable (context domain) in
/-- A type of the domain with a finite closure that is equal to a qualifying member. -/
structure Candidate (qualifying : List Ty) (t : Ty) : Prop where
  domain : domain t
  finite : context.FiniteClosure t
  member : ∃ member ∈ qualifying, (t == member) = true

variable (context domain) in
/-- No two candidates lie below each other unless they are equal. -/
def Antisymmetric (qualifying : List Ty) : Prop :=
  ∀ s t, context.Candidate domain qualifying s → context.Candidate domain qualifying t →
    context.Below s t → context.Below t s → (s == t) = true

variable (context domain) in
/-- The best of the candidates that were visited: none lies strictly below it. -/
structure Leading (qualifying visited : List Ty) (best : Option Ty) : Prop where
  candidates : ∀ t ∈ visited, context.Candidate domain qualifying t
  none_iff : best = none ↔ visited = []
  candidate : ∀ {found}, best = some found → context.Candidate domain qualifying found
  lowest : ∀ {found}, best = some found → ∀ t ∈ visited, context.Below t found →
    (t == found) = true

variable {qualifying visited : List Ty} {best : Option Ty}

/-- A candidate that is passed over leaves the best one. -/
theorem Leading.keep {current candidate : Ty}
    (h : context.Leading domain qualifying visited (some current))
    (hcandidate : context.Candidate domain qualifying candidate)
    (hlowest : context.Below candidate current → (candidate == current) = true) :
    context.Leading domain qualifying (visited ++ [candidate]) (some current) where
  candidates := by
    rw [List.forall_mem_append, List.forall_mem_singleton]
    exact ⟨h.candidates, hcandidate⟩
  none_iff := by simp
  candidate := h.candidate
  lowest hfound := by
    rw [List.forall_mem_append, List.forall_mem_singleton]
    cases hfound
    exact ⟨h.lowest rfl, hlowest⟩

/-- A candidate that lies below the best one takes its place. What lies below the candidate lies
below the former best one as well, and so is equal to it; but then each lies below the other. -/
theorem Leading.replace (huniform : context.Uniform domain)
    (hantisymmetric : context.Antisymmetric domain qualifying) {candidate : Ty}
    (h : context.Leading domain qualifying visited best)
    (hcandidate : context.Candidate domain qualifying candidate)
    (hbelow : ∀ current, best = some current → context.Below candidate current) :
    context.Leading domain qualifying (visited ++ [candidate]) (some candidate) where
  candidates := by
    rw [List.forall_mem_append, List.forall_mem_singleton]
    exact ⟨h.candidates, hcandidate⟩
  none_iff := by simp
  candidate hfound := Option.some.inj hfound ▸ hcandidate
  lowest hfound := by
    cases hfound
    rw [List.forall_mem_append, List.forall_mem_singleton]
    refine ⟨fun t ht hlower => ?_, fun _ => BEq.rfl⟩
    have htcandidate := h.candidates t ht
    cases hbest : best with
    | none =>
        rw [h.none_iff.1 hbest] at ht
        cases ht
    | some current =>
        have hcurrent := h.candidate hbest
        have hfar := hlower.trans huniform htcandidate.domain hcandidate.domain
          (hbelow current hbest)
        have hsame := h.lowest hbest t ht hfar
        have hback : context.Below current candidate :=
          hlower.congr huniform htcandidate.domain hcurrent.domain hsame BEq.rfl
        exact BEq.trans hsame
          (hantisymmetric _ _ hcurrent hcandidate hback (hbelow current hbest))

/-- One candidate is visited. -/
theorem Leading.promote (huniform : context.Uniform domain)
    (hantisymmetric : context.Antisymmetric domain qualifying) {candidate : Ty}
    (h : context.Leading domain qualifying visited best)
    (hcandidate : context.Candidate domain qualifying candidate) :
    Halts (context.HoldsClosures domain) (fun fuel => context.promote fuel best candidate)
      (context.Leading domain qualifying (visited ++ [candidate])) := by
  cases best with
  | none => exact .pure (h.replace huniform hantisymmetric hcandidate fun _ => nofun)
  | some current =>
      show Halts _ (fun fuel => if (current == candidate) = true then _ else _) _
      cases heq : current == candidate with
      | true => exact .pure (h.keep hcandidate fun _ => BEq.symm heq)
      | false =>
          refine (isSupertype_halts huniform hcandidate.domain hcandidate.finite current).bind
            fun yes hyes => ?_
          cases yes with
          | true =>
              refine .pure (h.replace huniform hantisymmetric hcandidate fun other hother => ?_)
              exact Option.some.inj hother ▸ hyes.1 rfl
          | false =>
              refine .pure (h.keep hcandidate fun hbelow => ?_)
              exact absurd (hyes.2 hbelow) Bool.false_ne_true

/-- The supertypes of one member are visited, and the member is among them. -/
theorem Leading.visit (huniform : context.Uniform domain)
    (hantisymmetric : context.Antisymmetric domain qualifying) {member : Ty}
    (hmember : member ∈ qualifying) (hdomain : domain member)
    (hfinite : context.FiniteClosure member)
    (h : context.Leading domain qualifying visited best) :
    Halts (context.HoldsClosures domain)
      (fun fuel => context.supertypes fuel member >>= fun members =>
        (members.filter fun t => qualifying.contains t).foldlM (context.promote fuel) best)
      (fun best' => ∃ more, context.Leading domain qualifying (visited ++ more) best' ∧
        ∃ t ∈ more, (member == t) = true) := by
  refine (supertypes_halts hdomain hfinite).bind fun members hmembers => ?_
  obtain ⟨start, hstart, heq, hclosure⟩ := hmembers
  have hcandidate {t : Ty} (ht : t ∈ members.filter fun t => qualifying.contains t) :
      context.Candidate domain qualifying t := by
    obtain ⟨ht, hcontains⟩ := List.mem_filter.1 ht
    exact ⟨huniform.mem_domain hstart (hclosure.reached t ht),
      hclosure.finiteClosure huniform hstart ht, List.contains_iff_exists_mem_beq.1 hcontains⟩
  have hself : start ∈ members.filter fun t => qualifying.contains t := by
    refine List.mem_filter.2 ⟨hclosure.self, ?_⟩
    exact List.contains_iff_exists_mem_beq.2 ⟨member, hmember, BEq.symm heq⟩
  refine Halts.mono (Halts.foldlM
    (fun done => context.Leading domain qualifying (visited ++ done))
    (by rwa [List.append_nil]) fun {done now candidate} hmem hnow => ?_)
    fun best' hbest => ⟨_, hbest, start, hself, heq⟩
  rw [← List.append_assoc]
  exact hnow.promote huniform hantisymmetric (hcandidate hmem)

/-! ## The result -/

variable (context) in
/-- A lowest qualifying member of a list, or nothing where no member qualifies. -/
structure MostSpecialized (types : List Ty) (interfaces : Bool) (best : Option Ty) : Prop where
  none_iff : best = none ↔ ∀ t ∈ types, ¬ context.Qualifies interfaces t
  member : ∀ {found}, best = some found →
    ∃ member ∈ types, context.Qualifies interfaces member ∧ (found == member) = true
  lowest : ∀ {found}, best = some found → ∀ other ∈ types, context.Qualifies interfaces other →
    (other == found) = false → ¬ context.InClosure other found

variable {types : List Ty} {interfaces : Bool}

/-- When an equal of every qualifying member was visited, the best candidate is the result. -/
theorem Leading.mostSpecialized (huniform : context.Uniform domain)
    (hdomain : ∀ t ∈ types, domain t)
    (hmember : ∀ t ∈ qualifying, t ∈ types ∧ context.Qualifies interfaces t)
    (hcover : ∀ t ∈ types, context.Qualifies interfaces t → ∃ s ∈ visited, (t == s) = true)
    (h : context.Leading domain qualifying visited best) :
    context.MostSpecialized types interfaces best where
  none_iff := by
    rw [h.none_iff]
    constructor
    · rintro hnone t ht hqualifies
      obtain ⟨s, hs, _⟩ := hcover t ht hqualifies
      rw [hnone] at hs
      cases hs
    · intro hnone
      refine List.eq_nil_iff_forall_not_mem.2 fun t ht => ?_
      obtain ⟨member, hmem, _⟩ := (h.candidates t ht).member
      exact hnone member (hmember member hmem).1 (hmember member hmem).2
  member hfound := by
    obtain ⟨member, hmem, heq⟩ := (h.candidate hfound).member
    exact ⟨member, (hmember member hmem).1, (hmember member hmem).2, heq⟩
  lowest {found} hfound other hother hqualifies hunequal hclosure := by
    obtain ⟨t, ht, heq⟩ := hcover other hother hqualifies
    obtain ⟨fuel, members, hanswer, hcontains⟩ := hclosure
    have hbelow : context.Below other found :=
      (contains_iff_below huniform (hdomain other hother) (hdomain other hother) BEq.rfl
        (closure_closureOf hanswer)).1 hcontains
    have hlower : context.Below t found :=
      hbelow.congr huniform (hdomain other hother) (h.candidates t ht).domain heq BEq.rfl
    have hsame : (other == found) = true := BEq.trans heq (h.lowest hfound t ht hlower)
    cases hunequal.symm.trans hsame

variable (context) in
/-- No two qualifying members of a list are in the closures of each other unless they are equal. -/
def Ranked (types : List Ty) (interfaces : Bool) : Prop :=
  ∀ s ∈ types, ∀ t ∈ types, context.Qualifies interfaces s → context.Qualifies interfaces t →
    context.InClosure s t → context.InClosure t s → (s == t) = true

/-- Candidates are as unmixed as the members that they are equal to. -/
theorem Ranked.antisymmetric (huniform : context.Uniform domain)
    (hdomain : ∀ t ∈ types, domain t) (hfinite : ∀ t ∈ types, context.FiniteClosure t)
    (hmember : ∀ t ∈ qualifying, t ∈ types ∧ context.Qualifies interfaces t)
    (h : context.Ranked types interfaces) : context.Antisymmetric domain qualifying := by
  intro s t hs ht hst hts
  obtain ⟨s', hs', hseq⟩ := hs.member
  obtain ⟨t', ht', hteq⟩ := ht.member
  obtain ⟨hstypes, hsqualifies⟩ := hmember s' hs'
  obtain ⟨httypes, htqualifies⟩ := hmember t' ht'
  have hst' : context.InClosure s' t' :=
    (inClosure_iff_below huniform (hdomain s' hstypes) (hfinite s' hstypes)).2
      (hst.congr huniform hs.domain (hdomain s' hstypes) hseq hteq)
  have hts' : context.InClosure t' s' :=
    (inClosure_iff_below huniform (hdomain t' httypes) (hfinite t' httypes)).2
      (hts.congr huniform ht.domain (hdomain t' httypes) hteq hseq)
  have hsame := h s' hstypes t' httypes hsqualifies htqualifies hst' hts'
  exact BEq.trans hseq (BEq.trans hsame (BEq.symm hteq))

/-- The result is found, and it is a lowest qualifying member. -/
theorem mostSpecialized_halts (hformed : context.heap.Formed) (huniform : context.Uniform domain)
    (hdomain : ∀ t ∈ types, domain t) (hfinite : ∀ t ∈ types, context.FiniteClosure t)
    (hranked : context.Ranked types interfaces) :
    Halts (context.HoldsClosures domain)
      (fun fuel => context.mostSpecialized fuel types interfaces)
      (context.MostSpecialized types interfaces) := by
  refine Halts.bind (Halts.filterM fun t ht =>
    qualifies_halts hformed huniform (hdomain t ht) (hfinite t ht) interfaces) fun kept hkept => ?_
  have hmember (t : Ty) (ht : t ∈ Ty.distinct kept) :
      t ∈ types ∧ context.Qualifies interfaces t := (hkept t).1 (Ty.mem_of_mem_distinct ht)
  have hantisymmetric := hranked.antisymmetric huniform hdomain hfinite hmember
  -- the members that were passed so far have equals among the candidates that were visited
  refine Halts.mono (Halts.foldlM (fun done best => ∃ visited,
      context.Leading domain (Ty.distinct kept) visited best ∧
        ∀ member ∈ done, ∃ t ∈ visited, (member == t) = true)
    ⟨[], ⟨List.forall_mem_nil _, by simp, nofun, nofun⟩, List.forall_mem_nil _⟩
    fun {done best member} hmem hnow => ?_) fun best hbest => ?_
  · obtain ⟨visited, hleading, hvisited⟩ := hnow
    have htypes := (hmember member hmem).1
    refine (hleading.visit huniform hantisymmetric hmem (hdomain member htypes)
      (hfinite member htypes)).mono fun best' hbest => ?_
    obtain ⟨more, hleading', t, ht, heq⟩ := hbest
    refine ⟨visited ++ more, hleading', ?_⟩
    rw [List.forall_mem_append, List.forall_mem_singleton]
    refine ⟨fun earlier hearlier => ?_, t, List.mem_append_right _ ht, heq⟩
    obtain ⟨s, hs, hequal⟩ := hvisited earlier hearlier
    exact ⟨s, List.mem_append_left _ hs, hequal⟩
  · obtain ⟨visited, hleading, hvisited⟩ := hbest
    refine hleading.mostSpecialized huniform hdomain hmember fun t ht hqualifies => ?_
    obtain ⟨member, hmem, heq⟩ := Ty.exists_mem_distinct ((hkept t).2 ⟨ht, hqualifies⟩)
    obtain ⟨s, hs, hequal⟩ := hvisited member hmem
    exact ⟨s, hs, BEq.trans heq hequal⟩

/-- Where equal types have equal sets of direct supertypes and no two unequal qualifying members lie
below each other, the most specialized member of a list is nothing exactly if no member qualifies,
and otherwise a qualifying member that is in the closure of no other one. A qualifying member whose
closure has all the others is found in whatever order the list is. -/
theorem mostSpecialized_minimal (hformed : context.heap.Formed)
    (huniform : context.Uniform domain) (hdomain : ∀ t ∈ types, domain t)
    (hfinite : ∀ t ∈ types, context.FiniteClosure t) (hranked : context.Ranked types interfaces) :
    Halts (context.HoldsClosures domain)
      (fun fuel => context.mostSpecialized fuel types interfaces)
      (context.MostSpecialized types interfaces) ∧
    ∀ least ∈ types, context.Qualifies interfaces least →
      (∀ other ∈ types, context.Qualifies interfaces other → context.InClosure least other) →
      ∀ order, types.Perm order →
        Halts (context.HoldsClosures domain)
          (fun fuel => context.mostSpecialized fuel order interfaces)
          (fun best => ∃ found, best = some found ∧ (found == least) = true) := by
  refine ⟨mostSpecialized_halts hformed huniform hdomain hfinite hranked, ?_⟩
  intro least hleast hqualifies hall order horder
  -- what is assumed of the list does not depend on its order
  have hmem {t : Ty} (ht : t ∈ order) : t ∈ types := horder.mem_iff.2 ht
  refine (mostSpecialized_halts hformed huniform (fun t ht => hdomain t (hmem ht))
    (fun t ht => hfinite t (hmem ht))
    (fun s hs t ht => hranked s (hmem hs) t (hmem ht))).mono fun best hbest => ?_
  cases best with
  | none => exact absurd hqualifies (hbest.none_iff.1 rfl least (horder.mem_iff.1 hleast))
  | some found =>
      refine ⟨found, rfl, ?_⟩
      obtain ⟨member, hmember, hqualified, heq⟩ := hbest.member rfl
      obtain ⟨fuel, members, hanswer, hcontains⟩ := hall member (hmem hmember) hqualified
      have hfound : context.InClosure least found := by
        obtain ⟨other, hother, hequal⟩ := List.contains_iff_exists_mem_beq.1 hcontains
        exact ⟨fuel, members, hanswer,
          List.contains_iff_exists_mem_beq.2 ⟨other, hother, BEq.trans heq hequal⟩⟩
      by_contra hunequal
      have hother : (least == found) = false := Bool.eq_false_iff.2 fun h => hunequal (BEq.symm h)
      exact hbest.lowest rfl least (horder.mem_iff.1 hleast) hqualifies hother hfound

/-! ## A kite -/

/-- A class with two classes above it that share the class above them. -/
def kite : Context where
  env := {
    find? := fun name =>
      if name = "D" then some ⟨plainClass "D", [], none, [.named (plainClass "B"),
        .named (plainClass "C")]⟩
      else if name = "B" ∨ name = "C" then
        some ⟨plainClass name, [], some (.named (plainClass "A")), []⟩
      else if name = "A" then some ⟨plainClass "A", [], none, []⟩
      else none
    cloneable := .cloneable
    serializable := .serializable }
  heap := ⟨#[], []⟩
  memoize := true

/-- How far a class of the kite is from the universal supertype. -/
def kiteHeight (name : String) : Nat :=
  if name = "D" then 3 else if name = "B" ∨ name = "C" then 2 else if name = "A" then 1 else 0

/-- The classes of the kite and the universal supertype. -/
def InKite (t : Ty) : Prop :=
  ∃ name ∈ ["A", "B", "C", "D", Named.topName], t = .named (plainClass name)

/-- Each step upwards in the kite leads to a class of less height. -/
theorem kite_direct {name : String} (hname : name ∈ ["A", "B", "C", "D", Named.topName]) {s : Ty}
    (h : kite.Direct (.named (plainClass name)) s) :
    ∃ above ∈ ["A", "B", "C", "D", Named.topName],
      s = .named (plainClass above) ∧ kiteHeight above < kiteHeight name := by
  obtain ⟨types, htypes, hs⟩ := h
  simp only [List.mem_cons, List.not_mem_nil, or_false] at hname
  rcases hname with rfl | rfl | rfl | rfl | rfl
  · cases htypes.unique ⟨1, rfl⟩
    exact ⟨Named.topName, by simp, List.mem_singleton.1 hs, by decide⟩
  · cases htypes.unique ⟨1, rfl⟩
    exact ⟨"A", by simp, List.mem_singleton.1 hs, by decide⟩
  · cases htypes.unique ⟨1, rfl⟩
    exact ⟨"A", by simp, List.mem_singleton.1 hs, by decide⟩
  · cases htypes.unique ⟨1, rfl⟩
    rcases List.mem_cons.1 hs with rfl | hs
    · exact ⟨"B", by simp, rfl, by decide⟩
    · exact ⟨"C", by simp, List.mem_singleton.1 hs, by decide⟩
  · cases htypes.unique ⟨1, rfl⟩
    cases hs

/-- In the kite equal types are the same. -/
theorem kite_uniform : kite.Uniform InKite where
  direct := by
    rintro t s ⟨name, hname, rfl⟩ hdirect
    obtain ⟨above, habove, rfl, _⟩ := kite_direct hname hdirect
    exact ⟨above, habove, rfl⟩
  directs := by
    rintro t t' types ⟨name, _, rfl⟩ ⟨name', _, rfl⟩ heq h
    obtain ⟨_, hsame, hname⟩ := Ty.named_beq heq
    cases hsame
    cases (Named.beq_iff.1 hname : name = name')
    exact ⟨types, h, fun _ => rfl⟩

/-- A supertype in the kite is the type itself or has less height. -/
theorem kite_supertype {name : String} (hname : name ∈ ["A", "B", "C", "D", Named.topName])
    {s : Ty} (h : kite.Supertype (.named (plainClass name)) s) :
    ∃ above ∈ ["A", "B", "C", "D", Named.topName],
      s = .named (plainClass above) ∧ (above = name ∨ kiteHeight above < kiteHeight name) := by
  induction h with
  | refl => exact ⟨name, hname, rfl, .inl rfl⟩
  | tail _ hdirect ih =>
      obtain ⟨middle, hmiddle, rfl, hheight⟩ := ih
      obtain ⟨above, habove, rfl, hlower⟩ := kite_direct hmiddle hdirect
      refine ⟨above, habove, rfl, .inr ?_⟩
      rcases hheight with rfl | hheight
      · exact hlower
      · omega

/-- No two classes of the kite lie below each other. -/
theorem kite_ranked {types : List Ty} (htypes : ∀ t ∈ types, InKite t) (interfaces : Bool) :
    kite.Ranked types interfaces := by
  have hheight {s t : Ty} (hs : InKite s) (ht : InKite t) (h : kite.InClosure s t) :
      ∃ name above, s = .named (plainClass name) ∧ t = .named (plainClass above) ∧
        (above = name ∨ kiteHeight above < kiteHeight name) := by
    obtain ⟨name, hname, rfl⟩ := hs
    obtain ⟨other, _, rfl⟩ := ht
    obtain ⟨fuel, members, hanswer, hcontains⟩ := h
    obtain ⟨member, hmember, heq⟩ := List.contains_iff_exists_mem_beq.1 hcontains
    obtain ⟨above, _, rfl, hheight⟩ :=
      kite_supertype hname ((closure_closureOf hanswer).reached member hmember)
    obtain ⟨_, hsame, hequal⟩ := Ty.named_beq heq
    cases hsame
    cases (Named.beq_iff.1 hequal : other = above)
    exact ⟨name, other, rfl, rfl, hheight⟩
  intro s hs t ht _ _ hst hts
  obtain ⟨name, above, rfl, rfl, habove⟩ := hheight (htypes s hs) (htypes t ht) hst
  obtain ⟨_, _, heq, heq', hback⟩ := hheight (htypes _ ht) (htypes _ hs) hts
  cases heq
  cases heq'
  rcases habove with rfl | habove
  · exact BEq.rfl
  · rcases hback with rfl | hback
    · exact BEq.rfl
    · omega

/-- The lowest class of the kite is found wherever it stands, also where classes repeat and others
were the best ones before it. -/
theorem kite_lowest_found :
    Halts (kite.HoldsClosures InKite)
      (fun fuel => kite.mostSpecialized fuel
        (["C", "A", "D", "B", "A"].map fun name => .named (plainClass name)) false)
      (fun best => ∃ found, best = some found ∧ (found == .named (plainClass "D")) = true) := by
  have hcases {t : Ty}
      (ht : t ∈ ["A", "A", "B", "C", "D"].map fun name => .named (plainClass name)) :
      ∃ name ∈ ["A", "B", "C", "D"], t = .named (plainClass name) := by
    obtain ⟨name, hname, rfl⟩ := List.mem_map.1 ht
    exact ⟨name, by simpa using hname, rfl⟩
  have hkite : ∀ t ∈ ["A", "A", "B", "C", "D"].map fun name => .named (plainClass name),
      InKite t := by
    intro t ht
    obtain ⟨name, hname, rfl⟩ := hcases ht
    exact ⟨name, List.mem_append_left [Named.topName] hname, rfl⟩
  have hclosures (t : Ty)
      (ht : t ∈ ["A", "A", "B", "C", "D"].map fun name => .named (plainClass name)) :
      kite.FiniteClosure t ∧ kite.InClosure (.named (plainClass "D")) t := by
    obtain ⟨name, hname, rfl⟩ := hcases ht
    simp only [List.mem_cons, List.not_mem_nil, or_false] at hname
    rcases hname with rfl | rfl | rfl | rfl <;> exact ⟨⟨6, _, rfl⟩, 6, _, rfl, rfl⟩
  have horder : ["A", "A", "B", "C", "D"].Perm ["C", "A", "D", "B", "A"] := by decide
  exact (mostSpecialized_minimal Heap.formed_empty kite_uniform hkite
    (fun t ht => (hclosures t ht).1) (kite_ranked hkite false)).2 _
    (List.mem_map_of_mem (by simp)) ⟨1, rfl⟩ (fun t ht _ => (hclosures t ht).2) _ (horder.map _)

end Nominal.Context
