import Mathlib.Data.List.Forall2
import Nominal.Query

/-!
# What queries answer

Statements about queries that do not mention how they are written. An `Oblivious` query neither
reads nor changes memoized closures, so that `answer` is what it answers on every trail. `Ensures`
says what holds of an answer if there is one, `Decides` what a yes-or-no answer says, and `Halts`
that there is an answer once enough steps are allowed. Each comes with a rule for every way in which
queries are put together.
-/

namespace Nominal.Query

variable {α β : Type}

/-- A query that starts with another one answers only if that one does. -/
theorem bind_some {query : Query α} {next : α → Query β} {trail : Trail} {result : β × Trail}
    (h : (query >>= next) trail = some result) :
    ∃ first between, query trail = some (first, between) ∧ next first between = some result := by
  change (query trail).bind (fun pair => next pair.1 pair.2) = some result at h
  obtain ⟨⟨first, between⟩, hfirst, hnext⟩ := Option.bind_eq_some_iff.1 h
  exact ⟨first, between, hfirst, hnext⟩

/-- A query and what follows it run one after the other. -/
theorem bind_of_some {query : Query α} {next : α → Query β} {trail between : Trail} {first : α}
    (h : query trail = some (first, between)) : (query >>= next) trail = next first between := by
  change (query trail).bind (fun pair => next pair.1 pair.2) = _
  rw [h, Option.bind_some]

/-! ## Queries without memory -/

/-- What a query answers when nothing is memoized. -/
def answer (query : Query α) : Option α := (query .empty).map Prod.fst

/-- The query answers the same on every trail and leaves the memoized closures alone. -/
def Oblivious (query : Query α) : Prop :=
  ∀ trail, (query trail).map (fun result => (result.1, result.2.memo)) =
    query.answer.map (fun first => (first, trail.memo))

namespace Oblivious

/-- An answer that is given on one trail is the answer. -/
theorem answer_eq {query : Query α} (hquery : Oblivious query) {trail after : Trail} {first : α}
    (h : query trail = some (first, after)) :
    query.answer = some first ∧ after.memo = trail.memo := by
  have heq := hquery trail
  rw [h] at heq
  cases hanswer : query.answer with
  | none => simp [hanswer] at heq
  | some other =>
      simp only [hanswer, Option.map_some, Option.some.injEq, Prod.mk.injEq] at heq
      exact ⟨by rw [heq.1], heq.2⟩

/-- The answer is given on every trail. -/
theorem run_eq {query : Query α} (hquery : Oblivious query) {first : α}
    (h : query.answer = some first) (trail : Trail) :
    ∃ after, query trail = some (first, after) ∧ after.memo = trail.memo := by
  have heq := hquery trail
  rw [h] at heq
  cases hrun : query trail with
  | none => simp [hrun] at heq
  | some result =>
      obtain ⟨other, after⟩ := result
      simp only [hrun, Option.map_some, Option.some.injEq, Prod.mk.injEq] at heq
      exact ⟨after, by rw [heq.1], heq.2⟩

/-- A query is oblivious when its answers and its memos are those of one outcome. -/
theorem of_outcome {query : Query α} {outcome : Option α}
    (h : ∀ trail, (query trail).map (fun result => (result.1, result.2.memo)) =
      outcome.map (fun first => (first, trail.memo))) :
    Oblivious query ∧ query.answer = outcome := by
  have hanswer : query.answer = outcome := by
    have hempty := congrArg (Option.map Prod.fst) (h .empty)
    simpa [answer, Option.map_map, Function.comp_def] using hempty
  exact ⟨fun trail => by rw [h trail, hanswer], hanswer⟩

/-- Giving a value is oblivious. -/
theorem pure (first : α) : Oblivious (Pure.pure first : Query α) := fun _ => rfl

/-- Running out of steps is oblivious. -/
theorem exhausted : Oblivious (Query.exhausted : Query α) := fun _ => rfl

/-- Reporting an event is oblivious. -/
theorem report (event : Event) : Oblivious (Query.report event) := fun _ => rfl

/-- Reading bounds is oblivious. -/
theorem bounds (heap : Heap) (param : TypeVar) : Oblivious (Query.bounds heap param) := fun _ => rfl

/-- Oblivious queries run one after the other are oblivious and pass their answers on. -/
theorem bind_outcome {query : Query α} {next : α → Query β} (hquery : Oblivious query)
    (hnext : ∀ first, Oblivious (next first)) :
    Oblivious (query >>= next) ∧
      (query >>= next).answer = query.answer.bind (fun first => (next first).answer) := by
  apply of_outcome
  intro trail
  -- the two runs must fail together, so both outcomes of the first are compared with its answer
  change ((query trail).bind (fun pair => next pair.1 pair.2)).map _ = _
  cases hrun : query trail with
  | none =>
      have hanswer : query.answer = none := by
        cases h : query.answer with
        | none => rfl
        | some first =>
            obtain ⟨after, hafter, _⟩ := hquery.run_eq h trail
            rw [hrun] at hafter
            cases hafter
      simp [hanswer]
  | some result =>
      obtain ⟨first, between⟩ := result
      obtain ⟨hanswer, hmemo⟩ := hquery.answer_eq hrun
      have hlast := hnext first between
      rw [hmemo] at hlast
      simpa [hanswer] using hlast

/-- Oblivious queries run one after the other are oblivious. -/
theorem bind {query : Query α} {next : α → Query β} (hquery : Oblivious query)
    (hnext : ∀ first, Oblivious (next first)) : Oblivious (query >>= next) :=
  (bind_outcome hquery hnext).1

/-- The answer of two oblivious queries run one after the other. -/
theorem answer_bind {query : Query α} {next : α → Query β} (hquery : Oblivious query)
    (hnext : ∀ first, Oblivious (next first)) :
    (query >>= next).answer = query.answer.bind (fun first => (next first).answer) :=
  (bind_outcome hquery hnext).2

/-- Changing the value that an oblivious query gives changes its answer. -/
theorem answer_map {query : Query α} (hquery : Oblivious query) (change : α → β) :
    (query >>= fun first => Pure.pure (change first)).answer = query.answer.map change := by
  rw [hquery.answer_bind fun _ => pure _]
  cases query.answer <;> rfl

/-- Asking an oblivious query about each member of a list is oblivious. -/
theorem mapM {query : α → Query β} (hquery : ∀ first, Oblivious (query first)) (list : List α) :
    Oblivious (list.mapM query) := by
  induction list with
  | nil => exact pure []
  | cons first rest ih =>
      rw [List.mapM_cons]
      exact (hquery first).bind fun _ => ih.bind fun _ => pure _

/-- The answer about a list is the list of the answers about its members. -/
theorem answer_mapM {query : α → Query β} (hquery : ∀ first, Oblivious (query first))
    {list : List α} {answers : List β} :
    (list.mapM query).answer = some answers ↔
      List.Forall₂ (fun member first => (query member).answer = some first) list answers := by
  induction list generalizing answers with
  | nil =>
      rw [List.mapM_nil, List.forall₂_nil_left_iff]
      exact ⟨fun h => (Option.some.inj h).symm, fun h => h ▸ rfl⟩
  | cons member rest ih =>
      rw [List.mapM_cons,
        (hquery member).answer_bind fun _ => (mapM hquery rest).bind fun _ => pure _,
        Option.bind_eq_some_iff, List.forall₂_cons_left_iff]
      refine exists_congr fun first => ?_
      rw [(mapM hquery rest).answer_bind fun _ => pure _, Option.bind_eq_some_iff]
      constructor
      · rintro ⟨hfirst, others, hothers, h⟩
        exact ⟨others, hfirst, ih.1 hothers, (Option.some.inj h).symm⟩
      · rintro ⟨others, hfirst, hothers, rfl⟩
        exact ⟨hfirst, others, ih.2 hothers, rfl⟩

end Oblivious

/-- The answer that needs no question. -/
@[simp]
theorem answer_pure (first : α) : (pure first : Query α).answer = some first := rfl

/-- What a reader of the bounds sees is the answer. -/
@[simp]
theorem answer_bounds (heap : Heap) (param : TypeVar) :
    (bounds heap param).answer = some (heap.bounds param) := rfl

/-! ## More steps -/

/-- Whatever the first query answers, the second answers too, and leaves the same trail. -/
def AnsweredBy (query better : Query α) : Prop :=
  ∀ trail result, query trail = some result → better trail = some result

namespace AnsweredBy

/-- A query answers what it answers. -/
theorem refl (query : Query α) : AnsweredBy query query := fun _ _ h => h

/-- A query that has no steps answers nothing. -/
theorem exhausted (query : Query α) : AnsweredBy Query.exhausted query := fun _ _ h => by cases h

/-- Better parts make a better whole. -/
theorem bind {query better : Query α} {next next' : α → Query β} (hquery : AnsweredBy query better)
    (hnext : ∀ first, AnsweredBy (next first) (next' first)) :
    AnsweredBy (query >>= next) (better >>= next') := by
  intro trail result h
  obtain ⟨first, between, hfirst, hlast⟩ := bind_some h
  rw [bind_of_some (hquery trail _ hfirst)]
  exact hnext first between result hlast

/-- Better answers about the members make a better answer about the list. -/
theorem mapM {query better : α → Query β}
    (hquery : ∀ first, AnsweredBy (query first) (better first))
    (list : List α) : AnsweredBy (list.mapM query) (list.mapM better) := by
  induction list with
  | nil => exact refl _
  | cons first rest ih =>
      rw [List.mapM_cons, List.mapM_cons]
      exact (hquery first).bind fun _ => ih.bind fun _ => refl _

/-- A better query has the same answer. -/
theorem answer_eq {query better : Query α} (hquery : AnsweredBy query better) {first : α}
    (h : query.answer = some first) : better.answer = some first := by
  obtain ⟨⟨other, after⟩, hrun, rfl⟩ := Option.map_eq_some_iff.1 h
  rw [answer, hquery _ _ hrun, Option.map_some]

/-- If one step more is always better, any number of steps more is. -/
theorem of_succ {query : Nat → Query α} (h : ∀ fuel, AnsweredBy (query fuel) (query (fuel + 1)))
    {fewer more : Nat} (hle : fewer ≤ more) : AnsweredBy (query fewer) (query more) := by
  induction hle with
  | refl => exact refl _
  | step _ ih => exact fun trail result hrun => h _ trail result (ih trail result hrun)

end AnsweredBy

/-! ## Answers if there are any -/

/-- If the query answers on a trail with such a memo, it leaves such a memo, and its answer has the
property. -/
def Ensures (keeps : Memo → Prop) (query : Query α) (post : α → Prop) : Prop :=
  ∀ trail, keeps trail.memo → ∀ first after, query trail = some (first, after) →
    keeps after.memo ∧ post first

variable {keeps : Memo → Prop}

namespace Ensures

/-- An oblivious query ensures its answer. -/
theorem of_oblivious {query : Query α} (hquery : Oblivious query) :
    Ensures keeps query (fun first => query.answer = some first) := by
  intro trail hkeeps first after h
  obtain ⟨hanswer, hmemo⟩ := hquery.answer_eq h
  exact ⟨hmemo ▸ hkeeps, hanswer⟩

/-- What holds of a value is ensured by giving it. -/
theorem pure {post : α → Prop} {first : α} (h : post first) :
    Ensures keeps (Pure.pure first) post := by
  intro trail hkeeps other after heq
  cases heq
  exact ⟨hkeeps, h⟩

/-- Nothing is answered without steps. -/
theorem exhausted {post : α → Prop} : Ensures keeps Query.exhausted post := by
  intro trail _ first after h
  cases h

/-- What follows a query may rely on what the query ensures. -/
theorem bind {query : Query α} {next : α → Query β} {mid : α → Prop} {post : β → Prop}
    (hquery : Ensures keeps query mid)
    (hnext : ∀ first, mid first → Ensures keeps (next first) post) :
    Ensures keeps (query >>= next) post := by
  intro trail hkeeps last after h
  obtain ⟨first, between, hfirst, hlast⟩ := bind_some h
  obtain ⟨hbetween, hmid⟩ := hquery trail hkeeps first between hfirst
  exact hnext first hmid between hbetween last after hlast

/-- What is ensured may be weakened. -/
theorem mono {query : Query α} {post weaker : α → Prop} (hquery : Ensures keeps query post)
    (h : ∀ first, post first → weaker first) : Ensures keeps query weaker := by
  intro trail hkeeps first after hrun
  obtain ⟨hafter, hpost⟩ := hquery trail hkeeps first after hrun
  exact ⟨hafter, h first hpost⟩

/-- A query whose answers would have an impossible property has none. -/
theorem eq_none {query : Query α} (hquery : Ensures keeps query fun _ => False) {trail : Trail}
    (hkeeps : keeps trail.memo) : query trail = none :=
  Option.eq_none_iff_forall_ne_some.2 fun result hrun =>
    (hquery trail hkeeps result.1 result.2 hrun).2

/-- What follows a query without an answer is not come to. -/
theorem bind_never {query : Query α} {next : α → Query β} {post : β → Prop}
    (hquery : Ensures keeps query fun _ => False) : Ensures keeps (query >>= next) post :=
  hquery.bind fun _ => False.elim

/-- The search of a list has no answer if there is none about a member before which nothing is
accepted. -/
theorem anyM_never {check : α → Query Bool} (before : List α) {member : α} {rest : List α}
    (hbefore : ∀ first ∈ before, Ensures keeps (check first) fun yes => yes = false)
    (hmember : Ensures keeps (check member) fun _ => False) :
    Ensures keeps ((before ++ member :: rest).anyM check) fun _ => False := by
  induction before with
  | nil =>
      rw [List.nil_append, List.anyM_cons]
      exact hmember.bind_never
  | cons first before ih =>
      rw [List.forall_mem_cons] at hbefore
      rw [List.cons_append, List.anyM_cons]
      refine hbefore.1.bind fun yes hyes => ?_
      rw [hyes]
      exact ih hbefore.2

end Ensures

/-- The query answers yes only if that is possible, and no only if yes is not certain. -/
def Decides (keeps : Memo → Prop) (query : Query Bool) (possible certain : Prop) : Prop :=
  Ensures keeps query (fun yes => (yes = true → possible) ∧ (certain → yes = true))

namespace Decides

variable {query second : Query Bool} {possible certain possible' certain' : Prop}

/-- What may be possible can be widened and what must be certain narrowed. -/
theorem mono (hquery : Decides keeps query possible certain) (hpossible : possible → possible')
    (hcertain : certain' → certain) : Decides keeps query possible' certain' :=
  Ensures.mono hquery fun _ h => ⟨fun hyes => hpossible (h.1 hyes), fun hc => h.2 (hcertain hc)⟩

/-- A query without steps decides everything. -/
theorem exhausted : Decides keeps Query.exhausted possible certain := Ensures.exhausted

/-- A given truth value decides whether it is true. -/
theorem pure (yes : Bool) : Decides keeps (Pure.pure yes) (yes = true) (yes = true) :=
  Ensures.pure ⟨id, id⟩

/-- To say no is to decide something that cannot be. -/
theorem no : Decides keeps (Pure.pure false) False False :=
  Ensures.pure ⟨Bool.false_ne_true, False.elim⟩

/-- To say yes is to decide something that must be. -/
theorem yes : Decides keeps (Pure.pure true) True True :=
  Ensures.pure ⟨fun _ => trivial, fun _ => rfl⟩

/-- Asking a second question only after a yes decides the conjunction. -/
theorem and (hquery : Decides keeps query possible certain)
    (hsecond : Decides keeps second possible' certain') :
    Decides keeps (query >>= fun yes => if yes = true then second else Pure.pure false)
      (possible ∧ possible') (certain ∧ certain') := by
  apply Ensures.bind hquery
  intro yes hyes
  cases yes with
  | true => exact hsecond.mono (fun h => ⟨hyes.1 rfl, h⟩) And.right
  | false => exact no.mono False.elim (fun h => Bool.false_ne_true (hyes.2 h.1))

/-- Asking a second question only after a no decides the disjunction. -/
theorem or (hquery : Decides keeps query possible certain)
    (hsecond : Decides keeps second possible' certain') :
    Decides keeps (query >>= fun yes => if yes = true then Pure.pure true else second)
      (possible ∨ possible') (certain ∨ certain') := by
  apply Ensures.bind hquery
  intro yes hyes
  cases yes with
  | true => exact Decides.yes.mono (fun _ => .inl (hyes.1 rfl)) (fun _ => trivial)
  | false =>
      exact hsecond.mono .inr (Or.resolve_left · fun h => Bool.false_ne_true (hyes.2 h))

/-- Searching a list decides whether some member is accepted. -/
theorem anyM {check : α → Query Bool} {may must : α → Prop} {list : List α}
    (hcheck : ∀ member ∈ list, Decides keeps (check member) (may member) (must member)) :
    Decides keeps (list.anyM check) (∃ member ∈ list, may member)
      (∃ member ∈ list, must member) := by
  induction list with
  | nil => exact no.mono False.elim (fun ⟨_, h, _⟩ => by cases h)
  | cons first rest ih =>
      have hrest := ih fun member h => hcheck member (List.mem_cons_of_mem _ h)
      rw [List.anyM_cons]
      refine ((hcheck first List.mem_cons_self).or hrest).mono ?_ ?_
      · rintro (h | ⟨member, hmember, h⟩)
        · exact ⟨first, List.mem_cons_self, h⟩
        · exact ⟨member, List.mem_cons_of_mem _ hmember, h⟩
      · rintro ⟨member, hmember, h⟩
        rcases List.mem_cons.1 hmember with rfl | hmember
        · exact .inl h
        · exact .inr ⟨member, hmember, h⟩

/-- Going through a list decides whether all members are accepted. -/
theorem allM {check : α → Query Bool} {may must : α → Prop} {list : List α}
    (hcheck : ∀ member ∈ list, Decides keeps (check member) (may member) (must member)) :
    Decides keeps (list.allM check) (∀ member ∈ list, may member)
      (∀ member ∈ list, must member) := by
  induction list with
  | nil => exact Decides.yes.mono (fun _ _ h => by cases h) (fun _ => trivial)
  | cons first rest ih =>
      have hrest := ih fun member h => hcheck member (List.mem_cons_of_mem _ h)
      rw [List.allM_cons]
      exact ((hcheck first List.mem_cons_self).and hrest).mono List.forall_mem_cons.2
        List.forall_mem_cons.1

end Decides

/-! ## Answers that are given -/

/-- From every trail with such a memo the query answers, always the same once it may take enough
steps; it leaves such a memo, and its answer has the property. -/
def Halts (keeps : Memo → Prop) (query : Nat → Query α) (post : α → Prop) : Prop :=
  ∀ trail, keeps trail.memo → ∃ first after, keeps after.memo ∧ post first ∧
    ∃ enough, ∀ fuel, enough ≤ fuel → query fuel trail = some (first, after)

namespace Halts

/-- A value is given at once. -/
theorem pure {post : α → Prop} {first : α} (h : post first) :
    Halts keeps (fun _ => Pure.pure first) post :=
  fun trail hkeeps => ⟨first, trail, hkeeps, h, 0, fun _ _ => rfl⟩

/-- An oblivious query that answers with some number of steps, and the same with more, halts. -/
theorem of_oblivious {query : Nat → Query α} {first : α} {enough : Nat}
    (hquery : Oblivious (query enough))
    (hmore : ∀ fuel, enough ≤ fuel → AnsweredBy (query enough) (query fuel))
    (hanswer : (query enough).answer = some first) :
    Halts keeps query (fun other => other = first) := by
  intro trail hkeeps
  obtain ⟨after, hrun, hmemo⟩ := hquery.run_eq hanswer trail
  exact ⟨first, after, hmemo ▸ hkeeps, rfl, enough, fun fuel hfuel => hmore fuel hfuel _ _ hrun⟩

/-- An oblivious query that takes no steps halts with its answer. -/
theorem of_answer {query : Query α} (hquery : Oblivious query) {first : α}
    (hanswer : query.answer = some first) :
    Halts keeps (fun _ => query) (fun other => other = first) := by
  intro trail hkeeps
  obtain ⟨after, hrun, hmemo⟩ := hquery.run_eq hanswer trail
  exact ⟨first, after, hmemo ▸ hkeeps, rfl, 0, fun _ _ => hrun⟩

/-- What follows a query that halts may rely on what it ensures. -/
theorem bind {query : Nat → Query α} {next : Nat → α → Query β} {mid : α → Prop} {post : β → Prop}
    (hquery : Halts keeps query mid)
    (hnext : ∀ first, mid first → Halts keeps (fun fuel => next fuel first) post) :
    Halts keeps (fun fuel => query fuel >>= next fuel) post := by
  intro trail hkeeps
  obtain ⟨first, between, hbetween, hmid, enough, hrun⟩ := hquery trail hkeeps
  obtain ⟨last, after, hafter, hpost, enough', hrun'⟩ := hnext first hmid between hbetween
  refine ⟨last, after, hafter, hpost, max enough enough', fun fuel hfuel => ?_⟩
  show (query fuel >>= next fuel) trail = some (last, after)
  rw [bind_of_some (hrun fuel (Nat.le_trans (Nat.le_max_left ..) hfuel))]
  exact hrun' fuel (Nat.le_trans (Nat.le_max_right ..) hfuel)

/-- What is ensured may be weakened. -/
theorem mono {query : Nat → Query α} {post weaker : α → Prop} (hquery : Halts keeps query post)
    (h : ∀ first, post first → weaker first) : Halts keeps query weaker := by
  intro trail hkeeps
  obtain ⟨first, after, hafter, hpost, hrun⟩ := hquery trail hkeeps
  exact ⟨first, after, hafter, h first hpost, hrun⟩

/-- A query may spend a step before it starts. -/
theorem step {query : Nat → Query α} {post : α → Prop}
    (h : Halts keeps (fun fuel => query (fuel + 1)) post) : Halts keeps query post := by
  intro trail hkeeps
  obtain ⟨first, after, hafter, hpost, enough, hrun⟩ := h trail hkeeps
  refine ⟨first, after, hafter, hpost, enough + 1, fun fuel hfuel => ?_⟩
  obtain ⟨fuel, rfl⟩ : ∃ less, fuel = less + 1 := ⟨fuel - 1, by omega⟩
  exact hrun fuel (by omega)

/-- A query that halts does so with a step more at hand. -/
theorem ahead {query : Nat → Query α} {post : α → Prop} (h : Halts keeps query post) :
    Halts keeps (fun fuel => query (fuel + 1)) post := by
  intro trail hkeeps
  obtain ⟨first, after, hafter, hpost, enough, hrun⟩ := h trail hkeeps
  exact ⟨first, after, hafter, hpost, enough, fun fuel hfuel => hrun (fuel + 1) (by omega)⟩

/-- A fold halts if its steps do, with what the steps carry from one part of the list to the
next. -/
theorem foldlM {next : Nat → β → α → Query β} {list : List α} {start : β}
    (holds : List α → β → Prop) (hstart : holds [] start)
    (hnext : ∀ {done now member}, member ∈ list → holds done now →
      Halts keeps (fun fuel => next fuel now member) (holds (done ++ [member]))) :
    Halts keeps (fun fuel => list.foldlM (next fuel) start) (holds list) := by
  -- the part of the list that lies behind is carried along
  have hrest : ∀ (rest done : List α) {now : β}, list = done ++ rest → holds done now →
      Halts keeps (fun fuel => rest.foldlM (next fuel) now) (holds list) := by
    intro rest
    induction rest with
    | nil =>
        intro done now hlist hnow
        rw [List.append_nil] at hlist
        exact .pure (hlist ▸ hnow)
    | cons member rest ih =>
        intro done now hlist hnow
        simp only [List.foldlM_cons]
        have hmember : member ∈ list := by simp [hlist]
        refine (hnext hmember hnow).bind fun later hlater => ?_
        exact ih (done ++ [member]) (by simp [hlist]) hlater
  exact hrest list [] rfl hstart

/-- A search says yes if it ends before a member that is accepted. -/
theorem anyM_yes {check : Nat → α → Query Bool} (before : List α) {found : α} {after : List α}
    (hbefore : ∀ member ∈ before, Halts keeps (fun fuel => check fuel member) fun _ => True)
    (hfound : Halts keeps (fun fuel => check fuel found) fun yes => yes = true) :
    Halts keeps (fun fuel => (before ++ found :: after).anyM (check fuel))
      fun yes => yes = true := by
  induction before with
  | nil =>
      simp only [List.nil_append, List.anyM_cons]
      refine hfound.bind fun yes hyes => ?_
      subst hyes
      exact .pure rfl
  | cons first rest ih =>
      rw [List.forall_mem_cons] at hbefore
      simp only [List.cons_append, List.anyM_cons]
      refine hbefore.1.bind fun yes _ => ?_
      cases yes with
      | true => exact .pure rfl
      | false => exact ih hbefore.2

/-- Going through a list says yes if every check does. -/
theorem allM_yes {check : Nat → α → Query Bool} {list : List α}
    (h : ∀ member ∈ list, Halts keeps (fun fuel => check fuel member) fun yes => yes = true) :
    Halts keeps (fun fuel => list.allM (check fuel)) fun yes => yes = true := by
  induction list with
  | nil => exact .pure rfl
  | cons first rest ih =>
      rw [List.forall_mem_cons] at h
      simp only [List.allM_cons]
      refine h.1.bind fun yes hyes => ?_
      subst hyes
      exact ih h.2

/-- Asking for every member of a list halts if each question does, with answers for the members in
their order. -/
theorem mapM {query : Nat → α → Query β} {list : List α} {post : α → β → Prop}
    (h : ∀ member ∈ list, Halts keeps (fun fuel => query fuel member) (post member)) :
    Halts keeps (fun fuel => list.mapM (query fuel)) (List.Forall₂ post list) := by
  induction list with
  | nil =>
      simp only [List.mapM_nil]
      exact .pure .nil
  | cons first rest ih =>
      rw [List.forall_mem_cons] at h
      simp only [List.mapM_cons]
      exact h.1.bind fun answer hanswer =>
        (ih h.2).bind fun answers hanswers => .pure (.cons hanswer hanswers)

/-- A selection halts if its checks do, with the members that have the property. -/
theorem filterM {check : Nat → α → Query Bool} {list : List α} {holds : α → Prop}
    (hcheck : ∀ member ∈ list,
      Halts keeps (fun fuel => check fuel member) fun yes => yes = true ↔ holds member) :
    Halts keeps (fun fuel => list.filterM (check fuel))
      fun kept => ∀ member, member ∈ kept ↔ member ∈ list ∧ holds member := by
  have hcollect : ∀ kept, Halts keeps (fun fuel => list.filterAuxM (check fuel) kept)
      fun all => ∀ member, member ∈ all ↔ member ∈ kept ∨ member ∈ list ∧ holds member := by
    induction list with
    | nil => exact fun kept => .pure (by simp)
    | cons first rest ih =>
        intro kept
        refine (hcheck first List.mem_cons_self).bind fun yes hyes => ?_
        have hrest := ih fun member h => hcheck member (List.mem_cons_of_mem _ h)
        cases yes with
        | true =>
            refine (hrest (first :: kept)).mono fun all hall member => ?_
            have hfirst : holds first := hyes.1 rfl
            grind
        | false =>
            refine (hrest kept).mono fun all hall member => ?_
            have hfirst : ¬ holds first := fun h => Bool.false_ne_true (hyes.2 h)
            grind
  exact (hcollect []).bind fun all hall => .pure fun member => by simp [hall]

end Halts

/-- The query answers from every trail with such a memo, whatever the answer is. -/
abbrev Terminates (keeps : Memo → Prop) (query : Nat → Query α) : Prop :=
  Halts keeps query fun _ => True

namespace Terminates

variable {query second : Nat → Query Bool}

/-- Asking a second question only after a yes terminates. -/
theorem and (hquery : Terminates keeps query) (hsecond : Terminates keeps second) :
    Terminates keeps
      (fun fuel => query fuel >>= fun yes =>
        if yes = true then second fuel else Pure.pure false) := by
  refine Halts.bind hquery fun yes _ => ?_
  cases yes with
  | true => exact hsecond
  | false => exact .pure trivial

/-- Asking a second question only after a no terminates. -/
theorem or (hquery : Terminates keeps query) (hsecond : Terminates keeps second) :
    Terminates keeps
      (fun fuel => query fuel >>= fun yes =>
        if yes = true then Pure.pure true else second fuel) := by
  refine Halts.bind hquery fun yes _ => ?_
  cases yes with
  | true => exact .pure trivial
  | false => exact hsecond

/-- Searching a list terminates if it does so on every member. -/
theorem anyM {check : Nat → α → Query Bool} {list : List α}
    (hcheck : ∀ member ∈ list, Terminates keeps fun fuel => check fuel member) :
    Terminates keeps fun fuel => list.anyM (check fuel) := by
  induction list with
  | nil => exact .pure trivial
  | cons first rest ih =>
      simp only [List.anyM_cons]
      exact (hcheck first List.mem_cons_self).or
        (ih fun member h => hcheck member (List.mem_cons_of_mem _ h))

/-- Going through a list terminates if it does so on every member. -/
theorem allM {check : Nat → α → Query Bool} {list : List α}
    (hcheck : ∀ member ∈ list, Terminates keeps fun fuel => check fuel member) :
    Terminates keeps fun fuel => list.allM (check fuel) := by
  induction list with
  | nil => exact .pure trivial
  | cons first rest ih =>
      simp only [List.allM_cons]
      exact (hcheck first List.mem_cons_self).and
        (ih fun member h => hcheck member (List.mem_cons_of_mem _ h))

end Terminates

end Nominal.Query
