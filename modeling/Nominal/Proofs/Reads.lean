import Nominal.Proofs.Plans
import Nominal.Specialization

/-!
# What questions read

A question reads the bounds of variables deep inside its search, and the trail that it leaves lists
their cells. `Query.Tracks` says that nothing is missing from that list: every heap with the same
bounds in the listed cells gives the same answer and leaves the same trail. `Inquiry.tracks` says so
of erasure, supertypes, assignability and the search for a most specialized type.
-/

namespace Nominal

namespace Query

variable {α β : Type}

/-- The trail lists the cells on which the answer depends. -/
def Tracks (question : Heap → Query α) : Prop :=
  ∀ heap trail answer after, question heap trail = some (answer, after) →
    trail.reads ⊆ after.reads ∧
      ∀ other : Heap, (∀ cell ∈ after.reads, other.boundsAt cell = heap.boundsAt cell) →
        question other trail = some (answer, after)

namespace Tracks

/-- A query that does not look at the heap and reads nothing. -/
theorem of_const {query : Query α}
    (h : ∀ trail answer after, query trail = some (answer, after) → trail.reads = after.reads) :
    Tracks fun _ => query :=
  fun _ trail answer after hrun =>
    ⟨h trail answer after hrun ▸ List.Subset.refl _, fun _ _ => hrun⟩

/-- An answer that needs no question. -/
theorem pure (first : α) : Tracks fun _ => Pure.pure first := by
  refine of_const fun trail answer after hrun => ?_
  cases hrun
  rfl

/-- Without steps nothing is read. -/
theorem exhausted : Tracks fun _ => (Query.exhausted : Query α) := of_const nofun

/-- The cell of a variable is listed when its bounds are read. -/
theorem bounds (param : TypeVar) : Tracks fun heap => Query.bounds heap param := by
  intro heap trail answer after hrun
  cases hrun
  refine ⟨List.subset_cons_self _ _, fun other hsame => ?_⟩
  have hbounds : other.bounds param = heap.bounds param := hsame param.cell List.mem_cons_self
  show some (other.bounds param, _) = some (heap.bounds param, _)
  rw [hbounds]

/-- Questions one after the other. -/
theorem bind {question : Heap → Query α} {next : Heap → α → Query β} (hquestion : Tracks question)
    (hnext : ∀ first, Tracks fun heap => next heap first) :
    Tracks fun heap => question heap >>= next heap := by
  intro heap trail last after hrun
  obtain ⟨first, between, hfirst, hlast⟩ := bind_some hrun
  obtain ⟨hlisted, hagain⟩ := hquestion heap trail first between hfirst
  obtain ⟨hlisted', hagain'⟩ := hnext first heap between last after hlast
  refine ⟨fun cell hcell => hlisted' (hlisted hcell), fun other hsame => ?_⟩
  have hbefore := hagain other fun cell hcell => hsame cell (hlisted' hcell)
  exact (bind_of_some hbefore).trans (hagain' other hsame)

/-- A change to the answer. -/
theorem map {question : Heap → Query α} (hquestion : Tracks question) (change : α → β) :
    Tracks fun heap => do return change (← question heap) :=
  hquestion.bind fun first => pure (change first)

/-- One of two questions, whichever a condition calls for. -/
theorem ite (condition : Bool) {first second : Heap → Query α} (hfirst : Tracks first)
    (hsecond : Tracks second) :
    Tracks fun heap => if condition = true then first heap else second heap := by
  cases condition with
  | true => exact hfirst
  | false => exact hsecond

/-- A question about each member of a list. -/
theorem mapM {question : Heap → α → Query β}
    (hquestion : ∀ member, Tracks fun heap => question heap member) (list : List α) :
    Tracks fun heap => list.mapM (question heap) := by
  induction list with
  | nil => exact pure []
  | cons first rest ih =>
      simp only [List.mapM_cons]
      exact (hquestion first).bind fun value => ih.map (value :: ·)

/-- A search through a list. -/
theorem anyM {check : Heap → α → Query Bool}
    (hcheck : ∀ member, Tracks fun heap => check heap member) (list : List α) :
    Tracks fun heap => list.anyM (check heap) := by
  induction list with
  | nil => exact pure false
  | cons first rest ih =>
      simp only [List.anyM_cons]
      exact (hcheck first).bind fun yes => ite yes (pure true) ih

/-- A question that is carried on from member to member of a list. -/
theorem foldlM {next : Heap → β → α → Query β}
    (hnext : ∀ value member, Tracks fun heap => next heap value member) (list : List α)
    (start : β) : Tracks fun heap => list.foldlM (next heap) start := by
  induction list generalizing start with
  | nil => exact pure start
  | cons first rest ih =>
      simp only [List.foldlM_cons]
      exact (hnext start first).bind ih

/-- A selection of members of a list. -/
theorem filterM {check : Heap → α → Query Bool}
    (hcheck : ∀ member, Tracks fun heap => check heap member) (list : List α) :
    Tracks fun heap => list.filterM (check heap) := by
  have hfrom (kept : List α) : Tracks fun heap => List.filterAuxM (check heap) list kept := by
    induction list generalizing kept with
    | nil => exact pure kept
    | cons first rest ih => exact (hcheck first).bind fun yes => ih (cond yes (first :: kept) kept)
  exact (hfrom []).map List.reverse

end Tracks

end Query

open Query

/-- Erasure tracks what it reads. -/
theorem tracks_eraseAlong (fuel : Nat) (seen : List TypeVar) (t : Ty) :
    Tracks fun heap => eraseAlong heap fuel seen t := by
  induction fuel generalizing seen t with
  | zero => exact .exhausted
  | succ fuel ih =>
      cases t with
      | named head => exact .pure (Ty.named head)
      | applied owner raw args => exact .pure (Ty.named raw)
      | array component => exact (ih [] component).map Ty.array
      | wildcard upper lower => exact ih [] upper
      | var param =>
          refine .ite (seen.contains param) (.pure Ty.top) ?_
          refine (Tracks.bounds param).bind fun list => ?_
          cases list with
          | nil => exact .pure Ty.top
          | cons bound rest => exact ih (param :: seen) bound

/-- Following sole bounds tracks what it reads. -/
theorem tracks_variableAccepts (receiver : TypeVar) (fuel : Nat) (seen : List TypeVar)
    (payload : TypeVar) : Tracks fun heap => variableAccepts heap receiver fuel seen payload := by
  induction fuel generalizing seen payload with
  | zero => exact .exhausted
  | succ fuel ih =>
      refine .ite (payload == receiver) (.pure true) (.ite (seen.contains payload) (.pure false)
        ((Tracks.bounds payload).bind fun list => ?_))
      split
      · exact ih (payload :: seen) _
      · exact .pure false

namespace Context

variable (env : Env) (memoize : Bool)

/-- Looking up a declaration reads nothing. -/
theorem tracks_declaration (head : Named) :
    Tracks fun heap => (Context.mk env heap memoize).declaration? head := by
  show Tracks fun _ => (Context.mk env .empty memoize).declaration? head
  refine .of_const fun trail answer after hrun => ?_
  unfold declaration? at hrun
  cases hfound : env.find? head.name with
  | some declaration =>
      rw [hfound] at hrun
      cases hrun
      rfl
  | none =>
      rw [hfound] at hrun
      cases hrun
      rfl

/-- Direct supertypes track what they read. -/
theorem tracks_directSupertypes (fuel : Nat) (t : Ty) :
    Tracks fun heap => (Context.mk env heap memoize).directSupertypes fuel t := by
  induction t using Ty.parts_induction with
  | step t ih =>
      cases t with
      | named head =>
          refine .ite (head.isTop || head.isPrimitive) (.pure [])
            ((tracks_declaration env memoize head).bind fun found => ?_)
          cases found with
          | none => exact .pure []
          | some declaration =>
              refine .ite declaration.params.isEmpty (.pure _) ?_
              exact (Tracks.mapM (tracks_eraseAlong fuel []) declaration.supertypes).map _
      | applied owner raw args =>
          refine (tracks_declaration env memoize raw).bind fun found => ?_
          cases found with
          | none => exact .pure []
          | some declaration =>
              let types := Ty.distinct (declaration.supertypes.map fun t =>
                t.substitute ((Context.mk env .empty memoize).argumentsOf declaration owner args))
              exact .pure (if raw.isTop then types else orTop types)
      | array component =>
          exact (ih component (List.mem_singleton.2 rfl)).map fun types =>
            types.map Ty.array ++ (Context.mk env .empty memoize).arraySupertypes
      | var param => exact (Tracks.bounds param).map _
      | wildcard upper lower => exact ih upper List.mem_cons_self

/-- The search for supertypes tracks what it reads. -/
theorem tracks_closureFrom (fuel : Nat) (found : TypeSet) (position : Nat) :
    Tracks fun heap => (Context.mk env heap memoize).closureFrom fuel found position := by
  induction fuel generalizing found position with
  | zero => exact .exhausted
  | succ fuel ih =>
      simp only [closureFrom]
      split
      · exact .pure found
      · exact (tracks_directSupertypes env memoize fuel _).bind fun types => ih _ _

/-- Closures track what they read, and a memoized one reads nothing. -/
theorem tracks_supertypes (fuel : Nat) (t : Ty) :
    Tracks fun heap => (Context.mk env heap memoize).supertypes fuel t := by
  have hclosure : Tracks fun heap => (Context.mk env heap memoize).closure fuel t :=
    (tracks_closureFrom env memoize fuel _ 0).map _
  have hlookup : Tracks fun _ => memoized? t := .of_const fun trail answer after hrun => by
    cases hrun
    rfl
  have hremember (members : List Ty) : Tracks fun _ => remember t members :=
    .of_const fun trail answer after hrun => by
      cases hrun
      rfl
  refine .ite memoize (hlookup.bind fun found => ?_) hclosure
  cases found with
  | some members => exact .pure members
  | none => exact hclosure.bind fun members => (hremember members).bind fun _ => .pure members

/-- A plan that is followed with any heap tracks what is read, if the comparisons in it do. -/
theorem tracks_plan {fuel : Nat} (hcompare : ∀ comparison,
    Tracks fun heap => (Context.mk env heap memoize).perform fuel comparison) (plan : Plan) :
    Tracks fun heap => plan.run (Context.mk env heap memoize) fuel := by
  induction plan with
  | answer yes => exact .pure yes
  | supertypes t next ih => exact (tracks_supertypes env memoize fuel t).bind ih
  | erasure t next ih => exact (tracks_eraseAlong fuel [] t).bind ih
  | read param next ih => exact (Tracks.bounds param).bind fun _ => ih
  | walk receiver payload next ih => exact (tracks_variableAccepts receiver fuel [] payload).bind ih
  | report event next ih =>
      have hreport : Tracks fun _ => report event := .of_const fun trail answer after hrun => by
        cases hrun
        rfl
      exact hreport.bind fun _ => ih
  | compare comparison next ih => exact (hcompare comparison).bind ih

variable {env memoize} in
/-- The plan of a comparison depends on bounds only where a payload is replaced by its own. -/
theorem covariantPlan_congr {receiver payload : Ty}
    (h : (payload.isVar && !receiver.isVar && !receiver.isWildcard) = false) (heap other : Heap)
    (pending : List (Ty × TypeVar)) :
    (Context.mk env heap memoize).covariantPlan pending receiver payload =
      (Context.mk env other memoize).covariantPlan pending receiver payload := by
  cases receiver <;> cases payload <;> first | rfl | cases h

/-- Comparisons track what they read. -/
theorem tracks_perform (fuel : Nat) (comparison : Comparison) :
    Tracks fun heap => (Context.mk env heap memoize).perform fuel comparison := by
  induction fuel generalizing comparison with
  | zero =>
      obtain ⟨variance, pending, receiver, payload⟩ := comparison
      cases variance <;> exact .exhausted
  | succ fuel ih =>
      obtain ⟨variance, pending, receiver, payload⟩ := comparison
      cases variance with
      | invariant =>
          simp only [perform_succ]
          exact tracks_plan env memoize ih (invariantPlan pending receiver payload)
      | covariant =>
          cases hwidens : payload.isVar && !receiver.isVar && !receiver.isWildcard with
          | false =>
              simp only [perform_succ, plan, covariantPlan_congr hwidens _ .empty]
              exact tracks_plan env memoize ih _
          | true =>
              simp only [Bool.and_eq_true, Bool.not_eq_true'] at hwidens
              obtain ⟨⟨hpayload, hvar⟩, hwild⟩ := hwidens
              obtain ⟨param, rfl⟩ := Ty.eq_var hpayload
              show Tracks fun heap => (Context.mk env heap memoize).covariant _ _ _ _
              simp only [covariant_var hvar hwild]
              refine .ite _ (.pure false) ((Tracks.bounds param).bind fun bounds => ?_)
              exact .anyM (fun bound =>
                ih ⟨.covariant, (receiver, param) :: pending, receiver, bound⟩) bounds

/-- The search for a most specialized type tracks what it reads. -/
theorem tracks_mostSpecialized (fuel : Nat) (types : List Ty) (interfaces : Bool) :
    Tracks fun heap => (Context.mk env heap memoize).mostSpecialized fuel types interfaces := by
  have hinterface (t : Ty) : Tracks fun heap => isInterfaceLike heap fuel t :=
    ((tracks_eraseAlong fuel [] t).map Ty.asNamed?).map (Option.any Named.isInterface)
  have hpromote (best : Option Ty) (candidate : Ty) :
      Tracks fun heap => (Context.mk env heap memoize).promote fuel best candidate := by
    cases best with
    | none => exact .pure (some candidate)
    | some current =>
        refine .ite (current == candidate) (.pure (some current)) ?_
        refine ((tracks_supertypes env memoize fuel candidate).map (List.contains · current)).bind
          fun above => ?_
        exact .ite above (.pure (some candidate)) (.pure (some current))
  refine (Tracks.filterM (fun t => (hinterface t).map (· == interfaces)) types).bind fun kept => ?_
  refine .foldlM (fun best member => ?_) (Ty.distinct kept) none
  exact (tracks_supertypes env memoize fuel member).bind fun members => .foldlM hpromote _ best

end Context

/-- A question that reads the bounds of variables. -/
inductive Inquiry where
  | erasure (t : Ty)
  | supertypes (t : Ty)
  | isAssignable (boxing : Boxing) (options : AssignOptions) (receiver payload : Ty)
  | mostSpecialized (types : List Ty) (interfaces : Bool)

namespace Inquiry

/-- What is answered to an inquiry. -/
def Answer : Inquiry → Type
  | .erasure _ => Ty
  | .supertypes _ => List Ty
  | .isAssignable _ _ _ _ => Bool
  | .mostSpecialized _ _ => Option Ty

/-- Ask the question. -/
def ask (context : Context) (fuel : Nat) : (inquiry : Inquiry) → Query inquiry.Answer
  | .erasure t => erase context.heap fuel t
  | .supertypes t => context.supertypes fuel t
  | .isAssignable boxing options receiver payload =>
      context.isAssignable fuel boxing options receiver payload
  | .mostSpecialized types interfaces => context.mostSpecialized fuel types interfaces

/-- Every inquiry lists the cells on which its answer depends. -/
theorem tracks (env : Env) (memoize : Bool) (fuel : Nat) (inquiry : Inquiry) :
    Tracks fun heap => inquiry.ask ⟨env, heap, memoize⟩ fuel := by
  cases inquiry with
  | erasure t => exact tracks_eraseAlong fuel [] t
  | supertypes t => exact Context.tracks_supertypes env memoize fuel t
  | isAssignable boxing options receiver payload =>
      simp only [ask, Context.isAssignable_eq]
      exact Context.tracks_perform env memoize fuel ⟨options.variance, [], _, _⟩
  | mostSpecialized types interfaces =>
      exact Context.tracks_mostSpecialized env memoize fuel types interfaces

end Inquiry

end Nominal
