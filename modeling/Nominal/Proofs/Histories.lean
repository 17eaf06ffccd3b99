import Nominal.Proofs.MirroredQueries
import Nominal.Script.World

/-!
# Histories of queries

A resolver is asked one question after another, and its memo may be cleared in between. `History`
tells which states it can come to, and of which types it was asked for the closure since its memo
was last empty. Main result: the answer in any such state equals the one that a fresh resolver
without a memo gives to this question alone, and one of the two answers whenever the other does;
the memo has as many closures as unequal types were asked about.
-/

namespace Nominal

open Query

/-! ## Questions and replies -/

/-- A test that selects members of a closure. Besides the member it gets the steps that it may take,
the context, and the number of the call. -/
abbrev Selection := Nat → Context → Nat → Ty → Query Bool

/-- A question about types. -/
inductive Question where
  | supertypes (t : Ty)
  | directSupertypes (t : Ty)
  | isSupertype (above below : Ty)
  | isAssignable (boxing : Boxing) (options : AssignOptions) (receiver payload : Ty)
  | mostSpecialized (types : List Ty) (interfaces : Bool)
  | closureWhere (t : Ty) (legal : Selection)

/-- What is replied to a question. -/
inductive Reply where
  | types (members : List Ty)
  | flag (yes : Bool)
  | best (found : Option Ty)
  | kept (members : List Ty) (calls : Nat)
  deriving BEq

namespace Question

/-- Ask the question. -/
def ask (question : Question) (fuel : Nat) (context : Context) : Query Reply := do
  match question with
  | .supertypes t => return .types (← context.supertypes fuel t)
  | .directSupertypes t => return .types (← context.directSupertypes fuel t)
  | .isSupertype above below => return .flag (← context.isSupertype fuel above below)
  | .isAssignable boxing options receiver payload =>
      return .flag (← context.isAssignable fuel boxing options receiver payload)
  | .mostSpecialized types interfaces =>
      return .best (← context.mostSpecialized fuel types interfaces)
  | .closureWhere t legal =>
      let (members, calls) ← context.closureWhere fuel t (legal fuel context)
      return .kept members calls

end Question

namespace Context

variable {context first second : Context} {roots : List Ty}

variable (context roots) in
/-- The test does not tell equal types apart, whatever is memoized. -/
def Fair (legal : Selection) : Prop :=
  ∀ {first second : Context}, context.Mirror roots first second →
    ∀ fuel call {s s'}, context.Twins roots s s' →
      context.Mirrored roots first (legal fuel first call s)
        (fun more => legal more second call s') Eq

variable (context roots) in
/-- The types whose supertypes the question is about are among those that are reached, and its test
is fair. -/
def Poses : Question → Prop
  | .supertypes t => context.Reached roots t
  | .directSupertypes _ => True
  | .isSupertype _ below => context.Reached roots below
  | .isAssignable boxing options receiver payload =>
      context.Reached roots (if options.boxing then boxing.box receiver else receiver) ∧
        context.Reached roots (if options.boxing then boxing.box payload else payload)
  | .mostSpecialized types _ => ∀ t ∈ types, context.Reached roots t
  | .closureWhere t legal => context.Reached roots t ∧ context.Fair roots legal

/-- Equal truth values make equal replies. -/
theorem flag_congr {yes yes' : Bool} (h : yes = yes') : (Reply.flag yes == .flag yes') = true := by
  show (yes == yes') = true
  exact beq_iff_eq.2 h

/-- Lists of twins are equal. -/
theorem beq_of_twins {types types' : List Ty}
    (h : List.Forall₂ (context.Twins roots) types types') : (types == types') = true :=
  Ty.list_beq_iff.2 (h.imp fun _ _ h => h.equal)

/-- A question gets equal replies, whatever is memoized. -/
theorem Mirror.ask (hmirror : context.Mirror roots first second) {question : Question}
    (h : context.Poses roots question) (fuel : Nat) :
    context.Mirrored roots first (question.ask fuel first) (fun more => question.ask more second)
      (fun reply reply' => (reply == reply') = true) := by
  cases question with
  | supertypes t =>
      exact (hmirror.supertypes (.refl h) fuel).bind fun _ _ hmembers =>
        .pure (beq_of_twins hmembers)
  | directSupertypes t =>
      refine (hmirror.directSupertypes t fuel).bind fun types types' heq => .pure ?_
      cases heq
      exact Ty.list_beq_iff.2 (Ty.matches_refl types)
  | isSupertype above below =>
      exact (hmirror.isSupertype BEq.rfl (.refl h) fuel).bind fun _ _ heq =>
        .pure (flag_congr heq)
  | isAssignable boxing options receiver payload =>
      exact (hmirror.isAssignable boxing options h.1 h.2 fuel).bind fun _ _ heq =>
        .pure (flag_congr heq)
  | mostSpecialized types interfaces =>
      refine (hmirror.mostSpecialized h interfaces fuel).bind fun best best' hbest => .pure ?_
      cases hbest with
      | none => rfl
      | some htwins => exact htwins.equal
  | closureWhere t legal =>
      refine (hmirror.closureWhere (.refl h.1) (h.2 hmirror fuel) fuel).bind ?_
      rintro ⟨members, calls⟩ ⟨members', calls'⟩ ⟨hmembers, hcalls⟩
      exact .pure (Bool.and_eq_true_iff.2 ⟨beq_of_twins hmembers, beq_iff_eq.2 hcalls⟩)

/-! ## Fair tests -/

/-- Equal variables that are reached share a cell, and equal names at the heads of types that are
reached are of one kind. -/
structure Shared (context : Context) (roots : List Ty) : Prop where
  cells : ∀ {param param' : TypeVar}, context.Reached roots (.var param) →
    context.Reached roots (.var param') → (param == param') = true → param.cell = param'.cell
  kinds : ∀ {t t' head head'}, context.Reached roots t → context.Reached roots t' →
    t.head? = some head → t'.head? = some head' → (head == head') = true → head.kind = head'.kind

/-- Types that share cells and kinds are coherent. -/
theorem Shared.coherent (h : context.Shared roots) : context.Coherent roots where
  bounds hfirst hsecond heq := by
    rw [Heap.bounds, Heap.bounds, h.cells hfirst hsecond heq]
    exact Ty.list_beq_iff.2 (Ty.matches_refl _)
  kinds hfirst hsecond heq := h.kinds hfirst hsecond rfl rfl heq

/-- Whether equal types erase to interfaces is mirrored if they share kinds. -/
theorem Shared.interfaceLike (h : context.Shared roots)
    (hmirror : context.Mirror roots first second) {t t' : Ty} (ht : context.Twins roots t t')
    (fuel : Nat) :
    context.Mirrored roots first (isInterfaceLike first.heap fuel t)
      (fun more => isInterfaceLike second.heap more t') Eq := by
  have hnames : context.Mirrored roots first (erasedNamed? first.heap fuel t)
      (fun more => erasedNamed? second.heap more t')
      (Option.Rel fun head head' => head.kind = head'.kind) :=
    hmirror.erasedNamed (fun htwins hhead hhead' => h.kinds htwins.left htwins.right hhead hhead'
      (Ty.head_congr htwins.equal hhead hhead')) rfl ht fuel
  refine hnames.bind fun found found' hfound => .pure ?_
  cases hfound with
  | none => rfl
  | some hkind => rw [Option.any_some, Option.any_some, Named.isInterface, Named.isInterface, hkind]

/-- The canonical forms of equal types are equal. -/
theorem Coherent.canonical (hcoherent : context.Coherent roots) {t t' : Ty}
    (h : context.Twins roots t t') :
    (context.env.canonical t == context.env.canonical t') = true := by
  induction t using Ty.parts_induction generalizing t' with
  | step t ih =>
      cases t with
      | named head =>
          obtain ⟨head', rfl, hhead⟩ := h.named
          exact context.env.canonicalNamed_congr hhead (hcoherent.kinds h.left h.right hhead)
      | array component =>
          obtain ⟨component', rfl, hcomponent⟩ := h.array
          have heq := ih component (List.mem_singleton.2 rfl) hcomponent
          rw [Env.canonical, Env.canonical, BEq.congr_left heq, BEq.congr_right hcomponent.equal]
          split
          · exact h.equal
          · exact heq
      | applied | var | wildcard => cases t' <;> first | exact h.equal | cases h.equal

/-- Equal types are raw together. -/
theorem Coherent.isRaw (hcoherent : context.Coherent roots) {t t' : Ty}
    (h : context.Twins roots t t') : context.env.isRaw t = context.env.isRaw t' := by
  rw [Env.isRaw, Env.isRaw, bne, bne, BEq.congr_left (hcoherent.canonical h),
    BEq.congr_right h.equal]

/-- The tests that requests make are fair where cells and kinds are shared. -/
theorem Shared.fair (h : context.Shared roots) {frame : Script.Frame}
    (hframe : frame.env = context.env) (test : Script.Test) :
    context.Fair roots fun fuel => Script.Run.passes { frame with fuel } test := by
  intro first second hmirror fuel call s s' hs
  cases test with
  | interfaceLike => exact h.interfaceLike hmirror hs fuel
  | classLike =>
      exact (h.interfaceLike hmirror hs fuel).bind fun _ _ heq => .pure (congrArg not heq)
  | notTop => exact .pure (congrArg not (Ty.isTop_congr hs.equal))
  | applied =>
      refine .pure ?_
      cases s <;> cases s' <;> first | rfl | cases hs.equal
  | raw => exact .pure (hframe ▸ hmirror.coherent.isRaw hs)
  | odd | never => exact .pure rfl

end Context

/-! ## Histories -/

namespace Script

/-- What the next query of a frame is asked against. -/
def Progress.context (progress : Progress) (frame : Frame) : Context :=
  ⟨frame.env, progress.world.heap, frame.memoize⟩

/-- The trail that the next query extends. -/
def Progress.trail (progress : Progress) : Trail := ⟨progress.memo, [], progress.events⟩

/-- The progress after a query has left a trail. -/
def Progress.follow (progress : Progress) (trail : Trail) : Progress :=
  ⟨{ progress.world with heap := progress.world.heap.settleAll trail.reads }, trail.memo,
    trail.events⟩

/-- What a fresh resolver without a memo is asked against. -/
def World.fresh (world : World) (frame : Frame) : Context := ⟨frame.env, world.heap, false⟩

/-- A query that answers is followed by what its trail says. -/
theorem query_of_some {α : Type} {frame : Frame} {progress : Progress}
    {question : Context → Query α} {reply : α} {trail : Trail}
    (h : question (progress.context frame) progress.trail = some (reply, trail)) :
    Run.query frame question progress = some (.ok reply, progress.follow trail) := by
  show (question (progress.context frame) progress.trail).bind _ = _
  rw [h]
  rfl

/-- A query that is answered has left a trail. -/
theorem query_some {α : Type} {frame : Frame} {progress after : Progress}
    {question : Context → Query α} {reply : α}
    (h : Run.query frame question progress = some (.ok reply, after)) :
    ∃ trail, question (progress.context frame) progress.trail = some (reply, trail) ∧
      after = progress.follow trail := by
  cases hrun : question (progress.context frame) progress.trail with
  | none =>
      have hnone : Run.query frame question progress = none := by
        show (question (progress.context frame) progress.trail).bind _ = none
        rw [hrun]
        rfl
      cases hnone.symm.trans h
  | some result =>
      cases (query_of_some hrun).symm.trans h
      exact ⟨result.2, rfl, rfl⟩

/-- A resolver that was fresh over a world comes to a state by questions and by clearing its memo.
The list has the types of which it was asked for the closure since its memo was last empty. -/
inductive History (frame : Frame) (roots : List Ty) (world : World) :
    List Ty → Progress → Prop where
  | start (events : List Event) : History frame roots world [] ⟨world, .empty, events⟩
  | ask {since asked : List Ty} {progress after : Progress} {question : Question} {fuel : Nat}
      {reply : Reply} {trail : Trail} :
      History frame roots world since progress → (world.fresh frame).Poses roots question →
      Run.query frame (question.ask fuel) progress = some (.ok reply, after) →
      (progress.context frame).Asks (question.ask fuel (progress.context frame)) progress.trail
        asked reply trail →
      History frame roots world (since ++ asked) after
  | clear {since : List Ty} {progress : Progress} :
      History frame roots world since progress →
      History frame roots world [] { progress with memo := .empty }

variable {frame : Frame} {roots : List Ty} {world : World} {since : List Ty} {progress : Progress}

/-- The state after a question is what the trail of the question says. -/
theorem after_eq {α : Type} {after : Progress} {question : Context → Query α} {reply : α}
    {asked : List Ty} {trail : Trail}
    (hrun : Run.query frame question progress = some (.ok reply, after))
    (hasked : (progress.context frame).Asks (question (progress.context frame)) progress.trail asked
      reply trail) : after = progress.follow trail := by
  cases (query_of_some hasked.run_eq).symm.trans hrun
  rfl

/-- Questions do not change the bounds that variables have. -/
theorem History.alike (h : History frame roots world since progress) :
    (progress.context frame).Alike (world.fresh frame) := by
  induction h with
  | start events => exact ⟨rfl, fun _ => rfl⟩
  | ask _ _ hrun hasked ih =>
      cases after_eq hrun hasked
      exact ⟨rfl, fun param => (Heap.boundsAt_settleAll _ _ param.cell).trans (ih.bounds param)⟩
  | clear _ ih => exact ⟨rfl, ih.bounds⟩

/-- The state of a resolver and a fresh one mirror each other. -/
theorem History.mirror (hcoherent : (world.fresh frame).Coherent roots)
    (h : History frame roots world since progress) :
    (world.fresh frame).Mirror roots (progress.context frame) (world.fresh frame) :=
  ⟨hcoherent, h.alike, rfl, fun _ => rfl⟩

/-- Whatever is memoized are closures over the world at the start. -/
theorem History.memoSound (hcoherent : (world.fresh frame).Coherent roots)
    (h : History frame roots world since progress) :
    (world.fresh frame).MemoSound roots progress.memo := by
  induction h with
  | start events => exact Context.memoSound_empty
  | ask hbefore hquestion hrun hasked ih =>
      cases after_eq hrun hasked
      exact ((hbefore.mirror hcoherent).ask hquestion _ _ ih _ _ hasked.run_eq).1
  | clear _ _ => exact Context.memoSound_empty

/-- Closures are memoized of the types that were asked about, once each. -/
theorem History.keys_eq (h : History frame roots world since progress) :
    Context.keys progress.memo = if frame.memoize then Ty.distinct since else [] := by
  induction h with
  | start events => split <;> rfl
  | clear _ _ => split <;> rfl
  | @ask since asked progress after question fuel reply trail hbefore _ hrun hasked ih =>
      cases after_eq hrun hasked
      cases hmemoize : frame.memoize with
      | true =>
          rw [hmemoize, if_pos rfl] at ih
          rw [if_pos rfl, Ty.distinct_eq_addNew, Ty.addNew_append, ← Ty.distinct_eq_addNew, ← ih]
          exact hasked.keys_eq hmemoize
      | false =>
          rw [hmemoize, if_neg Bool.false_ne_true] at ih
          rw [if_neg Bool.false_ne_true, ← ih]
          exact congrArg Context.keys (hasked.memo_eq hmemoize)

/-- The question gets this reply in a state, once it may take enough steps. -/
def Replies (frame : Frame) (progress : Progress) (question : Question) (reply : Reply)
    (after : Progress) : Prop :=
  ∃ enough, ∀ fuel, enough ≤ fuel →
    Run.query frame (question.ask fuel) progress = some (.ok reply, after)

/-- The question gets this reply when it is the only one that is asked, once it may take enough
steps. -/
def RepliesAlone (context : Context) (question : Question) (reply : Reply) : Prop :=
  ∃ enough, ∀ fuel, enough ≤ fuel → (question.ask fuel context).answer = some reply

variable {question : Question}

/-- A reply in a state of a history equals the one that is given to the question alone, and leads to
a state of a history. -/
theorem History.replies_alone (hcoherent : (world.fresh frame).Coherent roots)
    (h : History frame roots world since progress)
    (hquestion : (world.fresh frame).Poses roots question) {fuel : Nat} {reply : Reply}
    {after : Progress}
    (hrun : Run.query frame (question.ask fuel) progress = some (.ok reply, after)) :
    (∃ asked, History frame roots world (since ++ asked) after) ∧
      ∃ alone, (reply == alone) = true ∧ RepliesAlone (world.fresh frame) question alone := by
  obtain ⟨trail, htrail, rfl⟩ := query_some hrun
  obtain ⟨_, ⟨asked, hasked⟩, hhalts⟩ := (h.mirror hcoherent).ask hquestion fuel progress.trail
    (h.memoSound hcoherent) reply trail htrail
  refine ⟨⟨asked, h.ask hquestion hrun hasked⟩, ?_⟩
  obtain ⟨alone, after, _, heq, enough, halone⟩ := hhalts .empty Context.memoSound_empty
  exact ⟨alone, heq, enough, fun more hmore => congrArg (Option.map Prod.fst) (halone more hmore)⟩

/-- A question that gets a reply alone gets an equal one in every state of a history. -/
theorem History.replies (hcoherent : (world.fresh frame).Coherent roots)
    (h : History frame roots world since progress)
    (hquestion : (world.fresh frame).Poses roots question) {fuel : Nat} {alone : Reply}
    (halone : (question.ask fuel (world.fresh frame)).answer = some alone) :
    ∃ reply after, (alone == reply) = true ∧ Replies frame progress question reply after := by
  have hmirror : (world.fresh frame).Mirror roots (world.fresh frame) (progress.context frame) :=
    ⟨hcoherent, ⟨rfl, fun _ => rfl⟩, h.alike⟩
  obtain ⟨⟨_, trail⟩, hrun, rfl⟩ := Option.map_eq_some_iff.1 halone
  obtain ⟨_, _, hhalts⟩ :=
    hmirror.ask hquestion fuel .empty Context.memoSound_empty _ trail hrun
  obtain ⟨reply, after, _, heq, enough, hreply⟩ :=
    hhalts progress.trail (h.memoSound hcoherent)
  exact ⟨reply, progress.follow after, heq, enough,
    fun more hmore => query_of_some (hreply more hmore)⟩

/-- In every state of a history a question has the reply that it has alone, without a memo and over
the heap at the start, and one is given whenever the other is. As many closures are memoized as
unequal types were asked about since the memo was last empty, and none with memoization off. -/
theorem memoization_unobservable (hcoherent : (world.fresh frame).Coherent roots)
    (h : History frame roots world since progress)
    (hquestion : (world.fresh frame).Poses roots question) :
    (∀ {fuel reply after}, Run.query frame (question.ask fuel) progress = some (.ok reply, after) →
      (∃ asked, History frame roots world (since ++ asked) after) ∧
        ∃ alone, (reply == alone) = true ∧ RepliesAlone (world.fresh frame) question alone) ∧
      (∀ {fuel alone}, (question.ask fuel (world.fresh frame)).answer = some alone →
        ∃ reply after, (alone == reply) = true ∧ Replies frame progress question reply after) ∧
      progress.memo.size = if frame.memoize then (Ty.distinct since).length else 0 := by
  refine ⟨h.replies_alone hcoherent hquestion, h.replies hcoherent hquestion, ?_⟩
  have hsize : progress.memo.size = (Context.keys progress.memo).length := by
    rw [Context.keys, List.length_map, TypeMap.toList, Array.length_toList, TypeMap.size]
  rw [hsize, h.keys_eq]
  split <;> rfl

section Loose

/-- A variable whose only cell is unbound at the start. -/
def loose (handle : Handle) : TypeVar := ⟨"T", "Box", handle⟩

/-- The world of the variable. -/
def looseWorld : World := ⟨⟨#[.unbound], [0]⟩, .base, .empty, []⟩

/-- The frame of the variable, with memoization on. -/
def looseFrame : Frame := ⟨⟨fun _ => none, .cloneable, .serializable⟩, [], true, .standard, 5⟩

/-- The variable as its owner and as a back reference mentions it, and what lies above. -/
def looseTypes : List Ty := [.top, .var (loose (.owning 0)), .var (loose (.back 0))]

/-- Whether supertypes of the back reference are classes. -/
def looseClasses : Question :=
  .closureWhere (.var (loose (.back 0))) fun fuel => Run.passes { looseFrame with fuel } .classLike

/-- The variable shares its cell with the back reference. -/
theorem loose_shared : (looseWorld.fresh looseFrame).Shared looseTypes := by
  have hcell {param : TypeVar} (h : .var param ∈ looseTypes) : param.cell = 0 := by
    simp only [looseTypes, Ty.top, List.mem_cons, reduceCtorEq, Ty.var.injEq, false_or,
      List.not_mem_nil, or_false] at h
    rcases h with rfl | rfl <;> rfl
  have hhead {t : Ty} {head : Named} (h : t ∈ looseTypes) (hhead : t.head? = some head) :
      head = .top := by
    simp only [looseTypes, List.mem_cons, List.not_mem_nil, or_false] at h
    rcases h with rfl | rfl | rfl <;> cases hhead
    rfl
  have hmem {t : Ty} (h : (looseWorld.fresh looseFrame).Reached looseTypes t) : t ∈ looseTypes := by
    refine h.mem_of_closed (fun _ => id) ?_ ?_ ?_
    · simp [looseTypes, Ty.parts, Ty.top]
    · intro param hparam bound hbound
      rw [Heap.bounds, hcell hparam] at hbound
      cases List.mem_singleton.1 hbound
      exact .head _
    · simp only [looseTypes, List.forall_mem_cons]
      exact ⟨⟨[], ⟨0, rfl⟩, List.forall_mem_nil _⟩, ⟨[.top], ⟨0, rfl⟩, by simp⟩,
        ⟨[.top], ⟨0, rfl⟩, by simp⟩, List.forall_mem_nil _⟩
  constructor
  · intro param param' h h' _
    rw [hcell (hmem h), hcell (hmem h')]
  · intro t t' head head' h h' hname hname' _
    rw [hhead (hmem h) hname, hhead (hmem h') hname']

/-- After a question about the variable, a cleared memo and the same question again, a question
about the back reference is answered from the memo. The reply mentions the owner where the fresh
resolver mentions the back reference, and the two are equal. -/
theorem loose_replies_equal :
    ∃ progress, History looseFrame looseTypes looseWorld [.var (loose (.owning 0))] progress ∧
      progress.memo.size = 1 ∧
      (∃ after, Run.query looseFrame (looseClasses.ask 5) progress =
        some (.ok (.kept [.var (loose (.owning 0)), .top] 2), after)) ∧
      (∃ alone, (Reply.kept [.var (loose (.owning 0)), .top] 2 == alone) = true ∧
        RepliesAlone (looseWorld.fresh looseFrame) looseClasses alone) ∧
      (looseClasses.ask 5 (looseWorld.fresh looseFrame)).answer =
        some (.kept [.var (loose (.back 0)), .top] 2) ∧
      ∃ reply after, (Reply.kept [.var (loose (.back 0)), .top] 2 == reply) = true ∧
        Replies looseFrame progress looseClasses reply after := by
  have howner : (looseWorld.fresh looseFrame).Poses looseTypes
      (.supertypes (.var (loose (.owning 0)))) := .root (.tail _ (.head _))
  have hstep {since : List Ty} {progress after : Progress} {members : List Ty}
      (h : History looseFrame looseTypes looseWorld since progress)
      (hrun : Run.query looseFrame ((Question.supertypes (.var (loose (.owning 0)))).ask 5)
        progress = some (.ok (.types members), after)) :
      History looseFrame looseTypes looseWorld (since ++ [.var (loose (.owning 0))]) after := by
    obtain ⟨trail, htrail, rfl⟩ := query_some hrun
    obtain ⟨found, between, hfound, hlast⟩ := bind_some htrail
    cases hlast
    exact h.ask howner hrun (.bind (.closure hfound) (.quiet (.pure _) rfl))
  obtain ⟨progress, hhistory, after, hrun⟩ :
      ∃ progress, History looseFrame looseTypes looseWorld [.var (loose (.owning 0))] progress ∧
        ∃ after, Run.query looseFrame (looseClasses.ask 5) progress =
          some (.ok (.kept [.var (loose (.owning 0)), .top] 2), after) :=
    ⟨_, hstep (hstep (.start []) rfl).clear rfl, _, rfl⟩
  have hclasses : (looseWorld.fresh looseFrame).Poses looseTypes looseClasses :=
    ⟨.root (.tail _ (.tail _ (.head _))), loose_shared.fair rfl .classLike⟩
  have hresult := memoization_unobservable loose_shared.coherent hhistory hclasses
  have halone : (looseClasses.ask 5 (looseWorld.fresh looseFrame)).answer =
      some (.kept [.var (loose (.back 0)), .top] 2) := rfl
  exact ⟨progress, hhistory, hresult.2.2, ⟨after, hrun⟩, (hresult.1 hrun).2, halone,
    hresult.2.1 halone⟩

end Loose

end Script

end Nominal
