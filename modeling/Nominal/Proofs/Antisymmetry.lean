import Nominal.Proofs.Ancestry

/-!
# Types that accept each other

Where no chain of declared names and no chain of variables goes round, two types without raw uses
and owners that accept each other are equal. The two comparisons are followed side by side
(`BothYes`): a name above another is never below it, so that applied types can only match each
other, and the comparison of their arguments is again one of types that accept each other. No bound
of a variable is looked at on the way, because a variable accepts nothing but variables.
-/

namespace Nominal

/-! ## Two queries side by side -/

namespace Query

/-- If both queries say yes on trails with such memos, they leave such memos and something holds. -/
def BothYes (keeps : Memo → Prop) (query query' : Query Bool) (holds : Prop) : Prop :=
  ∀ trail trail' after after', keeps trail.memo → keeps trail'.memo →
    query trail = some (true, after) → query' trail' = some (true, after') →
    holds ∧ keeps after.memo ∧ keeps after'.memo

namespace BothYes

variable {keeps : Memo → Prop} {query query' second second' : Query Bool} {holds holds' : Prop}

/-- What holds may be weakened. -/
theorem mono (h : BothYes keeps query query' holds) (hweaker : holds → holds') :
    BothYes keeps query query' holds' := by
  intro trail trail' after after' hkeeps hkeeps' hrun hrun'
  obtain ⟨hholds, hafter⟩ := h _ _ _ _ hkeeps hkeeps' hrun hrun'
  exact ⟨hweaker hholds, hafter⟩

/-- The order of the two queries does not matter. -/
theorem symm (h : BothYes keeps query query' holds) : BothYes keeps query' query holds := by
  intro trail trail' after after' hkeeps hkeeps' hrun hrun'
  obtain ⟨hholds, hafter', hafter⟩ := h _ _ _ _ hkeeps' hkeeps hrun' hrun
  exact ⟨hholds, hafter, hafter'⟩

/-- A query that says no does not say yes. -/
theorem no : BothYes keeps (Pure.pure false) query' holds := by
  intro trail trail' after after' _ _ hrun
  cases hrun

/-- A query without steps does not say yes. -/
theorem exhausted : BothYes keeps Query.exhausted query' holds := by
  intro trail trail' after after' _ _ hrun
  cases hrun

/-- What two queries ensure holds if they both say yes. -/
theorem of_ensures {post post' : Bool → Prop} (hquery : Ensures keeps query post)
    (hquery' : Ensures keeps query' post') (h : post true → post' true → holds) :
    BothYes keeps query query' holds := by
  intro trail trail' after after' hkeeps hkeeps' hrun hrun'
  obtain ⟨hafter, hpost⟩ := hquery trail hkeeps true after hrun
  obtain ⟨hafter', hpost'⟩ := hquery' trail' hkeeps' true after' hrun'
  exact ⟨h hpost hpost', hafter, hafter'⟩

/-- Two conjunctions say yes only if all their parts do. -/
theorem and (h : BothYes keeps query query' holds) (hsecond : BothYes keeps second second' holds') :
    BothYes keeps (query >>= fun yes => if yes = true then second else Pure.pure false)
      (query' >>= fun yes => if yes = true then second' else Pure.pure false)
      (holds ∧ holds') := by
  intro trail trail' after after' hkeeps hkeeps' hrun hrun'
  obtain ⟨yes, between, hfirst, hrest⟩ := bind_some hrun
  obtain ⟨yes', between', hfirst', hrest'⟩ := bind_some hrun'
  cases yes with
  | false => cases hrest
  | true =>
      cases yes' with
      | false => cases hrest'
      | true =>
          obtain ⟨hholds, hbetween, hbetween'⟩ := h _ _ _ _ hkeeps hkeeps' hfirst hfirst'
          obtain ⟨hholds', hafter⟩ := hsecond _ _ _ _ hbetween hbetween' hrest hrest'
          exact ⟨⟨hholds, hholds'⟩, hafter⟩

end BothYes

end Query

open Query

/-- Arguments without owners are compared position by position, if there are as many. -/
theorem sameArguments_without_owners (check : Ty → Ty → Query Bool) (args args' : List Ty) :
    sameArguments check none none args args' =
      if args.length == args'.length then (args.zip args').allM (fun pair => check pair.1 pair.2)
      else pure false := by
  show (if (true && args.length == args'.length) = true then _ else _) = _
  rw [Bool.true_and]

/-- Two comparisons of arguments say yes only if the comparisons at all positions do. The arguments
of the one are related to those of the other. -/
theorem sameArguments_both {keeps : Memo → Prop} {check check' : Ty → Ty → Query Bool}
    {left right holds : Ty → Ty → Prop} {args args' others others' : List Ty}
    (hargs : List.Forall₂ left args args') (hothers : List.Forall₂ right others others')
    (h : ∀ {arg arg' other other'}, left arg arg' → right other other' →
      BothYes keeps (check arg other) (check' other' arg') (holds arg other)) :
    BothYes keeps (sameArguments check none none args others)
      (sameArguments check' none none others' args') (List.Forall₂ holds args others) := by
  rw [sameArguments_without_owners, sameArguments_without_owners, ← hargs.length_eq,
    ← hothers.length_eq]
  cases hequal : args.length == others.length with
  | false => exact .no
  | true =>
      have hlength := beq_iff_eq.1 hequal
      rw [hlength, beq_self_eq_true]
      clear hequal
      show BothYes keeps ((args.zip others).allM _) ((others'.zip args').allM _) _
      induction hargs generalizing others others' with
      | nil =>
          cases List.length_eq_zero_iff.1 hlength.symm
          cases hothers
          exact .of_ensures Decides.yes Decides.yes fun _ _ => .nil
      | cons harg _ ih =>
          cases hothers with
          | nil => cases hlength
          | cons hother hothers =>
              rw [List.zip_cons_cons, List.zip_cons_cons, List.allM_cons, List.allM_cons]
              refine BothYes.mono ((h harg hother).and (ih hothers (Nat.succ.inj hlength))) ?_
              exact fun hboth => .cons hboth.1 hboth.2

/-! ## Shapes -/

/-- A type accepts nothing of a lower level. -/
def Ty.level : Ty → Nat
  | .wildcard _ _ => 0
  | .named _ | .applied _ _ _ => 1
  | .array _ => 2
  | .var _ => 3

/-- Equal types are of one level. -/
theorem Ty.level_congr {s t : Ty} (h : (s == t) = true) : s.level = t.level := by
  cases s <;> cases t <;> first | rfl | cases h

/-- A node that is neither a raw use of a generic declaration nor a member of an enclosing type. -/
def Env.BareAt (env : Env) : Ty → Prop
  | .named head => env.isRaw (.named head) = false
  | .applied owner _ _ => owner = none
  | .array _ | .var _ | .wildcard _ _ => True

/-- A type without raw uses and owners. -/
def Env.Bare (env : Env) (t : Ty) : Prop := t.Everywhere env.BareAt

namespace Context

variable {context : Context} {domain : Ty → Prop}

/-- A comparison with a payload of a lower level ends without a yes. -/
theorem compare_level {receiver payload : Ty} (h : payload.level < receiver.level) (fuel : Nat)
    (pending : List (Ty × TypeVar)) (variance : Variance) :
    context.compare fuel pending variance receiver payload = exhausted ∨
      context.compare fuel pending variance receiver payload = pure false := by
  have hcovariant (fuel : Nat) : context.covariant fuel pending receiver payload = exhausted ∨
      context.covariant fuel pending receiver payload = pure false := by
    cases fuel with
    | zero => exact .inl rfl
    | succ fuel =>
        right
        cases receiver <;> cases payload <;> first | rfl | simp [Ty.level] at h
  cases variance with
  | covariant => exact hcovariant fuel
  | invariant =>
      cases fuel with
      | zero => exact .inl rfl
      | succ fuel =>
          cases hwild : receiver.isWildcard || payload.isWildcard with
          | true =>
              rw [compare, invariant_wildcard hwild]
              exact hcovariant fuel
          | false =>
              right
              cases receiver <;> cases payload <;>
                first | rfl | exact absurd h (Nat.lt_irrefl _) | cases hwild

/-- Types that accept each other are of one level. -/
theorem both_of_level {keeps : Memo → Prop} {a a' b b' : Ty} {variance : Variance}
    {fuel fuel' : Nat} {pending pending' : List (Ty × TypeVar)} {holds : Prop}
    (ha : a.level = a'.level) (hb : b.level = b'.level)
    (h : a.level = b.level → BothYes keeps (context.compare fuel pending variance a b)
      (context.compare fuel' pending' variance b' a') holds) :
    BothYes keeps (context.compare fuel pending variance a b)
      (context.compare fuel' pending' variance b' a') holds := by
  rcases Nat.lt_trichotomy a.level b.level with hlt | heq | hgt
  · rw [ha, hb] at hlt
    refine BothYes.symm ?_
    rcases context.compare_level hlt fuel' pending' variance with hno | hno <;> rw [hno]
    · exact .exhausted
    · exact .no
  · exact h heq
  · rcases context.compare_level hgt fuel pending variance with hno | hno <;> rw [hno]
    · exact .exhausted
    · exact .no

variable (context domain) in
/-- A type of the domain without raw uses and owners that is equal to a given type. -/
structure Copy (t a : Ty) : Prop where
  equal : (t == a) = true
  mem : domain a
  bare : context.env.Bare a

namespace Copy

variable {t a : Ty}

/-- A copy is a copy of itself. -/
theorem self (h : context.Copy domain t a) : context.Copy domain a a := ⟨BEq.rfl, h.mem, h.bare⟩

/-- What is equal to a copy is one too, if it is in the domain. -/
theorem congr (h : context.Copy domain t a) (hacyclic : context.Acyclic domain) {a' : Ty}
    (heq : (a == a') = true) (hmem : domain a') : context.Copy domain t a' := by
  refine ⟨BEq.trans h.equal heq, hmem, ?_⟩
  have hbare := h.bare
  have hdomain := h.mem
  clear h
  induction a using Ty.parts_induction generalizing a' with
  | step a ih =>
      refine .intro ?_ fun part' hpart' => ?_
      · cases a with
        | named head =>
            obtain ⟨head', rfl, hhead⟩ := Ty.named_beq heq
            exact (hacyclic.raw hdomain hmem hhead).symm.trans hbare.self
        | applied owner raw args =>
            obtain ⟨owner', _, _, rfl, _, howner, _⟩ := Ty.applied_beq heq
            cases (hbare.self : owner = none)
            rcases Ty.option_beq howner with ⟨_, rfl⟩ | ⟨_, _, hnone, _⟩
            · rfl
            · cases hnone
        | array component =>
            obtain ⟨_, rfl, _⟩ := Ty.array_beq heq
            trivial
        | var param =>
            obtain ⟨_, rfl, _⟩ := Ty.var_beq heq
            trivial
        | wildcard upper lower =>
            obtain ⟨_, _, rfl, _⟩ := Ty.wildcard_beq heq
            trivial
      · obtain ⟨part, hpart, hequal⟩ := (Ty.matches_parts heq).flip.exists_mem hpart'
        exact ih part hpart hequal (hacyclic.part hmem hpart') (hbare.part hpart)
          (hacyclic.part hdomain hpart)

/-- Parts of copies are copies of parts. -/
theorem parts (h : context.Copy domain t a) (hacyclic : context.Acyclic domain) :
    List.Forall₂ (context.Copy domain) t.parts a.parts := by
  have hparts (part : Ty) (hpart : part ∈ a.parts) :
      domain part ∧ context.env.Bare part := ⟨hacyclic.part h.mem hpart, h.bare.part hpart⟩
  have hboth := (List.forall₂_and_left _ _).2 ⟨hparts, (Ty.matches_parts h.equal).flip⟩
  exact hboth.flip.imp fun _ _ hpart => ⟨hpart.2, hpart.1.1, hpart.1.2⟩

/-- A copy of an applied type has no owner, and its arguments are copies. -/
theorem applied {owner : Option Ty} {raw : ClassName} {args : List Ty}
    (h : context.Copy domain (.applied owner raw args) a) (hacyclic : context.Acyclic domain) :
    owner = none ∧ ∃ raw' args', a = .applied none raw' args' ∧ (raw.toNamed == raw') = true ∧
      List.Forall₂ (context.Copy domain) args args' := by
  have hparts := h.parts hacyclic
  obtain ⟨owner', raw', args', rfl, hraw, howner, _⟩ := Ty.applied_beq h.equal
  cases (h.bare.self : owner' = none)
  rcases Ty.option_beq howner with ⟨rfl, _⟩ | ⟨_, _, _, hnone, _⟩
  · exact ⟨rfl, raw', args', rfl, hraw, hparts⟩
  · cases hnone

end Copy

variable (context domain) in
/-- What accepts copies of the type and is accepted by copies of it is equal to it. -/
def Pinned (t : Ty) : Prop :=
  ∀ a a' b b', context.Copy domain t a → context.Copy domain t a' → context.Copy domain b b →
    context.Copy domain b b' → ∀ variance fuel fuel' pending pending',
    BothYes (context.HoldsClosures domain) (context.compare fuel pending variance a b)
      (context.compare fuel' pending' variance b' a') ((a == b) = true)

/-- Comparisons that say yes take a step. -/
theorem both_of_steps {keeps : Memo → Prop} {a a' b b' : Ty} {variance : Variance}
    {fuel fuel' : Nat} {pending pending' : List (Ty × TypeVar)} {holds : Prop}
    (h : ∀ less less', BothYes keeps (context.compare (less + 1) pending variance a b)
      (context.compare (less' + 1) pending' variance b' a') holds) :
    BothYes keeps (context.compare fuel pending variance a b)
      (context.compare fuel' pending' variance b' a') holds := by
  cases fuel with
  | zero => cases variance <;> exact .exhausted
  | succ less =>
      cases fuel' with
      | zero => cases variance <;> exact BothYes.symm .exhausted
      | succ less' => exact h less less'

/-! ## Types that accept each other -/

section Shapes

variable {variance : Variance} {fuel fuel' : Nat} {pending pending' : List (Ty × TypeVar)}

/-- A name and an applied type do not accept each other. -/
theorem named_applied_both (hheaded : context.env.Headed)
    (hchains : WellFounded fun above below => context.env.Declares below above)
    {head head' : Named} {raw raw' : ClassName} {args args' : List Ty}
    (hhead : (head == head') = true) (hraw : (raw.toNamed == raw') = true)
    (hnamed : context.Copy domain (.named head') (.named head'))
    (happlied : domain (.applied none raw args)) :
    BothYes (context.HoldsClosures domain)
      (context.compare fuel pending variance (.named head) (.applied none raw args))
      (context.compare fuel' pending' variance (.applied none raw' args') (.named head'))
      False := by
  refine both_of_steps fun fuel fuel' => ?_
  cases variance with
  | invariant => exact .no
  | covariant =>
      intro trail trail' after after' hmemo hmemo' hrun hrun'
      obtain ⟨_, habove⟩ := nominallyContains_head hheaded happlied rfl head fuel trail hmemo true
        after hrun
      obtain ⟨yes, between, hcontains, hrest⟩ := bind_some hrun'
      cases yes with
      | false => cases hrest
      | true =>
          obtain ⟨hbetween, _⟩ := nominallyContains_head hheaded hnamed.mem rfl raw' fuel' trail'
            hmemo' true between hcontains
          obtain ⟨yes, last, hancestor, hrest⟩ := bind_some hrest
          cases yes with
          | false =>
              -- only a raw use would be accepted without a matching ancestor
              dsimp only [acceptsRaw] at hrest
              rw [(hnamed.bare.self : context.env.isRaw (.named head') = false)] at hrest
              cases hrest
          | true =>
              rcases hasMatchingAncestor_yes hheaded hnamed.mem rfl hbetween hancestor with
                ⟨htop, hchain⟩ | ⟨_, _, _, _, _, _, heq, _⟩
              · rw [← Named.beq_iff.1 hhead, ← Named.beq_iff.1 hraw] at hchain
                rcases habove rfl with hsame | ⟨_, htop' | hback⟩
                · exact (not_above_self hchains _ (hsame ▸ hchain)).elim
                · have hequal : (Ty.named head == .named head') = true := hhead
                  rw [← Ty.isTop_congr hequal] at htop
                  cases htop.symm.trans htop'
                · exact (not_above_self hchains _ (hchain.trans hback)).elim
              · cases heq

/-- Names that accept each other are equal. -/
theorem named_named_both (hheaded : context.env.Headed)
    (hchains : WellFounded fun above below => context.env.Declares below above)
    {first first' second second' : Named} (hfirst : (first == first') = true)
    (hsecond : (second == second') = true) (hmem : domain (.named second))
    (hmem' : domain (.named first')) :
    BothYes (context.HoldsClosures domain)
      (context.compare fuel pending variance (.named first) (.named second))
      (context.compare fuel' pending' variance (.named second') (.named first'))
      ((first == second) = true) := by
  refine both_of_steps fun fuel fuel' => ?_
  cases variance with
  | invariant =>
      exact .of_ensures (Decides.pure _) (Decides.pure (second' == first')) fun h _ => h.1 rfl
  | covariant =>
      refine .of_ensures (nominallyContains_head hheaded hmem rfl first fuel)
        (nominallyContains_head hheaded hmem' rfl second' fuel') fun h h' => ?_
      rcases h rfl with hsame | ⟨htop, habove⟩
      · exact Named.beq_iff.2 hsame.symm
      · rcases h' rfl with hsame | ⟨htop', habove'⟩
        · exact BEq.trans hfirst (BEq.trans (Named.beq_iff.2 hsame) (BEq.symm hsecond))
        · -- neither is the universal supertype, so each lies above the other
          have hequal : (Ty.named first == .named first') = true := hfirst
          have hequal' : (Ty.named second == .named second') = true := hsecond
          rw [Ty.isTop_congr hequal'] at htop
          rw [← Ty.isTop_congr hequal] at htop'
          have hchain := habove.resolve_left (Bool.eq_false_iff.1 htop')
          have hchain' := habove'.resolve_left (Bool.eq_false_iff.1 htop)
          rw [← Named.beq_iff.1 hfirst, ← Named.beq_iff.1 hsecond] at hchain'
          exact (not_above_self hchains _ (hchain.trans hchain')).elim

/-- Names are pinned. -/
theorem pinned_named (hheaded : context.env.Headed)
    (hchains : WellFounded fun above below => context.env.Declares below above)
    (hacyclic : context.Acyclic domain) (head : Named) :
    context.Pinned domain (.named head) := by
  intro a a' b b' ha ha' hb hb' variance fuel fuel' pending pending'
  obtain ⟨first, rfl, hfirst⟩ := Ty.named_beq ha.equal
  obtain ⟨first', rfl, hfirst'⟩ := Ty.named_beq ha'.equal
  have hequal := BEq.trans (BEq.symm hfirst) hfirst'
  refine both_of_level rfl (Ty.level_congr hb'.equal) fun hlevel => ?_
  cases b with
  | named second =>
      obtain ⟨second', rfl, hsecond⟩ := Ty.named_beq hb'.equal
      exact named_named_both hheaded hchains hequal hsecond hb.mem ha'.mem
  | applied owner raw args =>
      obtain ⟨rfl, raw', args', rfl, hraw, _⟩ := hb'.applied hacyclic
      exact (named_applied_both hheaded hchains hequal hraw ha'.self hb.mem).mono False.elim
  | array | var | wildcard => cases hlevel

/-- Arrays of a pinned type are pinned. -/
theorem Pinned.array (hacyclic : context.Acyclic domain) {component : Ty}
    (h : context.Pinned domain component) : context.Pinned domain (.array component) := by
  have hcomponent {inner inner' : Ty} (hcopy : context.Copy domain (.array inner) (.array inner')) :
      context.Copy domain inner inner' := by
    cases hcopy.parts hacyclic with
    | cons hinner _ => exact hinner
  intro a a' b b' ha ha' hb hb' variance fuel fuel' pending pending'
  obtain ⟨first, rfl, _⟩ := Ty.array_beq ha.equal
  obtain ⟨first', rfl, _⟩ := Ty.array_beq ha'.equal
  refine both_of_level rfl (Ty.level_congr hb'.equal) fun hlevel => ?_
  cases b with
  | array second =>
      obtain ⟨second', rfl, _⟩ := Ty.array_beq hb'.equal
      refine both_of_steps fun fuel fuel' => ?_
      have hboth := h _ _ _ _ (hcomponent ha) (hcomponent ha') (hcomponent hb) (hcomponent hb')
        variance fuel fuel' pending pending'
      cases variance <;> exact hboth
  | named | applied | var | wildcard => cases hlevel

/-- Variables are pinned. -/
theorem pinned_var (hacyclic : context.Acyclic domain) (param : TypeVar) :
    context.Pinned domain (.var param) := by
  intro a a' b b' ha ha' hb hb' variance fuel fuel' pending pending'
  obtain ⟨first, rfl, hfirst⟩ := Ty.var_beq ha.equal
  obtain ⟨first', rfl, hfirst'⟩ := Ty.var_beq ha'.equal
  refine both_of_level rfl (Ty.level_congr hb'.equal) fun hlevel => ?_
  cases b with
  | var second =>
      obtain ⟨second', rfl, hsecond⟩ := Ty.var_beq hb'.equal
      refine both_of_steps fun fuel fuel' => ?_
      cases variance with
      | invariant =>
          exact .of_ensures (Decides.pure _) (Decides.pure (second' == first')) fun h _ => h.1 rfl
      | covariant =>
          refine .of_ensures (variableAccepts_chain context.heap first fuel [] second)
            (variableAccepts_chain context.heap second' fuel' [] first') fun h h' => ?_
          exact hacyclic.equal_of_chains ha'.mem hb.mem (BEq.trans (BEq.symm hfirst) hfirst')
            hsecond (h rfl) (h' rfl)
  | named | applied | array | wildcard => cases hlevel

/-- Wildcards with pinned bounds are pinned. -/
theorem Pinned.wildcard (hacyclic : context.Acyclic domain) {upper : Ty} {lower : Option Ty}
    (hupper : context.Pinned domain upper)
    (hlower : ∀ bound ∈ lower, context.Pinned domain bound) :
    context.Pinned domain (.wildcard upper lower) := by
  have hcopies {t u : Ty} {low : Option Ty} (hcopy : context.Copy domain (.wildcard t low) u) :
      ∃ t' low', u = .wildcard t' low' ∧ context.Copy domain t t' ∧
        Option.Rel (context.Copy domain) low low' := by
    have hparts := hcopy.parts hacyclic
    obtain ⟨t', low', rfl, _, hlow⟩ := Ty.wildcard_beq hcopy.equal
    refine ⟨t', low', rfl, (List.forall₂_cons.1 hparts).1, ?_⟩
    rcases Ty.option_beq hlow with ⟨rfl, rfl⟩ | ⟨bound, bound', rfl, rfl, _⟩
    · exact .none
    · exact .some (List.forall₂_cons.1 (List.forall₂_cons.1 hparts).2).1
  -- under invariance the same comparison is made one step later
  suffices hcovariant : ∀ {a a' b b'}, context.Copy domain (.wildcard upper lower) a →
      context.Copy domain (.wildcard upper lower) a' → context.Copy domain b b →
      context.Copy domain b b' → ∀ fuel fuel' pending pending',
      BothYes (context.HoldsClosures domain) (context.compare fuel pending .covariant a b)
        (context.compare fuel' pending' .covariant b' a') ((a == b) = true) by
    intro a a' b b' ha ha' hb hb' variance fuel fuel' pending pending'
    cases variance with
    | covariant => exact hcovariant ha ha' hb hb' fuel fuel' pending pending'
    | invariant =>
        refine both_of_steps fun fuel fuel' => ?_
        obtain ⟨_, _, rfl, _⟩ := hcopies ha
        obtain ⟨_, _, rfl, _⟩ := hcopies ha'
        have hboth := hcovariant ha ha' hb hb' fuel fuel' pending pending'
        rw [compare, compare, invariant_wildcard rfl, invariant_wildcard (Bool.or_true _)]
        exact hboth
  intro a a' b b' ha ha' hb hb' fuel fuel' pending pending'
  obtain ⟨first, low, rfl, hfirst, hlow⟩ := hcopies ha
  obtain ⟨first', low', rfl, hfirst', hlow'⟩ := hcopies ha'
  refine both_of_level rfl (Ty.level_congr hb'.equal) fun hlevel => ?_
  cases b with
  | wildcard second other =>
      obtain ⟨_, _, heq, hsecond, hself⟩ := hcopies hb
      cases heq
      obtain ⟨second', other', rfl, hsecond', hother⟩ := hcopies hb'
      refine both_of_steps fun fuel fuel' => ?_
      have huppers := hupper _ _ _ _ hfirst hfirst' hsecond hsecond' .covariant fuel fuel' pending
        pending'
      cases hlow with
      | none =>
          cases hlow'
          cases hother with
          | none =>
              refine (huppers.and (.of_ensures Decides.yes Decides.yes fun _ _ => trivial)).mono
                fun h => ?_
              rw [Ty.wildcard_beq_wildcard, h.1]
              rfl
          | some => exact (huppers.and (BothYes.symm .no)).mono fun h => h.2
      | @some bound low hbound =>
          cases hlow' with
          | @some _ low' hbound' =>
              cases hother with
              | none => exact (huppers.and .no).mono fun h => h.2
              | @some other other' hcopy =>
                  cases hself with
                  | some hself =>
                      -- lower bounds are compared the other way round
                      have hback : context.Copy domain other' other :=
                        ⟨BEq.symm hcopy.equal, hself.mem, hself.bare⟩
                      have hlowers := hlower bound rfl _ _ _ _ hbound' hbound hcopy.self hback
                        .covariant fuel' fuel pending' pending
                      refine (huppers.and hlowers.symm).mono fun h => ?_
                      have hequal : (low == other) = true :=
                        BEq.trans (BEq.trans (BEq.symm hbound.equal) hbound'.equal)
                          (BEq.trans h.2 (BEq.symm hcopy.equal))
                      rw [Ty.wildcard_beq_wildcard, h.1]
                      exact hequal
  | named | applied | array | var => cases hlevel

/-- Arguments that accept each other are equal if they are pinned. -/
theorem arguments_both {args first first' second second' : List Ty}
    (hpinned : ∀ arg ∈ args, context.Pinned domain arg)
    (hfirst : List.Forall₂ (context.Copy domain) args first)
    (hfirst' : List.Forall₂ (context.Copy domain) args first')
    (hself : List.Forall₂ (context.Copy domain) second second)
    (hsecond : List.Forall₂ (context.Copy domain) second second') :
    BothYes (context.HoldsClosures domain)
      (sameArguments (context.invariant fuel pending) none none first second)
      (sameArguments (context.invariant fuel' pending') none none second' first')
      (Ty.Matches first second) := by
  have hleft : List.Forall₂ (fun arg arg' => ∃ t, context.Pinned domain t ∧
      context.Copy domain t arg ∧ context.Copy domain t arg') first first' :=
    hfirst.join hfirst' fun t ht _ _ _ _ hcopy hcopy' => ⟨t, hpinned t ht, hcopy, hcopy'⟩
  have hright : List.Forall₂ (fun other other' => context.Copy domain other other ∧
      context.Copy domain other other') second second' :=
    (List.forall₂_and_left _ _).2 ⟨List.forall₂_same.1 hself, hsecond⟩
  refine sameArguments_both hleft hright fun hargs hothers => ?_
  obtain ⟨t, ht, hcopy, hcopy'⟩ := hargs
  exact ht _ _ _ _ hcopy hcopy' hothers.1 hothers.2 .invariant fuel fuel' pending pending'

/-- Applications to pinned arguments are pinned. -/
theorem Pinned.applied (hheaded : context.env.Headed)
    (hchains : WellFounded fun above below => context.env.Declares below above)
    (hacyclic : context.Acyclic domain) {owner : Option Ty} {raw : ClassName} {args : List Ty}
    (hpinned : ∀ arg ∈ args, context.Pinned domain arg) :
    context.Pinned domain (.applied owner raw args) := by
  intro a a' b b' ha ha' hb hb' variance fuel fuel' pending pending'
  obtain ⟨rfl, first, firsts, rfl, hfirst, hfirsts⟩ := ha.applied hacyclic
  obtain ⟨_, first', firsts', rfl, hfirst', hfirsts'⟩ := ha'.applied hacyclic
  refine both_of_level rfl (Ty.level_congr hb'.equal) fun hlevel => ?_
  cases b with
  | named second =>
      obtain ⟨second', rfl, hsecond⟩ := Ty.named_beq hb'.equal
      have hequal := BEq.trans (BEq.symm hfirst') hfirst
      exact (named_applied_both hheaded hchains (BEq.symm hsecond) hequal hb.self
        ha'.mem).symm.mono False.elim
  | applied owner' second seconds =>
      obtain ⟨rfl, second', seconds', rfl, hsecond, hseconds'⟩ := hb'.applied hacyclic
      obtain ⟨_, _, _, heq, _, hseconds⟩ := hb.applied hacyclic
      cases heq
      refine both_of_steps fun fuel fuel' => ?_
      cases variance with
      | invariant =>
          show BothYes _ (if first.toNamed == second then _ else _)
            (if second'.toNamed == first' then _ else _) _
          split
          · rename_i hraw
            split
            · exact (arguments_both hpinned hfirsts hfirsts' hseconds hseconds').mono
                (Ty.applied_congr rfl hraw)
            · exact BothYes.symm .no
          · exact .no
      | covariant =>
          have hcontains := BothYes.of_ensures
            (nominallyContains_head hheaded hb.mem rfl first fuel)
            (nominallyContains_head hheaded ha'.mem rfl second' fuel') fun _ _ => trivial
          refine (hcontains.and ?_).mono And.right
          intro trail trail' after after' hmemo hmemo' hrun hrun'
          have hname : first'.name = first.name :=
            Named.beq_iff.1 (BEq.trans (BEq.symm hfirst') hfirst)
          have hname' : second'.name = second.name := (Named.beq_iff.1 hsecond).symm
          have hcircle := not_above_self hchains
          rcases hasMatchingAncestor_yes hheaded hb.mem rfl hmemo hrun with
            ⟨_, habove⟩ | ⟨hsame, _, found, others, between, hmem, heq, hbetween, hargs⟩
          · rcases hasMatchingAncestor_yes hheaded ha'.mem rfl hmemo' hrun' with
              ⟨_, habove'⟩ | ⟨hsame', _⟩
            · rw [hname, hname'] at habove'
              exact (hcircle _ (habove.trans habove')).elim
            · rw [hname, hname'] at hsame'
              exact (hcircle _ (hsame' ▸ habove)).elim
          · rcases hasMatchingAncestor_yes hheaded ha'.mem rfl hmemo' hrun' with
              ⟨_, habove'⟩ | ⟨hsame', _, found', _, between', hmem', heq', hbetween', hargs'⟩
            · rw [hname, hname', hsame] at habove'
              exact (hcircle _ habove').elim
            · -- each is its own matching ancestor, up to equality, so the arguments are compared
              have hcopy := hb.congr hacyclic heq hmem
              obtain ⟨_, _, _, hshape, _⟩ := hcopy.applied hacyclic
              cases hshape
              obtain ⟨_, _, _, hshape, _, hothers⟩ := hcopy.self.applied hacyclic
              cases hshape
              have hback : context.Copy domain (.applied none found others)
                  (.applied none second' seconds') :=
                ⟨BEq.trans (BEq.symm heq) hb'.equal, hb'.mem, hb'.bare⟩
              obtain ⟨_, _, _, hshape, _, hothers'⟩ := hback.applied hacyclic
              cases hshape
              obtain ⟨_, _, _, hshape, _, hfirsts''⟩ :=
                (ha'.congr hacyclic heq' hmem').applied hacyclic
              cases hshape
              obtain ⟨hmatches, hafter⟩ := arguments_both hpinned hfirsts hfirsts'' hothers hothers'
                _ _ _ _ hbetween hbetween' hargs hargs'
              obtain ⟨_, _, _, hshape, hfound, _⟩ := Ty.applied_beq heq
              cases hshape
              have hraw : (first.toNamed == found) = true :=
                BEq.trans (Named.beq_iff.2 hsame.symm) hfound
              exact ⟨BEq.trans (Ty.applied_congr rfl hraw hmatches) (BEq.symm heq), hafter⟩
  | array | var | wildcard => cases hlevel

end Shapes

/-- All types are pinned. -/
theorem pinned (hheaded : context.env.Headed)
    (hchains : WellFounded fun above below => context.env.Declares below above)
    (hacyclic : context.Acyclic domain) (t : Ty) : context.Pinned domain t := by
  induction t using Ty.parts_induction with
  | step t ih =>
      cases t with
      | named head => exact pinned_named hheaded hchains hacyclic head
      | applied owner raw args =>
          exact .applied hheaded hchains hacyclic fun arg harg =>
            ih arg (List.mem_append_right _ harg)
      | array component => exact (ih component (List.mem_singleton.2 rfl)).array hacyclic
      | var param => exact pinned_var hacyclic param
      | wildcard upper lower =>
          exact (ih upper List.mem_cons_self).wildcard hacyclic fun bound hbound =>
            ih bound (List.mem_cons_of_mem _ (Option.mem_toList.2 hbound))

/-- Where declared supertypes are names or applied types and no chain of declared names goes on for
ever, types without raw uses and owners that accept each other under covariance are equal. The
closures that the two questions find memoized are those of types of an acyclic domain; for empty
memos the domain may be the two types, their parts and the variables that bound them. -/
theorem isAssignable_antisymm (hheaded : context.env.Headed)
    (hchains : WellFounded fun above below => context.env.Declares below above)
    (hacyclic : context.Acyclic domain) {a b : Ty} (ha : domain a) (hb : domain b)
    (hbare : context.env.Bare a) (hbare' : context.env.Bare b) (boxing : Boxing)
    {fuel fuel' : Nat} {trail trail' after after' : Trail}
    (hmemo : context.HoldsClosures domain trail.memo)
    (hmemo' : context.HoldsClosures domain trail'.memo)
    (h : context.isAssignable fuel boxing ⟨.covariant, false⟩ a b trail = some (true, after))
    (h' : context.isAssignable fuel' boxing ⟨.covariant, false⟩ b a trail' =
      some (true, after')) : (a == b) = true := by
  have hcopy : context.Copy domain a a := ⟨BEq.rfl, ha, hbare⟩
  have hcopy' : context.Copy domain b b := ⟨BEq.rfl, hb, hbare'⟩
  rw [isAssignable_eq] at h h'
  exact (pinned hheaded hchains hacyclic a _ _ _ _ hcopy hcopy hcopy' hcopy' .covariant fuel
    fuel' [] [] trail trail' after after' hmemo hmemo' h h').1

/-- Crates of supertypes of the variable that is bounded by a crate of itself. The handle takes no
part in equality, nor does the number of arguments that the name expects. -/
def crateAbove (handle : Handle) (arity : Nat) : Ty :=
  .applied none ⟨⟨"Crate", .classType, arity⟩, rfl⟩
    [.wildcard .top (some (.var ⟨"S", "m", handle⟩))]

/-- The types that occur in two such crates. -/
def crateParts : List Ty :=
  [crateAbove (.owning 4) 1, crateAbove (.back 4) 2,
    .wildcard .top (some (.var ⟨"S", "m", .owning 4⟩)),
    .wildcard .top (some (.var ⟨"S", "m", .back 4⟩)), .top,
    .var ⟨"S", "m", .owning 4⟩, .var ⟨"S", "m", .back 4⟩]

/-- Two crates and their parts make an acyclic domain: the bound of the variable is no variable. -/
theorem crateParts_acyclic : growing.Acyclic (· ∈ crateParts) := by
  have hvar {param : TypeVar} (h : .var param ∈ crateParts) :
      param = ⟨"S", "m", .owning 4⟩ ∨ param = ⟨"S", "m", .back 4⟩ := by
    simpa [crateParts, crateAbove, Ty.top] using h
  have hbounds {param : TypeVar} (h : .var param ∈ crateParts) :
      growing.heap.bounds param = [.applied none crate [.var ⟨"S", "m", .back 4⟩]] := by
    rcases hvar h with rfl | rfl <;> rfl
  have hnext {param bound : TypeVar} (h : .var param ∈ crateParts) :
      ¬ growing.heap.BoundedBy param bound := by
    rw [Heap.BoundedBy, hbounds h, List.mem_singleton]
    simp
  have hnamed {head : Named} (h : .named head ∈ crateParts) : head = .top := by
    simpa [crateParts, crateAbove, Ty.top] using h
  constructor
  case part =>
      have hparts : ∀ t ∈ crateParts, ∀ u ∈ t.parts, u ∈ crateParts := by
        simp [crateParts, crateAbove, Ty.parts, Ty.top]
      exact fun {t u} ht hu => hparts t ht u hu
  case next => exact fun h hbound => (hnext h hbound).elim
  case bounds =>
      intro first second hfirst hsecond _
      rw [hbounds hfirst, hbounds hsecond]
      rfl
  case raw =>
      intro first second hfirst hsecond _
      rw [hnamed hfirst, hnamed hsecond]
  case ends =>
      intro param last hparam hchain
      obtain ⟨_, hfirst, _⟩ := Relation.TransGen.head'_iff.1 hchain
      exact (hnext hparam hfirst).elim

set_option maxRecDepth 4000 in
/-- The two crates accept each other, and they are equal. -/
theorem crates_equal :
    (∃ after, growing.isAssignable 8 .empty ⟨.covariant, false⟩ (crateAbove (.owning 4) 1)
        (crateAbove (.back 4) 2) .empty = some (true, after)) ∧
      (∃ after, growing.isAssignable 8 .empty ⟨.covariant, false⟩ (crateAbove (.back 4) 2)
        (crateAbove (.owning 4) 1) .empty = some (true, after)) ∧
      (crateAbove (.owning 4) 1 == crateAbove (.back 4) 2) = true := by
  have hbare (handle : Handle) (arity : Nat) : growing.env.Bare (crateAbove handle arity) := by
    refine .intro rfl (List.forall_mem_singleton.2 (.intro trivial ?_))
    refine List.forall_mem_cons.2 ⟨.intro rfl (List.forall_mem_nil _), ?_⟩
    exact List.forall_mem_singleton.2 (.intro trivial (List.forall_mem_nil _))
  have hempty : growing.HoldsClosures (· ∈ crateParts) Trail.empty.memo :=
    holdsClosures_empty _
  have hfirst : ∃ after, growing.isAssignable 8 .empty ⟨.covariant, false⟩
      (crateAbove (.owning 4) 1) (crateAbove (.back 4) 2) .empty = some (true, after) := ⟨_, rfl⟩
  have hsecond : ∃ after, growing.isAssignable 8 .empty ⟨.covariant, false⟩
      (crateAbove (.back 4) 2) (crateAbove (.owning 4) 1) .empty = some (true, after) := ⟨_, rfl⟩
  refine ⟨hfirst, hsecond, ?_⟩
  obtain ⟨after, hrun⟩ := hfirst
  obtain ⟨after', hrun'⟩ := hsecond
  exact isAssignable_antisymm growing_headed growing_chains crateParts_acyclic (.head _)
    (.tail _ (.head _)) (hbare _ _) (hbare _ _) .empty hempty hempty hrun hrun'

end Context

end Nominal
