import Nominal.Proofs.ClosureAcceptance
import Nominal.Proofs.Termination
import Nominal.Proofs.Unanswered
import Nominal.Proofs.Widening

/-!
# Acceptance of plain types is transitive

In a hierarchy of plain types (`Tidy`), covariant and invariant acceptance are transitive together,
on names, applied types with wildcards at any depth, arrays, variables and wildcards. The proof
follows the first type: what it accepts is closed under acceptance if that holds of its parts.
-/

namespace Nominal.Context

open Query

variable {context : Context} {roots : List Ty}

/-- Equal types behave alike, declared supertypes have heads, the universal supertype has no
supertypes, only names lie above arrays, and neither declared supertypes nor bounds mention owners,
lower bounds or raw uses. -/
structure Tidy (context : Context) (roots : List Ty) : Prop where
  coherent : context.Coherent roots
  regular : context.env.Regular
  rooted : context.env.Rooted
  markers : context.MarkersNamed
  plain : context.PlainHierarchy roots context.env.NotRaw

/-! ## Ancestors -/

/-- What an applied type accepts has a head, unless it is a variable. -/
theorem exists_head_of_applied {owner : Option Ty} {raw : ClassName} {args : List Ty} {payload : Ty}
    (hvar : payload.isVar = false)
    (h : context.Accepts .covariant (.applied owner raw args) payload) :
    ∃ head, payload.head? = some head := by
  cases payload with
  | named head => exact ⟨head, rfl⟩
  | applied _ raw' _ => exact ⟨raw', rfl⟩
  | array => exact absurd (accepts_iff_rule.1 h) rule_applied_array
  | var => cases hvar
  | wildcard => cases h.not_wildcard rfl

/-- A plain type with a head that an applied type accepts has an ancestor with accepted arguments.
-/
theorem Tidy.exists_ancestor (htidy : context.Tidy roots) {owner : Option Ty} {raw : ClassName}
    {head : Named} {args : List Ty} {payload : Ty} (hhead : payload.head? = some head)
    (hpayload : payload.Plain context.env.NotRaw)
    (h : context.Accepts .covariant (.applied owner raw args) payload) :
    ∃ raw' args',
      context.Supertype payload (.applied none raw' args') ∧ (raw'.toNamed == raw) = true ∧
      List.Forall₂ (context.Accepts .invariant) args args' := by
  have hmatching : context.MatchingAncestor context.Accepts owner raw args payload := by
    rw [accepts_iff_rule] at h
    cases payload with
    | named payload =>
        refine (rule_applied_named.1 h).2.resolve_right fun hraw => ?_
        obtain ⟨hprimitive, declaration, hfound, hparams⟩ := Env.exists_of_isRaw hraw
        rcases hpayload.self with hprimitive' | hempty
        · cases hprimitive.symm.trans hprimitive'
        · cases hparams.symm.trans (hempty hfound)
    | applied owner' raw' args' => exact (rule_applied_applied.1 h).2
    | array | var | wildcard => cases hhead
  obtain ⟨owner', raw', args', hs, hraw, hargs⟩ := hmatching
  cases (Ty.Plain.of_applied (htidy.plain.supertype htidy.regular hhead hpayload hs)).owner_eq
  exact ⟨raw', args', hs, hraw, hargs.args⟩

/-- Applying a name that is no raw use does not change its direct supertypes. -/
theorem direct_applied_of_named {first : Named} {raw : ClassName} {args : List Ty} {s : Ty}
    (hnotRaw : context.env.NotRaw first) (heq : (raw.toNamed == first) = true)
    (h : context.Direct (.named first) s) : context.Direct (.applied none raw args) s := by
  obtain ⟨declaration, hfound, hparams, htop, hs⟩ := direct_named_cases hnotRaw h
  have hname := Named.beq_iff.1 heq
  have htop' : raw.isTop = false := by rw [← htop, Named.isTop, Named.isTop, hname]
  -- without parameters nothing is substituted
  have hmap : context.argumentsOf declaration none args = [] := by
    show Substitution.ofPairs (declaration.params.zip args) = []
    rw [List.isEmpty_iff.1 hparams]
    rfl
  refine ⟨_, (directs_applied (hname ▸ hfound)).2 rfl, ?_⟩
  simpa [hmap, htop', Ty.substitute] using hs

/-- A type that nominally contains a name, but no raw use, has the supertypes that lie above the
name. -/
theorem Tidy.supertype_of_contains (htidy : context.Tidy roots) {first : Named} {payload s : Ty}
    (hfirst : context.Reached roots (.named first)) (hnotRaw : context.env.NotRaw first)
    (hpayload : context.Reached roots payload) (hplain : payload.Plain context.env.NotRaw)
    (hvar : payload.isVar = false) (hwild : payload.isWildcard = false)
    (h : context.NominallyContains first payload) (hs : context.Direct (.named first) s) :
    (∃ head, payload.head? = some head ∧ context.Supertype payload s) ∨
      ∃ marker ∈ context.arraySupertypes, context.Supertype marker s := by
  have hheaded {head : Named} (hhead : payload.head? = some head) :
      context.Supertype payload s := by
    obtain ⟨u, found, hu, herases, hfound⟩ := h
    have habove : context.PlainAbove roots payload := ⟨hpayload, ⟨head, hhead⟩, .inl hplain⟩
    have hu' := habove.supertype htidy.plain htidy.regular hu
    obtain ⟨above, habove⟩ := hu'.headed
    cases herases.unique (Ty.erases_head habove)
    cases u with
    | named =>
        cases habove
        exact hu.tail (htidy.coherent.direct_named hfirst hu'.reached (BEq.symm hfound) hs)
    | applied owner raw args =>
        cases habove
        cases (Ty.Plain.of_applied hu'.plain).owner_eq
        exact hu.tail (direct_applied_of_named hnotRaw hfound hs)
    | array | var | wildcard => cases habove
  cases payload with
  | named head => exact .inl ⟨head, rfl, hheaded rfl⟩
  | applied owner raw args => exact .inl ⟨raw, rfl, hheaded rfl⟩
  | array component =>
      obtain ⟨marker, hmarker, u, found, hu, herases, hfound⟩ :=
        (nominallyContains_array htidy.regular).1 h
      obtain ⟨above, rfl⟩ := htidy.markers.exists_named hmarker hu
      cases erases_named.1 herases
      have hreached := (hpayload.direct (direct_array htidy.regular component hmarker)).supertype hu
      exact .inr ⟨marker, hmarker, hu.tail (htidy.coherent.direct_named hfirst hreached
        (BEq.symm hfound) hs)⟩
  | var => cases hvar
  | wildcard => cases hwild

/-- If a plain type with a head accepts another plain type, then the other has a head too, and each
application above the first is matched by one above the other. -/
theorem Tidy.matching_ancestor (htidy : context.Tidy roots) {middle payload : Ty} {head : Named}
    {raw : ClassName} {args : List Ty} (hmiddle : context.Reached roots middle)
    (hpayload : context.Reached roots payload)
    (hplain : middle.Plain context.env.NotRaw) (hplain' : payload.Plain context.env.NotRaw)
    (hhead : middle.head? = some head) (hvar : payload.isVar = false)
    (h : context.Accepts .covariant middle payload)
    (hs : context.Supertype middle (.applied none raw args)) :
    ∃ head' raw' args', payload.head? = some head' ∧
      context.Supertype payload (.applied none raw' args') ∧ (raw'.toNamed == raw) = true ∧
      List.Forall₂ (context.Accepts .invariant) args args' := by
  cases middle with
  | named first =>
      have hwild := h.not_wildcard rfl
      have hcontains := (rule_named hvar hwild).1 (accepts_iff_rule.1 h)
      -- the other type has the name among its supertypes, and with it all that lies above
      rcases hs.cases_head with heq | ⟨s, hdirect, hrest⟩
      · cases heq
      · rcases htidy.supertype_of_contains hmiddle hplain.self hpayload hplain' hvar hwild hcontains
          hdirect with ⟨head', hhead', habove⟩ | ⟨marker, hmarker, habove⟩
        · exact ⟨head', raw, args, hhead', habove.trans hrest, BEq.rfl,
            List.forall₂_same.2 fun arg _ => context.accepts_refl .invariant arg⟩
        · obtain ⟨_, heq⟩ := htidy.markers.exists_named hmarker (habove.trans hrest)
          cases heq
  | applied owner first args₁ =>
      cases hplain.owner_eq
      obtain ⟨head', hhead'⟩ := exists_head_of_applied hvar h
      obtain ⟨second, args₂, hsecond, heq, hargs⟩ := htidy.exists_ancestor hhead' hplain' h
      have hinvariant : context.Accepts .invariant (.applied none first args₁)
          (.applied none second args₂) :=
        accepts_iff_rule.2 (.applied_invariant (BEq.symm heq) (.without_owners (.inr rfl) hargs))
      have hbelow : context.PlainAbove roots payload := ⟨hpayload, ⟨head', hhead'⟩, .inl hplain'⟩
      have hsecond' := hbelow.supertype htidy.plain htidy.regular hsecond
      -- the ancestor that fits the middle type is followed upwards along with it
      obtain ⟨s', hs', haccepts⟩ := invariant_supertype htidy.coherent htidy.plain htidy.regular
        ⟨hmiddle, ⟨first, rfl⟩, .inl hplain⟩ hsecond' hinvariant hs
      obtain ⟨owner', raw', args', rfl, heq', hargs'⟩ := invariant_applied haccepts
      cases (Ty.Plain.of_applied (hsecond'.supertype htidy.plain htidy.regular hs').plain).owner_eq
      exact ⟨head', raw', args', hhead', hsecond.trans hs', BEq.symm heq', hargs'⟩
  | array | var | wildcard => cases hhead

/-! ## Transitivity, type by type -/

variable (context roots) in
/-- What the type accepts, under either variance, is closed under acceptance among plain types. -/
def TransitiveAt (a : Ty) : Prop :=
  ∀ {variance b c}, context.Reached roots b → context.Reached roots c →
    b.Plain context.env.NotRaw → c.Plain context.env.NotRaw → context.Accepts variance a b →
    context.Accepts variance b c → context.Accepts variance a c

/-- What a name accepts is closed under acceptance. -/
theorem Tidy.transitiveAt_named (htidy : context.Tidy roots) {head : Named}
    (hhead : context.Reached roots (.named head)) : context.TransitiveAt roots (.named head) := by
  intro variance b c hb hc _ _ h h'
  cases variance with
  | covariant =>
      exact named_accepts_trans htidy.coherent htidy.regular htidy.rooted hhead hb hc h h'
  | invariant =>
      obtain ⟨head', rfl, heq⟩ := invariant_named h
      obtain ⟨head'', rfl, heq'⟩ := invariant_named h'
      exact accepts_iff_rule.2 (.named_invariant (BEq.trans heq heq'))

/-- What a variable accepts is closed under acceptance. -/
theorem Tidy.transitiveAt_var (htidy : context.Tidy roots) {param : TypeVar}
    (hparam : context.Reached roots (.var param)) : context.TransitiveAt roots (.var param) := by
  intro variance b c hb hc hplain hplain' h h'
  cases variance with
  | covariant =>
      refine accepts_trans_of_core htidy.coherent htidy.plain.bounds hparam rfl ?_ hb hc hplain
        hplain' h h'
      intro middle payload _ _ _ _ hvar _ h _
      exact absurd (accepts_iff_rule.1 h) (rule_var hvar)
  | invariant =>
      obtain ⟨param', rfl, heq⟩ := invariant_var h
      obtain ⟨param'', rfl, heq'⟩ := invariant_var h'
      exact accepts_iff_rule.2 (.var_invariant (BEq.trans heq heq'))

/-- What an array accepts is closed under acceptance if that holds of its component. -/
theorem Tidy.transitiveAt_array (htidy : context.Tidy roots) {component : Ty}
    (hcomponent : context.Reached roots (.array component))
    (ih : context.TransitiveAt roots component) :
    context.TransitiveAt roots (.array component) := by
  intro variance b c hb hc hplain hplain' h h'
  cases variance with
  | covariant =>
      refine accepts_trans_of_core htidy.coherent htidy.plain.bounds hcomponent rfl ?_ hb hc hplain
        hplain' h h'
      intro middle payload hmiddle hpayload hplain hplain' hvar hvar' h h'
      have harray {receiver payload : Ty} (hvar : payload.isVar = false)
          (h : context.Accepts .covariant (.array receiver) payload) :
          ∃ inner, payload = .array inner ∧ context.Accepts .covariant receiver inner := by
        cases payload with
        | named | applied => exact absurd (accepts_iff_rule.1 h) (rule_array_head rfl)
        | array inner => exact ⟨inner, rfl, rule_array_array.1 (accepts_iff_rule.1 h)⟩
        | var => cases hvar
        | wildcard => cases h.not_wildcard rfl
      obtain ⟨second, rfl, hsecond⟩ := harray hvar h
      obtain ⟨third, rfl, hthird⟩ := harray hvar' h'
      exact accepts_iff_rule.2 (.array (ih hmiddle.component hpayload.component hplain.component
        hplain'.component hsecond hthird))
  | invariant =>
      obtain ⟨second, rfl, hsecond⟩ := invariant_array h
      obtain ⟨third, rfl, hthird⟩ := invariant_array h'
      exact accepts_iff_rule.2 (.array_invariant (ih hb.component hc.component hplain.component
        hplain'.component hsecond hthird))

/-- Lists of arguments are accepted transitively if each argument is. -/
theorem arguments_trans {args args' args'' : List Ty}
    (ih : ∀ arg ∈ args, context.TransitiveAt roots arg)
    (hreached : ∀ arg ∈ args', context.Reached roots arg ∧ arg.Plain context.env.NotRaw)
    (hreached' : ∀ arg ∈ args'', context.Reached roots arg ∧ arg.Plain context.env.NotRaw)
    (h : List.Forall₂ (context.Accepts .invariant) args args')
    (h' : List.Forall₂ (context.Accepts .invariant) args' args'') :
    List.Forall₂ (context.Accepts .invariant) args args'' := by
  have hflip : List.Forall₂ (fun arg' arg => context.Accepts .invariant arg arg') args' args :=
    h.flip
  refine hflip.join h' fun arg' harg' arg harg arg'' harg'' hfirst hsecond => ?_
  exact ih arg harg (hreached arg' harg').1 (hreached' arg'' harg'').1 (hreached arg' harg').2
    (hreached' arg'' harg'').2 hfirst hsecond

/-- What an applied type accepts is closed under acceptance if that holds of its arguments. -/
theorem Tidy.transitiveAt_applied (htidy : context.Tidy roots) {owner : Option Ty} {raw : ClassName}
    {args : List Ty} (hreached : context.Reached roots (.applied owner raw args))
    (ih : ∀ arg ∈ args, context.TransitiveAt roots arg) :
    context.TransitiveAt roots (.applied owner raw args) := by
  intro variance b c hb hc hplain hplain' h h'
  cases variance with
  | covariant =>
      refine accepts_trans_of_core htidy.coherent htidy.plain.bounds hreached rfl ?_ hb hc hplain
        hplain' h h'
      intro middle payload hmiddle hpayload hplain hplain' hvar hvar' h h'
      -- an ancestor of the second type fits the first, and one of the third fits that ancestor
      obtain ⟨head, hhead⟩ := exists_head_of_applied hvar h
      obtain ⟨raw₁, args₁, hs₁, heq₁, hargs₁⟩ := htidy.exists_ancestor hhead hplain h
      obtain ⟨head', raw₂, args₂, hhead', hs₂, heq₂, hargs₂⟩ :=
        htidy.matching_ancestor hmiddle hpayload hplain hplain' hhead hvar' h' hs₁
      have hplain₁ := Ty.Plain.of_applied (htidy.plain.supertype htidy.regular hhead hplain hs₁)
      have hplain₂ := Ty.Plain.of_applied (htidy.plain.supertype htidy.regular hhead' hplain' hs₂)
      have hargs := arguments_trans ih
        (fun arg harg => ⟨(hmiddle.supertype hs₁).arg harg, hplain₁.arg harg⟩)
        (fun arg harg => ⟨(hpayload.supertype hs₂).arg harg, hplain₂.arg harg⟩) hargs₁ hargs₂
      have heq := BEq.trans heq₂ heq₁
      exact accepts_iff_rule.2 (.ancestor (Ty.shape_of_head hhead').2.2
        (nominallyContains_applied hs₂ heq) hs₂ heq (.without_owners (.inr rfl) hargs))
  | invariant =>
      obtain ⟨owner', raw', args', rfl, heq, hargs⟩ := invariant_applied h
      obtain ⟨owner'', raw'', args'', rfl, heq', hargs'⟩ := invariant_applied h'
      cases hplain'.owner_eq
      have hargs'' := arguments_trans ih (fun arg harg => ⟨hb.arg harg, hplain.arg harg⟩)
        (fun arg harg => ⟨hc.arg harg, hplain'.arg harg⟩) hargs hargs'
      exact accepts_iff_rule.2 (.applied_invariant (BEq.trans heq heq')
        (.without_owners (.inr rfl) hargs''))

/-- What a wildcard accepts is closed under acceptance if that holds of its upper bound. -/
theorem transitiveAt_wildcard {upper : Ty} (ih : context.TransitiveAt roots upper) :
    context.TransitiveAt roots (.wildcard upper none) := by
  have hcovariant {b c : Ty} (hb : context.Reached roots b) (hc : context.Reached roots c)
      (hplain : b.Plain context.env.NotRaw) (hplain' : c.Plain context.env.NotRaw)
      (h : context.Accepts .covariant (.wildcard upper none) b)
      (h' : context.Accepts .covariant b c) :
      context.Accepts .covariant (.wildcard upper none) c := by
    rw [accepts_iff_rule] at h ⊢
    cases hwild : b.isWildcard with
    | false =>
        have hwild' := h'.not_wildcard hwild
        exact .extends_type hwild' (ih hb hc hplain hplain' ((rule_extends hwild).1 h) h')
    | true =>
        obtain ⟨upper', lower', rfl⟩ := Ty.eq_wildcard hwild
        cases hplain.lower_eq
        have hupper := rule_extends_extends.1 h
        rw [accepts_iff_rule] at h'
        cases hwild' : c.isWildcard with
        | false =>
            exact .extends_type hwild' (ih hb.upper hc hplain.upper hplain' hupper
              ((rule_extends hwild').1 h'))
        | true =>
            obtain ⟨upper'', lower'', rfl⟩ := Ty.eq_wildcard hwild'
            cases hplain'.lower_eq
            exact .extends_extends (ih hb.upper hc.upper hplain.upper hplain'.upper hupper
              (rule_extends_extends.1 h'))
  intro variance b c hb hc hplain hplain' h h'
  cases variance with
  | covariant => exact hcovariant hb hc hplain hplain' h h'
  | invariant =>
      exact accepts_iff_rule.2 (.contained (.inl rfl)
        (hcovariant hb hc hplain hplain' h.covariant h'.covariant))

/-- Acceptance is transitive on plain types, under both variances. -/
theorem Tidy.transitiveAt (htidy : context.Tidy roots) {a : Ty} (ha : context.Reached roots a)
    (hplain : a.Plain context.env.NotRaw) : context.TransitiveAt roots a := by
  induction a using Ty.parts_induction with
  | step a ih =>
      cases a with
      | named head => exact htidy.transitiveAt_named ha
      | applied owner raw args =>
          exact htidy.transitiveAt_applied ha fun arg harg =>
            ih arg (List.mem_append_right _ harg) (ha.arg harg) (hplain.arg harg)
      | array component =>
          exact htidy.transitiveAt_array ha
            (ih component (List.mem_singleton.2 rfl) ha.component hplain.component)
      | var param => exact htidy.transitiveAt_var ha
      | wildcard upper lower =>
          cases hplain.lower_eq
          exact transitiveAt_wildcard (ih upper List.mem_cons_self ha.upper hplain.upper)

/-- Assignability is transitive on plain types: without boxing, if one type accepts a second and
that accepts a third, then the question whether the first accepts the third is never answered with
no, and where all closures are finite it is answered with yes, from every trail whose memo is
sound. -/
theorem isAssignable_trans (htidy : context.Tidy roots) {a b c : Ty} (ha : a ∈ roots)
    (hb : b ∈ roots) (hc : c ∈ roots) (hplain : ∀ t ∈ [a, b, c], t.Plain context.env.NotRaw)
    (boxing : Boxing)
    (hab : context.Answers roots boxing ⟨.covariant, false⟩ a b true)
    (hbc : context.Answers roots boxing ⟨.covariant, false⟩ b c true) :
    (∀ answer, context.Answers roots boxing ⟨.covariant, false⟩ a c answer → answer = true) ∧
      (context.FiniteHierarchy roots → ∀ trail, context.MemoSound roots trail.memo →
        ∃ after enough, ∀ fuel, enough ≤ fuel →
          context.isAssignable fuel boxing ⟨.covariant, false⟩ a c trail = some (true, after)) := by
  simp only [List.forall_mem_cons] at hplain
  obtain ⟨hplain, hplain', hplain'', _⟩ := hplain
  have hfirst := (hab.iff_accepts htidy.coherent (.root ha) (.root hb)).1 rfl
  have hsecond := (hbc.iff_accepts htidy.coherent (.root hb) (.root hc)).1 rfl
  have haccepts : context.Accepts .covariant a c :=
    htidy.transitiveAt (.root ha) hplain (.root hb) (.root hc) hplain' hplain'' hfirst hsecond
  have hyes {answer : Bool} (hac : context.Answers roots boxing ⟨.covariant, false⟩ a c answer) :
      answer = true := (hac.iff_accepts htidy.coherent (.root ha) (.root hc)).2 haccepts
  refine ⟨fun answer => hyes, fun hfinite trail hmemo => ?_⟩
  obtain ⟨answer, after, _, _, enough, hrun⟩ := ends_of_plain htidy.coherent hfinite
    (hplain.mono fun _ _ => trivial) (.root hc) .covariant [] trail hmemo
  have hanswer := hyes ⟨enough, trail, after, hmemo, hrun enough (Nat.le_refl enough)⟩
  exact ⟨after, enough, fun fuel hfuel => hanswer ▸ hrun fuel hfuel⟩

section Baskets

/-- Baskets of some fruit, baskets of apples and the stand. -/
def basketTypes : List Ty :=
  [basket (.wildcard (simple "Fruit") none), basket (simple "Apple"), simple "Stand"]

/-- The types that are met from these, apart from nests. -/
def standTypes : List Ty :=
  basketTypes ++ [.wildcard (simple "Fruit") none, simple "Fruit", simple "Apple", basket integer,
    .top]

/-- What is reached is one of these types or some nests of the reference type. -/
theorem reached_baskets {t : Ty} (h : nesting.Reached basketTypes t) :
    t ∈ standTypes ∨ ∃ count, t = nests count := by
  refine h.of_closed (fun t => t ∈ standTypes ∨ ∃ count, t = nests count)
    (fun t ht => .inl (List.mem_append_left _ ht)) ?_ ?_ ?_
  · rintro t (ht | ⟨count, rfl⟩) part hpart
    · have hparts : ∀ t ∈ standTypes, ∀ part ∈ t.parts, part ∈ standTypes ∨ part = integer := by
        simp [standTypes, basketTypes, basket, simple, integer, Ty.parts, Ty.top]
      exact (hparts t ht part hpart).imp_right fun heq => ⟨0, heq⟩
    · cases count with
      | zero => cases hpart
      | succ count => exact .inr ⟨count, List.mem_singleton.1 hpart⟩
  · rintro param (hparam | ⟨count, hparam⟩)
    · simp [standTypes, basketTypes, basket, simple, Ty.top] at hparam
    · cases count <;> cases hparam
  · rintro t (ht | ⟨count, rfl⟩)
    · have hdirects : ∀ t ∈ standTypes, ∃ types, nesting.Directs t types ∧
          ∀ s ∈ types, s ∈ standTypes := by
        simp only [standTypes, basketTypes, List.cons_append, List.nil_append, List.forall_mem_cons]
        refine ⟨⟨[.top], ⟨1, rfl⟩, ?_⟩, ⟨[.top], ⟨1, rfl⟩, ?_⟩,
          ⟨[basket integer, basket (simple "Apple")], ⟨1, rfl⟩, ?_⟩, ⟨[.top], ⟨1, rfl⟩, ?_⟩,
          ⟨[.top], ⟨1, rfl⟩, ?_⟩, ⟨[simple "Fruit"], ⟨1, rfl⟩, ?_⟩, ⟨[.top], ⟨1, rfl⟩, ?_⟩,
          ⟨[], ⟨1, rfl⟩, ?_⟩, List.forall_mem_nil _⟩ <;> simp
      obtain ⟨types, htypes, hmem⟩ := hdirects t ht
      exact ⟨types, htypes, fun s hs => .inl (hmem s hs)⟩
    · exact ⟨_, directs_nests count, fun s hs => .inr ⟨count + 1, List.mem_singleton.1 hs⟩⟩

/-- All names that are reached are those of classes. -/
theorem kind_of_reached_baskets {head : Named} (h : nesting.Reached basketTypes (.named head)) :
    head.kind = .classType := by
  rcases reached_baskets h with hmem | ⟨count, heq⟩
  · have hkinds : ∀ t ∈ standTypes, ∀ head, t = .named head → head.kind = .classType := by
      simp [standTypes, basketTypes, basket, simple, Ty.top, Named.top]
    exact hkinds _ hmem head rfl
  · cases count <;> cases heq
    rfl

/-- No variable is reached. -/
theorem not_reached_baskets {param : TypeVar} : ¬ nesting.Reached basketTypes (.var param) := by
  intro h
  rcases reached_baskets h with hmem | ⟨count, heq⟩
  · simp [standTypes, basketTypes, basket, simple, Ty.top] at hmem
  · cases count <;> cases heq

/-- What the table declares above a name is one of five types. -/
theorem nesting_declared {holds : Ty → Prop}
    (hnest : holds (nest (nest (.var ⟨"T", "Nest", .owning 0⟩)))) (hinteger : holds (nest integer))
    (hfruit : holds (simple "Fruit")) (hbasket : holds (basket integer))
    (happles : holds (basket (simple "Apple"))) {name : String} {declaration : Declaration}
    (hfound : nestingTable.find? name = some declaration) :
    ∀ s ∈ declaration.supertypes, holds s := by
  have hentry := List.mem_of_find?_eq_some hfound
  simp only [nestingTable, Table.base, List.cons_append, List.nil_append, List.mem_cons,
    List.not_mem_nil, or_false] at hentry
  rcases hentry with rfl | rfl | rfl | rfl | rfl | rfl | rfl | rfl | rfl <;>
    simp [Declaration.supertypes, *]

/-- The classes are no raw uses. -/
theorem nesting_plain {name : String}
    (hname : name ∈ ["Fruit", "Apple", "Stand", "java.lang.Integer"]) :
    (simple name).Plain nesting.env.NotRaw := by
  refine .named (.inr fun {declaration} hfound => ?_)
  simp only [List.mem_cons, List.not_mem_nil, or_false] at hname
  rcases hname with rfl | rfl | rfl | rfl <;> cases hfound <;> rfl

/-- Only the universal supertype lies above the interfaces of arrays. -/
theorem nesting_markers : nesting.MarkersNamed := by
  intro marker hmarker s hs
  have hdirects : nesting.Directs (.named marker) [.top] := by
    rcases hmarker with rfl | rfl <;> exact ⟨1, rfl⟩
  rcases hs.cases_head with rfl | ⟨_, ⟨types, htypes, hmem⟩, habove⟩
  · exact ⟨marker, rfl⟩
  · cases hdirects.unique htypes
    cases List.mem_singleton.1 hmem
    exact ⟨.top, supertype_leaf rfl habove⟩

/-- Baskets and nests form a tidy hierarchy. -/
theorem baskets_tidy : nesting.Tidy basketTypes where
  coherent := by
    constructor
    · intro first second hfirst
      exact (not_reached_baskets hfirst).elim
    · intro first second hfirst hsecond _
      rw [kind_of_reached_baskets hfirst, kind_of_reached_baskets hsecond]
  regular := nesting_declared ⟨_, rfl, rfl⟩ ⟨_, rfl, rfl⟩ ⟨_, rfl, rfl⟩ ⟨_, rfl, rfl⟩ ⟨_, rfl, rfl⟩
  rooted hfound := by
    cases hfound
    rfl
  markers := nesting_markers
  plain := by
    have hinteger : integer.Plain nesting.env.NotRaw := nesting_plain (by simp)
    constructor
    · exact nesting_declared (.applied (List.forall_mem_singleton.2
        (.applied (List.forall_mem_singleton.2 .var))))
        (.applied (List.forall_mem_singleton.2 hinteger)) (nesting_plain (by simp))
        (.applied (List.forall_mem_singleton.2 hinteger))
        (.applied (List.forall_mem_singleton.2 (nesting_plain (by simp))))
    · intro param bound hparam
      exact (not_reached_baskets hparam).elim

/-- The types whose supertypes are asked for when baskets of fruit are compared with the stand. -/
def searchedTypes : List Ty := [simple "Stand", integer]

/-- There is no answer whether the reference type is some fruit. -/
theorem fruit_never (fuel : Nat) :
    Ensures (nesting.HoldsClosures (· ∈ searchedTypes))
      (nesting.covariant fuel [] (simple "Fruit") integer) fun _ => False := by
  refine covariant_named_never (List.mem_pair.2 (.inr rfl)) (fun t ht heq => ?_)
    integer_not_finite fuel
  rcases List.mem_pair.1 ht with rfl | rfl
  · cases heq
  · rfl

/-- So there is none whether its baskets are baskets of fruit. -/
theorem fruit_argument_never (fuel : Nat) :
    Ensures (nesting.HoldsClosures (· ∈ searchedTypes))
      (nesting.invariant fuel [] (.wildcard (simple "Fruit") none) integer) fun _ => False := by
  cases fuel with
  | zero => exact .exhausted
  | succ fuel =>
      cases fuel with
      | zero => exact .exhausted
      | succ fuel => exact (fruit_never fuel).bind_never

/-- The supertypes of the stand are found in this order. -/
theorem stand_supertypes (fuel : Nat) :
    Ensures (nesting.HoldsClosures (· ∈ searchedTypes))
      (nesting.supertypes fuel (simple "Stand")) fun members =>
        members = [simple "Stand", basket integer, basket (simple "Apple"), .top] := by
  have hstand : simple "Stand" ∈ searchedTypes := List.mem_cons_self
  refine (supertypes_closure hstand fuel).mono fun members hmembers => ?_
  obtain ⟨t, ht, heq, enough, hanswer⟩ := hmembers
  rcases List.mem_pair.1 ht with rfl | rfl
  · have hknown : (nesting.closure 6 (simple "Stand")).answer =
        some [simple "Stand", basket integer, basket (simple "Apple"), .top] := rfl
    exact closure_unique hanswer hknown
  · cases heq

/-- The stand is a basket by name. -/
theorem stand_nominal (fuel : Nat) :
    Ensures (nesting.HoldsClosures (· ∈ searchedTypes))
      (nesting.nominallyContains fuel ⟨"Basket", .interfaceType, 1⟩ (simple "Stand"))
      fun yes => yes = true := by
  refine (stand_supertypes fuel).bind fun members hmembers => ?_
  rw [hmembers]
  refine Ensures.mono (Decides.anyM fun t _ => erased_named_decides nesting.heap _ t fuel)
    fun yes hyes => hyes.2 ?_
  exact ⟨basket integer, by simp, _, erases_applied.2 rfl, BEq.rfl⟩

/-- The first of its baskets is asked about first. -/
theorem stand_ancestor_never (fuel : Nat) :
    Ensures (nesting.HoldsClosures (· ∈ searchedTypes))
      (nesting.hasMatchingAncestor fuel (nesting.invariant fuel []) none
        ⟨⟨"Basket", .interfaceType, 1⟩, rfl⟩ [.wildcard (simple "Fruit") none] (simple "Stand"))
      fun _ => False := by
  refine (stand_supertypes fuel).bind fun members hmembers => ?_
  rw [hmembers]
  refine Ensures.anyM_never [simple "Stand"] (List.forall_mem_singleton.2 (.pure rfl)) ?_
  show Ensures _ ([(Ty.wildcard (simple "Fruit") none, integer)].allM
    fun pair => nesting.invariant fuel [] pair.1 pair.2) _
  rw [List.allM_cons]
  exact (fruit_argument_never fuel).bind_never

/-- Finite closures of the three types are not enough: baskets of fruit accept baskets of apples,
and these accept the stand, but before the stand's basket of apples comes one of another type, and
the search for the supertypes of that does not end. -/
theorem stand_unanswered :
    nesting.Tidy basketTypes ∧
    (∀ t ∈ basketTypes, t.Plain nesting.env.NotRaw ∧ nesting.FiniteClosure t) ∧
    nesting.Answers basketTypes .empty ⟨.covariant, false⟩
      (basket (.wildcard (simple "Fruit") none)) (basket (simple "Apple")) true ∧
    nesting.Answers basketTypes .empty ⟨.covariant, false⟩ (basket (simple "Apple"))
      (simple "Stand") true ∧
    ∀ boxing fuel, nesting.isAssignable fuel boxing ⟨.covariant, false⟩
      (basket (.wildcard (simple "Fruit") none)) (simple "Stand") .empty = none := by
  have htypes : ∀ t ∈ basketTypes, t.Plain nesting.env.NotRaw ∧ nesting.FiniteClosure t := by
    simp only [basketTypes, List.forall_mem_cons]
    refine ⟨⟨.applied (List.forall_mem_singleton.2 (.wildcard (nesting_plain (by simp)))), ?_⟩,
      ⟨.applied (List.forall_mem_singleton.2 (nesting_plain (by simp))), ?_⟩,
      ⟨nesting_plain (by simp), ?_⟩, List.forall_mem_nil _⟩ <;> exact ⟨6, _, rfl⟩
  refine ⟨baskets_tidy, htypes, ⟨9, .empty, _, memoSound_empty, rfl⟩,
    ⟨9, .empty, _, memoSound_empty, rfl⟩, fun boxing fuel => ?_⟩
  cases fuel with
  | zero => rfl
  | succ fuel =>
      have hnever : Ensures (nesting.HoldsClosures (· ∈ searchedTypes))
          (nesting.covariant (fuel + 1) [] (basket (.wildcard (simple "Fruit") none))
            (simple "Stand")) fun _ => False := by
        refine (stand_nominal fuel).bind fun yes hyes => ?_
        rw [hyes]
        exact (stand_ancestor_never fuel).bind_never
      exact hnever.eq_none (holdsClosures_empty _)

end Baskets

section Chains

/-- Lists of lists of anything, whatever their precise type. -/
def listsOfLists : Ty := .applied none list [.wildcard (.applied none list [.unbounded]) none]

/-- Lists of subtypes of the variable. -/
def listsOfChains : Ty := .applied none list [.wildcard (.var (chainVar (.owning 2))) none]

/-- The types that are met when lists of lists are compared with lists of the variable. -/
def chainListTypes : List Ty :=
  [listsOfLists, listsOfChains, .applied none arrayList [.var (chainVar (.owning 2))],
    .wildcard (.applied none list [.unbounded]) none, .applied none list [.unbounded], .unbounded,
    .top,
    .wildcard (.var (chainVar (.owning 2))) none, .var (chainVar (.owning 2)),
    .applied none list [.var (chainVar (.owning 2))], chainBound, .var (chainVar (.back 2)),
    .applied none list [.var (chainVar (.back 2))]]

/-- A variable that is met is the one that chains are made of. -/
theorem var_of_mem_chainListTypes {param : TypeVar} (h : .var param ∈ chainListTypes) :
    param = chainVar (.owning 2) ∨ param = chainVar (.back 2) := by
  simpa [chainListTypes, chainBound, Ty.top, Ty.unbounded, listsOfLists, listsOfChains] using h

/-- The types that are met are the only ones that are reached. -/
theorem mem_chainListTypes {t : Ty} (h : chains.Reached chainListTypes t) : t ∈ chainListTypes := by
  refine h.mem_of_closed (fun _ => id) ?_ ?_ ?_
  · simp [chainListTypes, Ty.parts, Ty.top, Ty.unbounded, chainBound, listsOfLists, listsOfChains]
  · intro param hparam bound hbound
    have hbounds : bound = chainBound := by
      rcases var_of_mem_chainListTypes hparam with rfl | rfl <;> exact List.mem_singleton.1 hbound
    simp [hbounds, chainListTypes]
  · simp only [chainListTypes, List.forall_mem_cons]
    refine ⟨⟨[.top], ⟨1, rfl⟩, ?_⟩, ⟨[.top], ⟨1, rfl⟩, ?_⟩,
      ⟨[.applied none list [.var (chainVar (.owning 2))]], ⟨1, rfl⟩, ?_⟩, ⟨[.top], ⟨1, rfl⟩, ?_⟩,
      ⟨[.top], ⟨1, rfl⟩, ?_⟩, ⟨[], ⟨1, rfl⟩, ?_⟩, ⟨[], ⟨1, rfl⟩, ?_⟩, ⟨[chainBound], ⟨1, rfl⟩, ?_⟩,
      ⟨[chainBound], ⟨1, rfl⟩, ?_⟩, ⟨[.top], ⟨1, rfl⟩, ?_⟩,
      ⟨[.applied none list [.var (chainVar (.back 2))]], ⟨1, rfl⟩, ?_⟩,
      ⟨[chainBound], ⟨1, rfl⟩, ?_⟩,
      ⟨[.top], ⟨1, rfl⟩, ?_⟩, List.forall_mem_nil _⟩ <;> simp

/-- Lists and chains form a tidy hierarchy. -/
theorem chainLists_tidy : chains.Tidy chainListTypes where
  coherent := by
    constructor
    · intro first second hfirst hsecond _
      rcases var_of_mem_chainListTypes (mem_chainListTypes hfirst) with rfl | rfl <;>
        rcases var_of_mem_chainListTypes (mem_chainListTypes hsecond) with rfl | rfl <;> rfl
    · intro first second hfirst hsecond _
      have hnamed {head : Named} (h : .named head ∈ chainListTypes) : head = .top := by
        simpa [chainListTypes, chainBound, Ty.top, Ty.unbounded, listsOfLists, listsOfChains]
          using h
      rw [hnamed (mem_chainListTypes hfirst), hnamed (mem_chainListTypes hsecond)]
  regular := listEnv_regular
  rooted := listEnv_rooted
  markers := chains_markers
  plain := by
    constructor
    · intro name declaration hfound s hs
      change (if name = "List" then _ else if name = "ArrayList" then _ else _) = _ at hfound
      split at hfound
      · cases hfound
        cases hs
      · split at hfound
        · cases hfound
          cases List.mem_singleton.1 hs
          exact .applied (List.forall_mem_singleton.2 .var)
        · cases hfound
    · intro param bound hparam hbound
      have hbounds : bound = chainBound := by
        rcases var_of_mem_chainListTypes (mem_chainListTypes hparam) with rfl | rfl <;>
          exact List.mem_singleton.1 hbound
      exact hbounds ▸ .applied (List.forall_mem_singleton.2 .var)

/-- The closures of lists and chains are finite. -/
theorem chainLists_finite : chains.FiniteHierarchy chainListTypes where
  formed := chains_made.formed
  closures {t} ht := by
    have hall : ∀ t ∈ chainListTypes, chains.FiniteClosure t := by
      simp only [chainListTypes, List.forall_mem_cons]
      refine ⟨⟨9, _, rfl⟩, ⟨9, _, rfl⟩, ⟨9, _, rfl⟩, ⟨9, _, rfl⟩, ⟨9, _, rfl⟩, ⟨9, _, rfl⟩,
        ⟨9, _, rfl⟩,
        ⟨9, _, rfl⟩, ⟨9, _, rfl⟩, ⟨9, _, rfl⟩, ⟨9, _, rfl⟩, ⟨9, _, rfl⟩, ⟨9, _, rfl⟩,
        List.forall_mem_nil _⟩
    exact hall t (mem_chainListTypes ht)

/-- Lists of lists accept lists of subtypes of the variable, since its bound is a list of itself,
and these accept the class of lists applied to the variable. So lists of lists accept that class,
and say so whatever has been memoized. -/
theorem listsOfLists_accept_chains :
    chains.Answers chainListTypes .empty ⟨.covariant, false⟩ listsOfLists listsOfChains true ∧
      chains.Answers chainListTypes .empty ⟨.covariant, false⟩ listsOfChains
        (.applied none arrayList [.var (chainVar (.owning 2))]) true ∧
      ∀ trail, chains.MemoSound chainListTypes trail.memo → ∃ after enough, ∀ fuel, enough ≤ fuel →
        chains.isAssignable fuel .empty ⟨.covariant, false⟩ listsOfLists
          (.applied none arrayList [.var (chainVar (.owning 2))]) trail = some (true, after) := by
  have hfirst : chains.Answers chainListTypes .empty ⟨.covariant, false⟩ listsOfLists listsOfChains
      true := ⟨12, .empty, _, memoSound_empty, rfl⟩
  have hsecond : chains.Answers chainListTypes .empty ⟨.covariant, false⟩ listsOfChains
      (.applied none arrayList [.var (chainVar (.owning 2))]) true :=
    ⟨12, .empty, _, memoSound_empty, rfl⟩
  have hplain : ∀ t ∈ [listsOfLists, listsOfChains, .applied none arrayList
      [.var (chainVar (.owning 2))]], t.Plain chains.env.NotRaw := by
    have htop : chains.env.NotRaw .top := .inr fun hfound => by cases hfound
    simp only [List.forall_mem_cons]
    refine ⟨.applied (List.forall_mem_singleton.2 (.wildcard ?_)),
      .applied (List.forall_mem_singleton.2 (.wildcard .var)),
      .applied (List.forall_mem_singleton.2 .var), List.forall_mem_nil _⟩
    exact .applied (List.forall_mem_singleton.2 (.wildcard (.named htop)))
  exact ⟨hfirst, hsecond, (isAssignable_trans chainLists_tidy (by simp [chainListTypes])
    (by simp [chainListTypes]) (by simp [chainListTypes]) hplain .empty hfirst hsecond).2
    chainLists_finite⟩

end Chains

end Nominal.Context
