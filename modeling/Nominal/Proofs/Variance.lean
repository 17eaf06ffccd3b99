import Nominal.Proofs.ArrayClosures
import Nominal.Proofs.MirroredQueries
import Nominal.Proofs.Rawness
import Nominal.Proofs.Reflexivity
import Nominal.Proofs.Repetition

/-!
# Invariance and covariance

What is accepted under invariance is accepted under covariance. The covariant comparison looks for
the arguments in the closure of the payload, finds those of the payload itself in the first place
and compares them as the invariant comparison did. It has asked for one closure more by then. If
that closure is memoized, an equal type that is met later gets it too, so that the second comparison
may differ from the first. This cannot happen where equal variables have equal bounds and equal
names one kind, nor where closures are not memoized; otherwise it can (`covariant_apart`). The
closure that is asked for has to be finite, be it that of a reference type or of a component.

Without wildcards and owners, an invariant comparison is equality.
-/

namespace Nominal

open Query

namespace Context

variable {context : Context} {roots : List Ty}

/-! ## Comparing again -/

/-- What carries an invariant comparison over to a covariant one. The receivers that are met and the
payloads whose closures are finite are so for the components of arrays too. The supertypes of such a
payload start with a type that stands for it, and what was accepted for the payload is accepted for
that type, whatever was asked in between. -/
structure Steady (context : Context) (keeps : Memo → Prop) (met finite : Ty → Prop)
    (stands : Ty → Ty → Prop) : Prop where
  receiver : ∀ {component}, met (.array component) → met component
  payload : ∀ {component}, finite (.array component) → finite component
  self : ∀ {t}, finite t → stands t t
  equal : ∀ {t t'}, stands t t' → (t == t') = true
  first : ∀ {t}, finite t → Halts keeps (fun fuel => context.supertypes fuel t)
    fun members => ∃ first rest, members = first :: rest ∧ stands t first
  again : ∀ variance {fuel pending receiver payload payload' trail after}, met receiver →
    stands payload payload' → keeps trail.memo →
    context.compare fuel pending variance receiver payload trail = some (true, after) →
    Halts keeps (fun more => context.compare more pending variance receiver payload')
      fun yes => yes = true

namespace Steady

variable {keeps : Memo → Prop} {met finite : Ty → Prop} {stands : Ty → Ty → Prop}

/-- A payload contains its head nominally. -/
theorem nominallyContains (h : context.Steady keeps met finite stands) {t : Ty}
    {head head' : Named} (ht : finite t) (hhead : t.head? = some head')
    (heq : (head' == head) = true) :
    Halts keeps (fun fuel => context.nominallyContains fuel head t) fun yes => yes = true := by
  refine nominallyContains_first ((h.first ht).mono fun members hmembers => ?_) hhead heq
  obtain ⟨first, rest, hrest, hfirst⟩ := hmembers
  exact ⟨first, rest, hrest, h.equal hfirst⟩

/-- An applied payload whose arguments were accepted has them among its supertypes. -/
theorem hasMatchingAncestor (h : context.Steady keeps met finite stands) {fuel : Nat}
    {pending : List (Ty × TypeVar)} {owner owner' : Option Ty} {raw raw' : ClassName}
    {args args' : List Ty} {trail after : Trail} (hreceiver : met (.applied owner raw args))
    (hpayload : finite (.applied owner' raw' args')) (hraw : (raw.toNamed == raw') = true)
    (hkeeps : keeps trail.memo)
    (hrun : context.invariant fuel pending (.applied owner raw args) (.applied owner' raw' args')
      trail = some (true, after)) :
    Halts keeps
      (fun more => context.hasMatchingAncestor more (context.invariant more pending) owner raw args
        (.applied owner' raw' args')) fun yes => yes = true := by
  refine hasMatchingAncestor_first ((h.first hpayload).mono fun members hmembers => ?_)
  obtain ⟨first, rest, rfl, hfirst⟩ := hmembers
  obtain ⟨owner'', raw'', args'', rfl, hraw', _⟩ := Ty.applied_beq (h.equal hfirst)
  have hsame : (raw.toNamed == raw'') = true := BEq.trans hraw hraw'
  refine ⟨owner'', raw'', args'', rest, rfl, BEq.symm hsame, ?_⟩
  have hagain : Halts keeps
      (fun more => context.invariant (more + 1) pending (.applied owner raw args)
        (.applied owner'' raw'' args'')) fun yes => yes = true :=
    Halts.ahead (h.again .invariant hreceiver hfirst hkeeps hrun)
  simp only [invariant, hsame, if_true] at hagain
  exact hagain

/-- What an invariant comparison has accepted a covariant comparison accepts. -/
theorem covariant (h : context.Steady keeps met finite stands) {fuel : Nat}
    {pending : List (Ty × TypeVar)} {receiver payload : Ty} {trail after : Trail}
    (hreceiver : met receiver) (hpayload : finite payload) (hkeeps : keeps trail.memo)
    (hrun : context.invariant fuel pending receiver payload trail = some (true, after)) :
    Halts keeps (fun more => context.covariant more pending receiver payload)
      fun yes => yes = true := by
  -- the steps go down with the components of arrays; all other cases look one level deep
  induction fuel generalizing receiver payload with
  | zero => cases hrun
  | succ fuel ih =>
      cases hwild : receiver.isWildcard || payload.isWildcard with
      | true =>
          rw [invariant_wildcard hwild] at hrun
          exact h.again .covariant hreceiver (h.self hpayload) hkeeps hrun
      | false =>
          refine .step ?_
          cases receiver with
          | wildcard => cases hwild
          | named head =>
              cases payload with
              | named head' =>
                  have hname : (head == head') = true := congrArg (·.1) (Option.some.inj hrun)
                  exact h.nominallyContains hpayload rfl (BEq.symm hname)
              | wildcard => cases hwild
              | applied | array | var => cases hrun
          | applied owner raw args =>
              cases payload with
              | applied owner' raw' args' =>
                  cases hraw : raw.toNamed == raw' with
                  | false =>
                      simp only [invariant, hraw, Bool.false_eq_true, if_false] at hrun
                      cases hrun
                  | true =>
                      refine (h.nominallyContains hpayload rfl (BEq.symm hraw)).bind
                        fun yes hyes => ?_
                      subst hyes
                      exact h.hasMatchingAncestor hreceiver hpayload hraw hkeeps hrun
              | wildcard => cases hwild
              | named | array | var => cases hrun
          | array component =>
              cases payload with
              | array component' => exact ih (h.receiver hreceiver) (h.payload hpayload) hrun
              | wildcard => cases hwild
              | named | applied | var => cases hrun
          | var param =>
              cases payload with
              | var param' =>
                  have hparam : (param == param') = true := congrArg (·.1) (Option.some.inj hrun)
                  exact variableAccepts_self context.heap (BEq.symm hparam)
              | wildcard => cases hwild
              | named | applied | array => cases hrun

end Steady

/-- Among coherent types, twins stand for each other. -/
theorem Coherent.steady (hcoherent : context.Coherent roots) :
    context.Steady (context.MemoSound roots) (context.Reached roots)
      (fun t => context.Reached roots t ∧ context.FiniteClosure t) (context.Twins roots) where
  receiver hreceiver := hreceiver.component
  payload hpayload := ⟨hpayload.1.component, hpayload.2.component hcoherent hpayload.1⟩
  self ht := .refl ht.1
  equal h := h.equal
  first ht := by
    refine (supertypes_halts_closure ht.1 ht.2).mono fun members hmembers => ?_
    obtain ⟨t', ht', heq, _, hanswer⟩ := hmembers
    obtain ⟨rest, hrest⟩ := List.head?_eq_some_iff.1 (breadthFirst_closure hanswer).first
    exact ⟨t', rest, hrest, ht.1, ht', heq⟩
  again variance {fuel pending _ _ _ trail after} hreceiver hstands hmemo hrun := by
    have hmirror : context.Mirror roots context context :=
      ⟨hcoherent, ⟨rfl, fun _ => rfl⟩, ⟨rfl, fun _ => rfl⟩⟩
    have hpending : SamePending pending pending := List.forall₂_same.2 fun _ _ => ⟨BEq.rfl, BEq.rfl⟩
    obtain ⟨_, _, hagain⟩ :=
      hmirror.compare fuel variance hpending (.refl hreceiver) hstands trail hmemo true after hrun
    exact hagain.mono fun _ => Eq.symm

/-- Where closures are not memoized, types stand for themselves. -/
theorem steady_of_not_memoized (hmemoize : context.memoize = false) :
    context.Steady (fun _ => True) (fun _ => True)
      (fun t => ∀ depth component, t = .tower depth component → context.FiniteClosure component)
      Eq where
  receiver _ := trivial
  payload hpayload depth component heq := hpayload (depth + 1) component (by rw [heq]; rfl)
  self _ := rfl
  equal h := h ▸ BEq.rfl
  first {t} ht := by
    have hfinite : context.FiniteClosure t := ht 0 t rfl
    obtain ⟨fuel, members, hanswer⟩ := hfinite
    simp only [supertypes, hmemoize, Bool.false_eq_true, if_false]
    have hclosure : Halts (fun _ => True) (fun fuel => context.closure fuel t)
        fun found => found = members :=
      .of_oblivious (closure_oblivious fuel t) (fun _ => closure_mono t) hanswer
    refine hclosure.mono fun found hfound => ?_
    obtain ⟨rest, hrest⟩ := List.head?_eq_some_iff.1 (breadthFirst_closure hanswer).first
    exact ⟨t, rest, hfound.trans hrest, rfl⟩
  again variance {fuel pending receiver payload _ trail after} _ hstands _ hrun := by
    subst hstands
    exact repeatsComparisons hmemoize fuel variance pending receiver payload trail true after hrun

/-- Where no array lies above the supertypes of all arrays, the closure of what an array is over, at
any depth, is finite if that of the array is. -/
theorem FiniteClosure.of_tower (hapart : context.MarkersApart) {depth : Nat} {t : Ty}
    (h : context.FiniteClosure (.tower depth t)) : context.FiniteClosure t := by
  induction depth with
  | zero => exact h
  | succ depth ih => exact ih (h.component_of_markersApart hapart)

/-! ## Comparisons without wildcards and owners -/

/-- Comparing lists member by member is equality, if the checks are. -/
theorem allM_zip_eq {check : Ty → Ty → Query Bool} {args args' : List Ty}
    (h : ∀ arg ∈ args, ∀ arg' ∈ args', check arg arg' = pure (arg == arg')) :
    (if args.length == args'.length then
      (args.zip args').allM fun pair => check pair.1 pair.2 else pure false) =
      (pure (args == args') : Query Bool) := by
  induction args generalizing args' with
  | nil => cases args' <;> rfl
  | cons arg rest ih =>
      cases args' with
      | nil => rfl
      | cons arg' rest' =>
          have hrest := ih fun s hs t ht =>
            h s (List.mem_cons_of_mem _ hs) t (List.mem_cons_of_mem _ ht)
          have hlength : ((arg :: rest).length == (arg' :: rest').length) =
              (rest.length == rest'.length) := by simp
          rw [hlength, List.cons_beq_cons, List.zip_cons_cons, List.allM_cons,
            h arg List.mem_cons_self arg' List.mem_cons_self]
          cases hequal : arg == arg' with
          | true => exact hrest
          | false => split <;> rfl

/-- Without wildcards and owners, an invariant comparison only looks whether the types are equal. -/
theorem invariant_eq_pure {receiver payload : Ty}
    (hreceiver : receiver.Everywhere fun t => t.isWildcard = false) (howners : receiver.OwnerFree)
    (hpayload : payload.Everywhere fun t => t.isWildcard = false) (howners' : payload.OwnerFree)
    {fuel : Nat} (hfuel : sizeOf receiver < fuel) (pending : List (Ty × TypeVar)) :
    context.invariant fuel pending receiver payload = pure (receiver == payload) := by
  induction receiver using Ty.parts_induction generalizing payload fuel with
  | step receiver ih =>
      obtain ⟨fuel, rfl⟩ : ∃ less, fuel = less + 1 := ⟨fuel - 1, by omega⟩
      have hpart {part part' : Ty} (hmem : part ∈ receiver.parts) (hmem' : part' ∈ payload.parts) :
          context.invariant fuel pending part part' = pure (part == part') := by
        have hsmaller := Ty.sizeOf_lt_of_mem_parts hmem
        exact ih part hmem (hreceiver.part hmem) (howners.part hmem) (hpayload.part hmem')
          (howners'.part hmem') (by omega)
      have hwild : (receiver.isWildcard || payload.isWildcard) = false := by
        rw [hreceiver.self, hpayload.self, Bool.or_false]
      cases receiver with
      | wildcard => cases hwild
      | named head =>
          cases payload with
          | wildcard => cases hwild
          | named | applied | array | var => rfl
      | var param =>
          cases payload with
          | wildcard => cases hwild
          | named | applied | array | var => rfl
      | array component =>
          cases payload with
          | wildcard => cases hwild
          | array component' => exact hpart (List.mem_singleton.2 rfl) (List.mem_singleton.2 rfl)
          | named | applied | var => rfl
      | applied owner raw args =>
          cases payload with
          | wildcard => cases hwild
          | applied owner' raw' args' =>
              obtain rfl : owner = none := howners.self
              obtain rfl : owner' = none := howners'.self
              have hargs := allM_zip_eq fun arg (harg : arg ∈ args) arg' (harg' : arg' ∈ args') =>
                hpart (List.mem_append_right _ harg) (List.mem_append_right _ harg')
              rw [Ty.applied_beq_applied]
              cases hraw : raw.toNamed == raw' with
              | true =>
                  simp only [invariant, hraw, if_true]
                  exact hargs
              | false =>
                  simp only [invariant, hraw]
                  rfl
          | named | array | var => rfl

/-! ## The two modes -/

/-- Let the closure of the payload, as it is compared, be finite. If invariance accepts it, so does
covariance where equal variables that are met have equal bounds and equal names one kind, and where
closures are not memoized; if arrays lie above the supertypes of all arrays, then also the closures
of what the payload is an array over have to be finite there. Without wildcards and owners
invariance accepts a payload exactly if it is equal to the receiver. -/
theorem invariant_refines_covariant (context : Context) (boxing : Boxing) (boxes : Bool)
    (receiver payload : Ty) :
    let compared := fun t => if boxes then boxing.box t else t
    (∀ roots fuel trail after, context.Coherent roots → compared receiver ∈ roots →
      compared payload ∈ roots → context.FiniteClosure (compared payload) →
      context.MemoSound roots trail.memo →
      context.isAssignable fuel boxing ⟨.invariant, boxes⟩ receiver payload trail =
        some (true, after) →
      Halts (context.MemoSound roots)
        (fun more => context.isAssignable more boxing ⟨.covariant, boxes⟩ receiver payload)
        fun answer => answer = true) ∧
    (∀ fuel trail after, context.memoize = false → context.FiniteClosure (compared payload) →
      (¬ context.MarkersApart →
        ∀ depth t, compared payload = .tower depth t → context.FiniteClosure t) →
      context.isAssignable fuel boxing ⟨.invariant, boxes⟩ receiver payload trail =
        some (true, after) →
      Halts (fun _ => True)
        (fun more => context.isAssignable more boxing ⟨.covariant, boxes⟩ receiver payload)
        fun answer => answer = true) ∧
    ((∀ t ∈ [receiver, payload], t.Everywhere (fun u => u.isWildcard = false) ∧ t.OwnerFree) →
      ∃ enough, ∀ fuel, enough ≤ fuel → ∀ trail,
        context.isAssignable fuel boxing ⟨.invariant, false⟩ receiver payload trail =
          some (receiver == payload, trail)) := by
  intro compared
  simp only [isAssignable_eq]
  refine ⟨?_, ?_, ?_⟩
  · intro roots fuel trail after hcoherent hreceiver hpayload hfinite hmemo hrun
    exact hcoherent.steady.covariant (.root hreceiver) ⟨.root hpayload, hfinite⟩ hmemo hrun
  · intro fuel trail after hmemoize hfinite hcomponents hrun
    refine (steady_of_not_memoized hmemoize).covariant trivial (fun depth t ht => ?_) trivial hrun
    by_cases hapart : context.MarkersApart
    · have htower : context.FiniteClosure (.tower depth t) := ht ▸ hfinite
      exact htower.of_tower hapart
    · exact hcomponents hapart depth t ht
  · intro hplain
    obtain ⟨hreceiver, howners⟩ := hplain receiver List.mem_cons_self
    obtain ⟨hpayload, howners'⟩ := hplain payload (List.mem_cons_of_mem _ List.mem_cons_self)
    refine ⟨sizeOf receiver + 1, fun fuel hfuel trail => ?_⟩
    have hequal : context.invariant fuel [] receiver payload = pure (receiver == payload) :=
      invariant_eq_pure hreceiver howners hpayload howners' (by omega) []
    show context.invariant fuel [] receiver payload trail = _
    rw [hequal]
    rfl

section Treasury

/-- A class. -/
def ware : Named := ⟨"Ware", .classType, 0⟩

/-- A class below it. -/
def coin : Named := ⟨"Coin", .classType, 0⟩

/-- Chests of what is stored in them. -/
def chestOf (t : Ty) : Ty := .applied none ⟨⟨"Chest", .classType, 1⟩, rfl⟩ [t]

/-- Pairs of what stands first and second in them. -/
def pairOf (s t : Ty) : Ty := .applied none ⟨⟨"Pair", .classType, 2⟩, rfl⟩ [s, t]

/-- Whatever is below a type. -/
def anyBelow (t : Ty) : Ty := .wildcard t none

/-- Two equal variables that differ in their bounds. -/
def stored (cell : CellId) : TypeVar := ⟨"T", "m", .owning cell⟩

/-- A variable that bounds itself. -/
def linked (handle : Handle) : TypeVar := ⟨"V", "m", handle⟩

/-- The declarations of the classes. -/
def treasuryTable : Table :=
  ⟨Table.base.entries ++ [⟨ware, [], none, []⟩, ⟨coin, [], some (.named ware), []⟩,
    ⟨⟨"Chest", .classType, 1⟩, [⟨"E", "Chest", .owning 3⟩], none, []⟩,
    ⟨⟨"Pair", .classType, 2⟩, [⟨"A", "Pair", .owning 4⟩, ⟨"B", "Pair", .owning 5⟩], none, []⟩]⟩

/-- The first variable is bounded by the class, the equal second one by chests of the first. The
third one is bounded by pairs of arrays of coins and itself. -/
def treasury (memoize : Bool) : Context :=
  ⟨treasuryTable.env,
    ⟨#[.bound [.named ware], .bound [chestOf (.var (stored 0))],
      .bound [pairOf (.array (.named coin)) (.var (linked (.back 2)))], .unbound, .unbound,
      .unbound], [2]⟩, memoize⟩

/-- Chests of chests of wares. -/
def chests : Ty := chestOf (anyBelow (chestOf (anyBelow (.named ware))))

/-- Pairs of arrays of coins with pairs of arrays of wares. -/
def pairs : Ty :=
  pairOf (.array (.named coin))
    (anyBelow (pairOf (anyBelow (.array (.named ware))) (.var (linked (.owning 2)))))

/-- A pair of coins and the variable that is bounded by such pairs. Here coins are taken for
primitives. -/
def forgedPair : Ty :=
  pairOf (.array (.named ⟨"Coin", .primitiveType, 0⟩)) (.var (linked (.owning 2)))

/-- Invariance may accept what covariance does not, if closures are memoized and equal variables
have different bounds, or equal names different kinds. Covariance may also have no answer: if the
closure of a primitive is finite and that of its reference type is not, and without memo, where
arrays lie above an interface of arrays, if the closure of an array is finite and that of its
component is not. -/
theorem covariant_apart :
    ((treasury true).FiniteClosure chests ∧
      (treasury true).FiniteClosure (chestOf (.var (stored 1))) ∧
      ((treasury true).isAssignable 13 .standard ⟨.invariant, true⟩ chests
        (chestOf (.var (stored 1)))).answer = some true ∧
      ((treasury true).isAssignable 13 .standard ⟨.covariant, true⟩ chests
        (chestOf (.var (stored 1)))).answer = some false) ∧
    ((treasury true).FiniteClosure pairs ∧ (treasury true).FiniteClosure forgedPair ∧
      ((treasury true).isAssignable 13 .standard ⟨.invariant, true⟩ pairs forgedPair).answer =
        some true ∧
      ((treasury true).isAssignable 13 .standard ⟨.covariant, true⟩ pairs forgedPair).answer =
        some false) ∧
    (nesting.FiniteClosure unboxed ∧
      (nesting.isAssignable 1 .standard ⟨.invariant, true⟩ unboxed unboxed).answer = some true ∧
      ∀ fuel, nesting.isAssignable fuel .standard ⟨.covariant, true⟩ unboxed unboxed .empty =
        none) ∧
    orchard.memoize = false ∧ orchard.FiniteClosure (.array (simple "Pip")) ∧
    (orchard.isAssignable 2 .standard ⟨.invariant, true⟩ (.array (simple "Pip"))
      (.array (simple "Pip"))).answer = some true ∧
    ∀ fuel, orchard.isAssignable fuel .standard ⟨.covariant, true⟩ (.array (simple "Pip"))
      (.array (simple "Pip")) .empty = none := by
  refine ⟨⟨⟨5, _, rfl⟩, ⟨5, _, rfl⟩, ?_, ?_⟩, ⟨⟨5, _, rfl⟩, ⟨5, _, rfl⟩, ?_, ?_⟩,
    ⟨⟨2, _, rfl⟩, rfl, fun fuel => ?_⟩, rfl, pips_finite, rfl, fun fuel => ?_⟩
  · rfl
  · rfl
  · rfl
  · rfl
  · exact integer_never.eq_none (holdsClosures_empty _)
  · cases fuel with
    | zero => rfl
    | succ fuel => exact pip_never.eq_none (holdsClosures_empty _)

/-- The types that are met when chests of the first variable are compared with chests of wares. -/
def chestTypes : List Ty :=
  [chestOf (anyBelow (.named ware)), chestOf (.var (stored 0)), anyBelow (.named ware),
    .var (stored 0), .named ware, .top]

/-- These types are coherent: the other variable of the same name is not among them. -/
theorem treasury_coherent : (treasury true).Coherent chestTypes := by
  have hvar {param : TypeVar} (h : .var param ∈ chestTypes) : param = stored 0 := by
    simpa [chestTypes, chestOf, anyBelow, Ty.top] using h
  have hmem {t : Ty} (h : (treasury true).Reached chestTypes t) : t ∈ chestTypes := by
    refine h.mem_of_closed (fun _ => id) ?_ ?_ ?_
    · simp [chestTypes, chestOf, anyBelow, Ty.parts, Ty.top]
    · intro param hparam bound hbound
      cases hvar hparam
      simp [chestTypes, List.mem_singleton.1 hbound]
    · simp only [chestTypes, List.forall_mem_cons]
      refine ⟨⟨[.top], ⟨1, rfl⟩, ?_⟩, ⟨[.top], ⟨1, rfl⟩, ?_⟩, ⟨[.top], ⟨1, rfl⟩, ?_⟩,
        ⟨[.named ware], ⟨1, rfl⟩, ?_⟩, ⟨[.top], ⟨1, rfl⟩, ?_⟩, ⟨[], ⟨1, rfl⟩, ?_⟩,
        List.forall_mem_nil _⟩ <;> simp
  constructor
  · intro first second hfirst hsecond _
    cases hvar (hmem hfirst)
    cases hvar (hmem hsecond)
    rfl
  · intro first second hfirst hsecond _
    have hnamed {head : Named} (h : .named head ∈ chestTypes) : head = ware ∨ head = .top := by
      simpa [chestTypes, chestOf, anyBelow, Ty.top] using h
    rcases hnamed (hmem hfirst) with rfl | rfl <;> rcases hnamed (hmem hsecond) with rfl | rfl <;>
      rfl

/-- Only the universal supertype lies above the interfaces of arrays. -/
theorem treasury_markersApart (memoize : Bool) : (treasury memoize).MarkersApart := by
  have hpool : (treasury memoize).ClosedPool (treasury memoize).arraySupertypes := by
    show (treasury memoize).ClosedPool [.top, .named .cloneable, .named .serializable]
    simp only [ClosedPool, List.forall_mem_cons]
    refine ⟨⟨[], ⟨1, rfl⟩, ?_⟩, ⟨[.top], ⟨1, rfl⟩, ?_⟩, ⟨[.top], ⟨1, rfl⟩, ?_⟩,
      List.forall_mem_nil _⟩ <;> simp
  intro marker hmarker component habove
  rcases exists_of_mem_arraySupertypes (hpool.supertype hmarker habove) with h | h | h <;> cases h

/-- There are neither wildcards nor owners in chests of a class. -/
theorem chestOf_named_plain (head : Named) :
    (chestOf (.named head)).Everywhere (fun t => t.isWildcard = false) ∧
      (chestOf (.named head)).OwnerFree := by
  constructor
  · exact .intro rfl (List.forall_mem_singleton.2 (.intro rfl (List.forall_mem_nil _)))
  · exact .applied (List.forall_mem_singleton.2 (Ty.ownerFree_named head))

/-- Chests of a variable are accepted by chests of what is below its bound. Without memo also arrays
of chests of the other variable are accepted, and chests of coins are no chests of wares. -/
theorem chests_accepted :
    Halts ((treasury true).MemoSound chestTypes)
      (fun more => (treasury true).isAssignable more .standard ⟨.covariant, true⟩
        (chestOf (anyBelow (.named ware))) (chestOf (.var (stored 0)))) (fun yes => yes = true) ∧
    Halts (fun _ => True)
      (fun more => (treasury false).isAssignable more .standard ⟨.covariant, true⟩
        (.array chests) (.array (chestOf (.var (stored 1))))) (fun yes => yes = true) ∧
    ∃ enough, ∀ fuel, enough ≤ fuel → ∀ trail,
      (treasury true).isAssignable fuel .standard ⟨.invariant, false⟩ (chestOf (.named ware))
        (chestOf (.named coin)) trail = some (false, trail) := by
  refine ⟨?_, ?_, ?_⟩
  · exact (invariant_refines_covariant (treasury true) .standard true _ _).1 chestTypes 13 .empty _
      treasury_coherent (.head _) (.tail _ (.head _)) ⟨5, _, rfl⟩ memoSound_empty rfl
  · exact (invariant_refines_covariant (treasury false) .standard true _ _).2.1 13 .empty _ rfl
      ⟨9, _, rfl⟩ (absurd (treasury_markersApart false)) rfl
  · exact (invariant_refines_covariant (treasury true) .standard true _ _).2.2
      (List.forall_mem_cons.2 ⟨chestOf_named_plain ware,
        List.forall_mem_singleton.2 (chestOf_named_plain coin)⟩)

end Treasury

end Context

end Nominal
