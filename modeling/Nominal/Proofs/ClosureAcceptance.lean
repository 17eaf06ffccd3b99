import Nominal.Proofs.Decision
import Nominal.Proofs.FormedBounds
import Nominal.Proofs.Names

/-!
# Types are accepted by their supertypes

The closure of a type and the comparison of types agree: every member of the closure accepts the
type. The exception are wildcards, which no type but a wildcard accepts, although their closure has
the supertypes of their upper bound. So `WildcardFree` asks that no wildcard is met on the way from
arrays to components and from variables to bounds.
-/

namespace Nominal.Context

open Query

variable {context : Context} {roots : List Ty}

/-- What a type is built on: components of arrays and bounds of variables. -/
inductive Core (context : Context) (t : Ty) : Ty → Prop where
  | self : Core context t t
  | component {component : Ty} : Core context t (.array component) → Core context t component
  | bound {param : TypeVar} {bound : Ty} : Core context t (.var param) →
      bound ∈ context.heap.bounds param → Core context t bound

/-- The type is not built on a wildcard. -/
def WildcardFree (context : Context) (t : Ty) : Prop := ∀ u, context.Core t u → u.isWildcard = false

/-- What a part of the core is built on belongs to the core. -/
theorem Core.trans {t u v : Ty} (h : context.Core t u) (h' : context.Core u v) :
    context.Core t v := by
  induction h' with
  | self => exact h
  | component _ ih => exact ih.component
  | bound _ hbound ih => exact ih.bound hbound

/-- What an array is built on is itself or what its component is built on. -/
theorem Core.of_array {component u : Ty} (h : context.Core (.array component) u) :
    u = .array component ∨ context.Core component u := by
  induction h with
  | self => exact .inl rfl
  | component _ ih =>
      rcases ih with heq | hcore
      · cases heq
        exact .inr .self
      · exact .inr hcore.component
  | bound _ hbound ih =>
      rcases ih with heq | hcore
      · cases heq
      · exact .inr (hcore.bound hbound)

/-- What a variable is built on is itself or what one of its bounds is built on. -/
theorem Core.of_var {param : TypeVar} {u : Ty} (h : context.Core (.var param) u) :
    u = .var param ∨ ∃ bound ∈ context.heap.bounds param, context.Core bound u := by
  induction h with
  | self => exact .inl rfl
  | component _ ih =>
      rcases ih with heq | ⟨bound, hbound, hcore⟩
      · cases heq
      · exact .inr ⟨bound, hbound, hcore.component⟩
  | bound _ hinner ih =>
      rcases ih with heq | ⟨bound, hbound, hcore⟩
      · cases heq
        exact .inr ⟨_, hinner, .self⟩
      · exact .inr ⟨bound, hbound, hcore.bound hinner⟩

/-- A type with a head is built on nothing else. -/
theorem Core.of_head {t u : Ty} {head : Named} (hhead : t.head? = some head)
    (h : context.Core t u) : u = t := by
  induction h with
  | self => rfl
  | component _ ih =>
      subst ih
      cases hhead
  | bound _ _ ih =>
      subst ih
      cases hhead

namespace WildcardFree

/-- The component of an array is not built on a wildcard if the array is not. -/
theorem component {component : Ty} (h : context.WildcardFree (.array component)) :
    context.WildcardFree component :=
  fun u hu => h u (Core.self.component.trans hu)

/-- An array is not built on a wildcard if its component is not. -/
theorem array {component : Ty} (h : context.WildcardFree component) :
    context.WildcardFree (.array component) := by
  intro u hu
  rcases hu.of_array with rfl | hcore
  · rfl
  · exact h u hcore

/-- The bounds of a variable are not built on a wildcard if the variable is not. -/
theorem bound {param : TypeVar} {bound : Ty} (h : context.WildcardFree (.var param))
    (hbound : bound ∈ context.heap.bounds param) : context.WildcardFree bound :=
  fun u hu => h u ((Core.self.bound hbound).trans hu)

/-- A variable is not built on a wildcard if its bounds are not. -/
theorem var {param : TypeVar}
    (h : ∀ bound ∈ context.heap.bounds param, context.WildcardFree bound) :
    context.WildcardFree (.var param) := by
  intro u hu
  rcases hu.of_var with rfl | ⟨bound, hbound, hcore⟩
  · rfl
  · exact h bound hbound u hcore

/-- A type with a head is not built on a wildcard. -/
theorem of_head {t : Ty} {head : Named} (hhead : t.head? = some head) : context.WildcardFree t := by
  intro u hu
  cases hu.of_head hhead
  cases t with
  | named | applied => rfl
  | array | var | wildcard => cases hhead

end WildcardFree

/-! ## What supertypes look like -/

/-- Going to a direct supertype does not lead to a wildcard. -/
theorem WildcardFree.direct (hregular : context.env.Regular) {t s : Ty}
    (ht : context.WildcardFree t) (h : context.Direct t s) : context.WildcardFree s := by
  induction t using Ty.parts_induction generalizing s with
  | step t ih =>
      cases t with
      | named head =>
          obtain ⟨above, habove, _⟩ := direct_head hregular rfl h
          exact .of_head habove
      | applied owner raw args =>
          obtain ⟨above, habove, _⟩ := direct_head hregular rfl h
          exact .of_head habove
      | array component =>
          obtain ⟨all, hall, hmem⟩ := h
          obtain ⟨types, htypes, rfl⟩ := directs_array.1 hall
          rcases List.mem_append.1 hmem with hmem | hmem
          · obtain ⟨s', hs', rfl⟩ := List.mem_map.1 hmem
            exact (ih component (List.mem_singleton.2 rfl) ht.component ⟨types, htypes, hs'⟩).array
          · rcases exists_of_mem_arraySupertypes hmem with rfl | rfl | rfl <;> exact .of_head rfl
      | var param =>
          obtain ⟨types, htypes, hs⟩ := h
          cases directs_var.1 htypes
          exact ht.bound (Ty.mem_of_mem_distinct hs)
      | wildcard upper lower => cases ht _ .self

/-- Going to a supertype does not lead to a wildcard. -/
theorem WildcardFree.supertype (hregular : context.env.Regular) {t s : Ty}
    (ht : context.WildcardFree t) (h : context.Supertype t s) : context.WildcardFree s := by
  induction h with
  | refl => exact ht
  | tail _ hdirect ih => exact ih.direct hregular hdirect

/-! ## Supertypes accept -/

/-- A type with a head is accepted by its supertypes. -/
theorem accepts_of_head (hregular : context.env.Regular) {t s : Ty} {head : Named}
    (ht : t.head? = some head) (h : context.Supertype t s) : context.Accepts .covariant s t := by
  obtain ⟨hvar, hwild, hname⟩ := Ty.shape_of_head ht
  rw [accepts_iff_rule]
  obtain ⟨above, habove⟩ := supertype_head hregular ht h
  cases s with
  | named head' => exact .named hvar hwild (nominallyContains_named h BEq.rfl)
  | applied owner raw args =>
      have hargs := (rule_applied_invariant.1 (accepts_iff_rule.1
        (context.accepts_refl .invariant (.applied owner raw args)))).2
      exact .ancestor hname (nominallyContains_applied h BEq.rfl) h BEq.rfl hargs
  | array | var | wildcard => cases habove

/-- What accepts a direct supertype and lies above it accepts the type. -/
theorem accepts_of_direct (hregular : context.env.Regular) (hmarkers : context.MarkersNamed)
    (hformed : context.heap.Formed) {t u s : Ty} (ht : context.WildcardFree t)
    (hu : context.Direct t u) (hs : context.Supertype u s) (h : context.Accepts .covariant s u) :
    context.Accepts .covariant s t := by
  induction t using Ty.parts_induction generalizing u s with
  | step t ih =>
      cases t with
      | named head => exact accepts_of_head hregular rfl (hs.head hu)
      | applied owner raw args => exact accepts_of_head hregular rfl (hs.head hu)
      | array component =>
          have hnamed (hs' : ∃ head, s = .named head) :
              context.Accepts .covariant s (.array component) := by
            obtain ⟨head, rfl⟩ := hs'
            exact accepts_iff_rule.2 (.named rfl rfl (nominallyContains_named (hs.head hu) BEq.rfl))
          obtain ⟨all, hall, hmem⟩ := hu
          obtain ⟨types, htypes, rfl⟩ := directs_array.1 hall
          rcases List.mem_append.1 hmem with hmem | hmem
          · obtain ⟨component', hcomponent, rfl⟩ := List.mem_map.1 hmem
            rcases supertype_array hs with ⟨s', rfl, hs'⟩ | ⟨marker, hmarker, hs'⟩
            · have hinner := rule_array_array.1 (accepts_iff_rule.1 h)
              exact accepts_iff_rule.2 (.array (ih component (List.mem_singleton.2 rfl) ht.component
                ⟨types, htypes, hcomponent⟩ hs' hinner))
            · exact hnamed (hmarkers.exists_named hmarker hs')
          · exact hnamed (hmarkers.exists_named hmem hs)
      | var param =>
          obtain ⟨types, htypes, hmem⟩ := hu
          cases directs_var.1 htypes
          have hbound := Ty.mem_of_mem_distinct hmem
          have hwild := (ht.bound hbound).supertype hregular hs s .self
          cases hvar : s.isVar with
          | false => exact accepts_iff_rule.2 (.widen hvar hwild hbound h)
          | true =>
              -- a variable accepts variables only, and such a bound stands alone
              obtain ⟨above, rfl⟩ := Ty.eq_var hvar
              cases hbound' : u.isVar with
              | false => exact absurd (accepts_iff_rule.1 h) (rule_var hbound')
              | true =>
                  obtain ⟨next, rfl⟩ := Ty.eq_var hbound'
                  exact accepts_iff_rule.2
                    (.var_bound ((hformed param.cell).alone _ hbound hbound') h)
      | wildcard upper lower => cases ht _ .self

/-- A type that is not built on a wildcard is accepted by its supertypes. -/
theorem accepts_of_supertype (hregular : context.env.Regular) (hmarkers : context.MarkersNamed)
    (hformed : context.heap.Formed) {t s : Ty} (ht : context.WildcardFree t)
    (h : context.Supertype t s) : context.Accepts .covariant s t := by
  induction h using Relation.ReflTransGen.head_induction_on with
  | refl => exact context.accepts_refl .covariant s
  | head hdirect hrest ih =>
      exact accepts_of_direct hregular hmarkers hformed ht hdirect hrest
        (ih (ht.direct hregular hdirect))

/-! ## Primitives and boxing -/

/-- Direct supertypes are never primitives. -/
theorem direct_not_primitive (hregular : context.env.Regular) (hformed : context.heap.Formed)
    (hcloneable : context.env.cloneable.isPrimitive = false)
    (hserializable : context.env.serializable.isPrimitive = false) {t s : Ty}
    (h : context.Direct t s) : s.isPrimitive = false := by
  have hhead {above : Named} (habove : s.head? = some above)
      (hprimitive : above.isPrimitive = false) : s.isPrimitive = false :=
    (Ty.headed_of_head habove hprimitive).2
  induction t using Ty.parts_induction with
  | step t ih =>
      cases t with
      | named head =>
          obtain ⟨above, habove, hprimitive⟩ := direct_head hregular rfl h
          exact hhead habove hprimitive
      | applied owner raw args =>
          obtain ⟨above, habove, hprimitive⟩ := direct_head hregular rfl h
          exact hhead habove hprimitive
      | array component =>
          obtain ⟨all, hall, hmem⟩ := h
          obtain ⟨types, htypes, rfl⟩ := directs_array.1 hall
          rcases List.mem_append.1 hmem with hmem | hmem
          · obtain ⟨s', _, rfl⟩ := List.mem_map.1 hmem
            rfl
          · rcases exists_of_mem_arraySupertypes hmem with rfl | rfl | rfl
            · rfl
            · exact hcloneable
            · exact hserializable
      | var param =>
          obtain ⟨types, htypes, hs⟩ := h
          cases directs_var.1 htypes
          exact ((hformed param.cell).reference s (Ty.mem_of_mem_distinct hs)).1
      | wildcard upper lower => exact ih upper List.mem_cons_self h

/-- Every closure in the memo has the type that it belongs to. -/
def MemoReflexive : Memo → Prop :=
  MemoAll fun t members => ∃ member ∈ members, (t == member) = true

/-- A memo of closures is reflexive. -/
theorem MemoSound.reflexive {memo : Memo} (h : context.MemoSound roots memo) :
    MemoReflexive memo := by
  intro entry hentry
  obtain ⟨_, fuel, hanswer⟩ := h entry hentry
  exact ⟨entry.1, (closure_closureOf hanswer).self, BEq.rfl⟩

/-- A closure that is handed out has the type that was asked about. -/
theorem supertypes_reflexive (fuel : Nat) (t : Ty) :
    Ensures MemoReflexive (context.supertypes fuel t)
      (fun members => ∃ member ∈ members, (t == member) = true) := by
  have hself {members : List Ty} (h : (context.closure fuel t).answer = some members) :
      ∃ member ∈ members, (t == member) = true := ⟨t, (closure_closureOf h).self, BEq.rfl⟩
  refine (supertypes_memoAll hself).mono fun members hmembers => ?_
  obtain ⟨t', heq, member, hmember, hequal⟩ := hmembers
  exact ⟨member, hmember, BEq.trans heq hequal⟩

/-- Asked about itself, a name says yes, also where nothing is known of its coherence. -/
theorem named_self_ensures (fuel : Nat) (head : Named) :
    Ensures MemoReflexive (context.covariant fuel [] (.named head) (.named head))
      (fun answer => answer = true) := by
  cases fuel with
  | zero => exact .exhausted
  | succ fuel =>
      refine Ensures.bind (supertypes_reflexive fuel (.named head)) fun members hmembers => ?_
      obtain ⟨member, hmember, heq⟩ := hmembers
      obtain ⟨head', rfl, hhead⟩ := Ty.named_beq heq
      have hany := Decides.anyM fun t (_ : t ∈ members) =>
        @erased_named_decides MemoReflexive context.heap head t fuel
      exact Ensures.mono hany fun answer hanswer =>
        hanswer.2 ⟨_, hmember, head', erases_named.2 rfl, BEq.symm hhead⟩

/-- Boxing leaves alone what is no primitive. -/
theorem box_eq {boxing : Boxing} {t : Ty} (h : t.isPrimitive = false) : boxing.box t = t := by
  cases t with
  | named head =>
      have hprimitive : head.isPrimitive = false := h
      rw [Boxing.box, Boxing.boxed?, hprimitive]
      rfl
  | applied | array | var | wildcard => rfl

/-- Equal primitives are boxed to the same type, or not at all. -/
theorem box_primitive {boxing : Boxing} {head head' : Named} (hname : (head == head') = true)
    (h : head.isPrimitive = true) (h' : head'.isPrimitive = true) :
    (∃ reference, boxing.box (.named head) = .named reference ∧
        boxing.box (.named head') = .named reference) ∨
      boxing.box (.named head) = .named head ∧ boxing.box (.named head') = .named head' := by
  rw [Boxing.box, Boxing.box, Boxing.boxed?, Boxing.boxed?, if_pos h, if_pos h',
    Named.beq_iff.1 hname]
  cases boxing.entries.lookup head'.name with
  | none => exact .inr ⟨rfl, rfl⟩
  | some reference => exact .inl ⟨reference, rfl, rfl⟩

/-- Twins are primitives together. -/
theorem Coherent.isPrimitive_eq (hcoherent : context.Coherent roots) {s t : Ty}
    (h : context.Twins roots s t) : s.isPrimitive = t.isPrimitive := by
  cases s with
  | named head =>
      obtain ⟨head', rfl, hhead⟩ := h.named
      show head.isPrimitive = head'.isPrimitive
      rw [Named.isPrimitive, Named.isPrimitive, hcoherent.kinds h.left h.right hhead]
  | applied | array | var | wildcard =>
      have hequal := h.equal
      cases t <;> first | rfl | cases hequal

/-- Every member of the closure of a type accepts the type under covariance, with or without boxing,
whenever the question is answered. The type is not to be built on a wildcard. -/
theorem isAssignable_of_mem_supertypes (hcoherent : context.Coherent roots)
    (hregular : context.env.Regular) (hmarkers : context.MarkersNamed)
    (hcloneable : context.env.cloneable.isPrimitive = false)
    (hserializable : context.env.serializable.isPrimitive = false)
    (hformed : context.heap.Formed) {t : Ty} (ht : t ∈ roots) (hfree : context.WildcardFree t)
    {fuel : Nat} {trail after : Trail} {members : List Ty}
    (hmemo : context.MemoSound roots trail.memo)
    (h : context.supertypes fuel t trail = some (members, after)) {s : Ty} (hs : s ∈ members)
    (boxing : Boxing) (boxes : Bool) {answer : Bool}
    (hanswer : context.Answers roots boxing ⟨.covariant, boxes⟩ s t answer) : answer = true := by
  have hreached : context.Reached roots t := .root ht
  obtain ⟨_, hmembers⟩ := supertypes_ensures hcoherent hreached trail hmemo members after h
  obtain ⟨u, hu, heq⟩ := hmembers.sound s hs
  have htwins : context.Twins roots u s := ⟨hreached.supertype hu, hmembers.reached s hs, heq⟩
  have haccepts : context.Accepts .covariant s t := hcoherent.accepts htwins (.refl hreached)
    (accepts_of_supertype hregular hmarkers hformed hfree hu)
  obtain ⟨fuel', trail', after', hmemo', hrun⟩ := hanswer
  rw [isAssignable_eq] at hrun
  have hplain (hrun : context.compare fuel' [] .covariant s t trail' = some (answer, after')) :
      answer = true :=
    (compare_ensures hcoherent htwins.right hreached fuel' .covariant trail' hmemo' answer after'
      hrun).2.2 haccepts
  cases boxes with
  | false => exact hplain hrun
  | true =>
      change context.compare fuel' [] .covariant (boxing.box s) (boxing.box t) trail' = _ at hrun
      cases hprimitive : t.isPrimitive with
      | false =>
          have hs' : s.isPrimitive = false := by
            rw [← hcoherent.isPrimitive_eq htwins]
            rcases hu.cases_tail with rfl | ⟨_, _, hdirect⟩
            · exact hprimitive
            · exact direct_not_primitive hregular hformed hcloneable hserializable hdirect
          rw [box_eq hs', box_eq hprimitive] at hrun
          exact hplain hrun
      | true =>
          cases t with
          | named head =>
              -- a primitive is its only supertype, so both sides are boxed alike
              cases supertype_primitive hprimitive hu
              obtain ⟨head', rfl, hhead⟩ := htwins.named
              have hprimitive' := hcoherent.isPrimitive_eq htwins ▸ hprimitive
              rcases @box_primitive boxing _ _ hhead hprimitive hprimitive' with
                ⟨reference, hbox, hbox'⟩ | ⟨hbox, hbox'⟩
              · rw [hbox, hbox'] at hrun
                exact (named_self_ensures fuel' reference trail' hmemo'.reflexive answer after'
                  hrun).2
              · rw [hbox, hbox'] at hrun
                exact hplain hrun
          | applied | array | var | wildcard => cases hprimitive

section Chains

/-- A variable for lists of itself. -/
def chainVar (handle : Handle) : TypeVar := ⟨"T", "Chain", handle⟩

/-- A class of lists applied to the variable, as the bounds of the variable refer to it. -/
def chainBound : Ty := .applied none arrayList [.var (chainVar (.back 2))]

/-- The heap of the parameters of lists and of the variable, before it is bound. -/
def chainDeclared : Heap :=
  (((Heap.empty.declare "E" "List").2.declare "E" "ArrayList").2.declare "T" "Chain").2

/-- The variable is bounded by the class of lists applied to itself. -/
def chains : Context := ⟨listEnv, ⟨#[.unbound, .unbound, .bound [chainBound]], [2]⟩, true⟩

/-- The heap is made by binding the variable. -/
theorem chains_made : chains.heap.Made := by
  have hdeclared : chainDeclared.Made := ((Heap.Made.empty.declare _ _).declare _ _).declare _ _
  exact hdeclared.bind (show chainDeclared.bind (chainVar (.owning 2))
    [.applied none arrayList [.var (chainVar (.owning 2))]] = .ok chains.heap from rfl)

/-- The types that are met when arrays of the variable are looked at. -/
def chainTypes : List Ty :=
  [.array (.var (chainVar (.owning 2))), .var (chainVar (.owning 2)), .var (chainVar (.back 2)),
    chainBound, .applied none list [.var (chainVar (.back 2))], .array chainBound,
    .array (.applied none list [.var (chainVar (.back 2))]), .array .top, .top,
    .named .cloneable, .named .serializable]

/-- The types that are met are coherent. -/
theorem chains_coherent : chains.Coherent chainTypes := by
  have hvar {param : TypeVar} (h : .var param ∈ chainTypes) :
      param = chainVar (.owning 2) ∨ param = chainVar (.back 2) := by
    simpa [chainTypes, chainBound, Ty.top] using h
  have hmem {t : Ty} (h : chains.Reached chainTypes t) : t ∈ chainTypes := by
    refine h.mem_of_closed (fun _ => id) ?_ ?_ ?_
    · simp [chainTypes, Ty.parts, Ty.top, chainBound]
    · intro param hparam bound hbound
      have hbounds : bound = chainBound := by
        rcases hvar hparam with rfl | rfl <;> exact List.mem_singleton.1 hbound
      simp [hbounds, chainTypes]
    · simp only [chainTypes, List.forall_mem_cons]
      refine ⟨⟨[.array chainBound, .top, .named .cloneable, .named .serializable], ⟨1, rfl⟩, ?_⟩,
        ⟨[chainBound], ⟨1, rfl⟩, ?_⟩, ⟨[chainBound], ⟨1, rfl⟩, ?_⟩,
        ⟨[.applied none list [.var (chainVar (.back 2))]], ⟨1, rfl⟩, ?_⟩, ⟨[.top], ⟨1, rfl⟩, ?_⟩,
        ⟨[.array (.applied none list [.var (chainVar (.back 2))]), .top, .named .cloneable,
          .named .serializable], ⟨1, rfl⟩, ?_⟩,
        ⟨[.array .top, .top, .named .cloneable, .named .serializable], ⟨1, rfl⟩, ?_⟩,
        ⟨[.top, .named .cloneable, .named .serializable], ⟨1, rfl⟩, ?_⟩, ⟨[], ⟨1, rfl⟩, ?_⟩,
        ⟨[], ⟨1, rfl⟩, ?_⟩, ⟨[], ⟨1, rfl⟩, ?_⟩, List.forall_mem_nil _⟩ <;> simp
  constructor
  · intro first second hfirst hsecond _
    rcases hvar (hmem hfirst) with rfl | rfl <;> rcases hvar (hmem hsecond) with rfl | rfl <;> rfl
  · intro first second hfirst hsecond heq
    have hnamed {head : Named} (h : .named head ∈ chainTypes) :
        head = .top ∨ head = .cloneable ∨ head = .serializable := by
      simpa [chainTypes, chainBound, Ty.top] using h
    rcases hnamed (hmem hfirst) with rfl | rfl | rfl <;>
      rcases hnamed (hmem hsecond) with rfl | rfl | rfl <;> first | rfl | cases heq

/-- The interfaces of arrays are not declared here. -/
theorem chains_markers : chains.MarkersNamed := by
  intro marker hmarker s hs
  have hleaf : chains.Directs (.named marker) [] := by
    rcases hmarker with rfl | rfl
    · exact ⟨1, rfl⟩
    · exact ⟨1, rfl⟩
  rcases hs.cases_head with rfl | ⟨_, ⟨types, htypes, hmem⟩, _⟩
  · exact ⟨marker, rfl⟩
  · cases hleaf.unique htypes
    cases hmem

/-- Arrays of a variable that is bounded by lists of itself are accepted by arrays of lists of it,
as their closure says. -/
theorem chain_array_accepted :
    ∃ members after, chains.supertypes 12 (.array (.var (chainVar (.owning 2)))) .empty =
        some (members, after) ∧
      ∃ s ∈ members, s = .array (.applied none list [.var (chainVar (.back 2))]) ∧
        chains.Answers chainTypes .standard ⟨.covariant, true⟩ s
          (.array (.var (chainVar (.owning 2)))) true := by
  obtain ⟨members, after, hrun, s, hs, hlist⟩ : ∃ members after,
      chains.supertypes 12 (.array (.var (chainVar (.owning 2)))) .empty = some (members, after) ∧
        ∃ s ∈ members, s = .array (.applied none list [.var (chainVar (.back 2))]) :=
    ⟨_, _, rfl, _, .tail _ (.tail _ (.tail _ (.tail _ (.tail _ (.head _))))), rfl⟩
  obtain ⟨answer, hanswer⟩ : ∃ answer, chains.Answers chainTypes .standard ⟨.covariant, true⟩ s
      (.array (.var (chainVar (.owning 2)))) answer := by
    subst hlist
    exact ⟨_, 12, .empty, _, memoSound_empty, rfl⟩
  have hfree : chains.WildcardFree (.array (.var (chainVar (.owning 2)))) := by
    refine (WildcardFree.var fun bound hbound => ?_).array
    cases List.mem_singleton.1 hbound
    exact .of_head rfl
  have hyes : answer = true := isAssignable_of_mem_supertypes chains_coherent listEnv_regular
    chains_markers rfl rfl chains_made.formed (.head _) hfree memoSound_empty hrun hs .standard true
    hanswer
  exact ⟨members, after, hrun, s, hs, hlist, hyes ▸ hanswer⟩

end Chains

end Nominal.Context
