import Nominal.Hierarchy.Table
import Nominal.Proofs.CircularBounds

/-!
# Questions without an answer

That the closures of two types are finite does not mean that a question about them is answered. Two
things stand in the way. The erasures of what a closure holds follow the bounds of variables that
the search for the closure has left out, because it met equal variables before; in `split` such a
bound runs in a circle. And the arguments of supertypes have supertypes of their own; in `nesting`
those of one class grow without end, each a nest of the one before.
-/

namespace Nominal

/-- A family of types that differ from each other has not finitely many members, up to equality. -/
theorem Ty.not_finitelyMany {holds : Ty → Prop} {family : Nat → Ty}
    (hholds : ∀ count, holds (family count))
    (hapart : ∀ {first second}, (family first == family second) = true → first = second) :
    ¬ FinitelyMany holds := by
  rintro ⟨pool, hpool⟩
  choose place hplace heq using fun count => hpool (family count) (hholds count)
  let inPool (count : Nat) : { t : Ty // t ∈ pool } := ⟨place count, hplace count⟩
  have hinjective : Function.Injective inPool := by
    intro first second hsame
    have hplaces : place first = place second := congrArg Subtype.val hsame
    refine hapart (BEq.trans (heq first) ?_)
    rw [hplaces]
    exact BEq.symm (heq second)
  have hfinite : Finite { t : Ty // t ∈ pool } := List.finite_toSet pool
  exact not_injective_infinite_finite inPool hinjective

namespace Context

open Query

variable {context : Context}

/-! ## What has no answer -/

/-- A type without an erasure has no erased name. -/
theorem erasedNamed_never {keeps : Memo → Prop} {heap : Heap} {t : Ty}
    (h : ∀ erased, ¬ Erases heap [] t erased) (fuel : Nat) :
    Ensures keeps (erasedNamed? heap fuel t) fun _ => False := by
  refine (Ensures.of_oblivious (erase_along_oblivious heap fuel [] t)).bind fun erased herased => ?_
  exact absurd ⟨fuel, herased⟩ (h erased)

/-- There is no answer whether a name is among the erased supertypes, if some supertype has no
erasure and those before it have other ones. -/
theorem nominallyContains_never {head : Named} {t member : Ty} {before rest : List Ty}
    {enough : Nat} (hclosure : (context.closure enough t).answer = some (before ++ member :: rest))
    (hbefore : ∀ s ∈ before, ∃ component, Erases context.heap [] s (.array component))
    (hmember : ∀ erased, ¬ Erases context.heap [] member erased) (fuel : Nat) :
    Ensures (context.HoldsClosures (Eq t)) (context.nominallyContains fuel head t)
      fun _ => False := by
  refine (supertypes_closure rfl fuel).bind fun members hmembers => ?_
  obtain ⟨_, rfl, _, _, hanswer⟩ := hmembers
  cases closure_unique hclosure hanswer
  refine Ensures.anyM_never before (fun s hs => ?_) ?_
  · obtain ⟨component, hcomponent⟩ := hbefore s hs
    refine Ensures.mono (erased_named_decides context.heap head s fuel) fun yes hyes => ?_
    refine Bool.eq_false_iff.2 fun htrue => ?_
    obtain ⟨found, hfound, _⟩ := hyes.1 htrue
    cases hcomponent.unique hfound
  · exact (erasedNamed_never hmember fuel).bind_never

/-- The supertypes of a type are not found, if its closure is not finite and nothing else of the
domain is equal to it. -/
theorem supertypes_never {domain : Ty → Prop} {t : Ty} (ht : domain t)
    (halone : ∀ t', domain t' → (t == t') = true → t' = t) (h : ¬ context.FiniteClosure t)
    (fuel : Nat) :
    Ensures (context.HoldsClosures domain) (context.supertypes fuel t) fun _ => False := by
  refine (supertypes_closure ht fuel).mono fun members hmembers => ?_
  obtain ⟨t', ht', heq, enough, hanswer⟩ := hmembers
  cases halone t' ht' heq
  exact h ⟨enough, members, hanswer⟩

/-- So there is no answer whether a name accepts such a name under covariance. -/
theorem covariant_named_never {domain : Ty → Prop} {head payload : Named}
    (hpayload : domain (.named payload))
    (halone : ∀ t, domain t → (Ty.named payload == t) = true → t = .named payload)
    (h : ¬ context.FiniteClosure (.named payload)) (fuel : Nat) :
    Ensures (context.HoldsClosures domain)
      (context.covariant fuel [] (.named head) (.named payload)) fun _ => False := by
  cases fuel with
  | zero => exact .exhausted
  | succ fuel => exact (supertypes_never hpayload halone h fuel).bind_never

/-- The search does not end along a chain of types that are all different, if each has the next one
as its only direct supertype. -/
theorem not_finiteClosure_of_chain {chain : Nat → Ty}
    (hdirects : ∀ count, context.Directs (chain count) [chain (count + 1)])
    (hapart : ∀ {first second}, (chain first == chain second) = true → first = second) :
    ¬ context.FiniteClosure (chain 0) := by
  have hsupertype (count : Nat) : context.Supertype (chain 0) (chain count) := by
    induction count with
    | zero => exact .refl
    | succ count ih => exact ih.tail ⟨_, hdirects count, List.mem_singleton.2 rfl⟩
  have huniform : context.Uniform fun t => ∃ count, t = chain count := by
    constructor
    · rintro _ s ⟨count, rfl⟩ ⟨types, htypes, hs⟩
      cases htypes.unique (hdirects count)
      exact ⟨count + 1, List.mem_singleton.1 hs⟩
    · rintro _ _ types ⟨first, rfl⟩ ⟨second, rfl⟩ heq htypes
      cases hapart heq
      exact ⟨types, htypes, fun _ => rfl⟩
  intro hfinite
  exact Ty.not_finitelyMany hsupertype hapart (hfinite.finitelyAbove huniform ⟨0, rfl⟩)

/-! ## Equal variables with different bounds -/

section Split

/-- Two equal variables, which differ in their bounds. -/
def repeated (handle : Handle) : TypeVar := ⟨"V", "m", handle⟩

/-- The first variable is bounded by the universal supertype and the second one, which is equal to
it, by an array of itself. The third one is bounded by the second and the fourth one by arrays of
the first and of the third. -/
def splitBounds : Heap :=
  ⟨#[.bound [.top], .bound [.array (.var (repeated (.back 1)))],
    .bound [.var (repeated (.owning 1))],
    .bound [.array (.var (repeated (.owning 0))), .array (.var ⟨"W", "m", .owning 2⟩)]], [1]⟩

/-- The variables with the declarations that there always are. -/
def split : Context := ⟨Table.base.env, splitBounds, true⟩

/-- An array of the fourth variable. -/
def splitArray : Ty := .array (.var ⟨"U", "m", .owning 3⟩)

/-- What the search finds above the array before it comes to the third variable. -/
def splitBefore : List Ty := [splitArray, .array (.array (.var (repeated (.owning 0))))]

/-- The bounds have been given one after the other. -/
theorem split_made : split.heap.Made := by
  have hfirst : (Heap.empty.declare "V" "m").2.bind (repeated (.owning 0)) [] =
      .ok ⟨#[.bound [.top]], []⟩ := rfl
  have hsecond : Heap.bind (Heap.declare ⟨#[.bound [.top]], []⟩ "V" "m").2 (repeated (.owning 1))
      [.array (.var (repeated (.owning 1)))] =
        .ok ⟨#[.bound [.top], .bound [.array (.var (repeated (.back 1)))]], [1]⟩ := rfl
  have hthird : Heap.bind
      (Heap.declare ⟨#[.bound [.top], .bound [.array (.var (repeated (.back 1)))]], [1]⟩ "W" "m").2
      ⟨"W", "m", .owning 2⟩ [.var (repeated (.owning 1))] =
        .ok ⟨#[.bound [.top], .bound [.array (.var (repeated (.back 1)))],
          .bound [.var (repeated (.owning 1))]], [1]⟩ := rfl
  have hfourth : Heap.bind
      (Heap.declare ⟨#[.bound [.top], .bound [.array (.var (repeated (.back 1)))],
        .bound [.var (repeated (.owning 1))]], [1]⟩ "U" "m").2
      ⟨"U", "m", .owning 3⟩
      [.array (.var (repeated (.owning 0))), .array (.var ⟨"W", "m", .owning 2⟩)] =
        .ok splitBounds := rfl
  exact .bind (.declare _ _ (.bind (.declare _ _ (.bind (.declare _ _ (.bind (.declare _ _ .empty)
    hfirst)) hsecond)) hthird)) hfourth

/-- The search ends, since it follows the bounds of only one of the equal variables, and finds the
universal supertype. -/
theorem split_closure : ∃ rest, rest.contains Ty.top = true ∧
    (split.closure 11 splitArray).answer =
      some (splitBefore ++ .array (.array (.var ⟨"W", "m", .owning 2⟩)) :: rest) :=
  ⟨_, rfl, rfl⟩

/-- Erasing the third variable runs in a circle. -/
theorem split_not_erases (erased : Ty) :
    ¬ Erases split.heap [] (.array (.array (.var ⟨"W", "m", .owning 2⟩))) erased := by
  intro herases
  have hcircle : split.heap.Component (.var (repeated (.back 1))) (.var (repeated (.back 1))) :=
    .var rfl rfl .array
  have hthird : split.heap.Component (.var ⟨"W", "m", .owning 2⟩) (.var (repeated (.back 1))) :=
    .var rfl rfl (.var rfl rfl .array)
  refine Heap.not_circular_of_erases herases ⟨_, ?_, .single hcircle⟩
  exact ((Relation.ReflTransGen.single .array).tail .array).tail hthird

/-- So there is no answer whether the universal supertype accepts the array. -/
theorem split_never (boxing : Boxing) (boxes : Bool) (fuel : Nat) :
    split.isAssignable fuel boxing ⟨.covariant, boxes⟩ .top splitArray .empty = none := by
  obtain ⟨rest, _, hclosure⟩ := split_closure
  have hbefore : ∀ s ∈ splitBefore, ∃ component, Erases split.heap [] s (.array component) := by
    simp only [splitBefore, List.forall_mem_cons]
    exact ⟨⟨_, 5, rfl⟩, ⟨_, 5, rfl⟩, List.forall_mem_nil _⟩
  rw [isAssignable_eq]
  cases fuel with
  | zero => cases boxes <;> rfl
  | succ fuel =>
      have hnever : Ensures (split.HoldsClosures (Eq splitArray))
          (split.nominallyContains fuel .top splitArray) fun _ => False :=
        nominallyContains_never hclosure hbefore split_not_erases fuel
      have hnone := hnever.eq_none (holdsClosures_empty _)
      cases boxes <;> exact hnone

end Split

/-! ## Supertypes that grow -/

section Nesting

/-- Nests of the given type. -/
def nest (t : Ty) : Ty := .applied none ⟨⟨"Nest", .interfaceType, 1⟩, rfl⟩ [t]

/-- Baskets of the given type. -/
def basket (t : Ty) : Ty := .applied none ⟨⟨"Basket", .interfaceType, 1⟩, rfl⟩ [t]

/-- A class without type parameters. -/
def simple (name : String) : Ty := .named ⟨name, .classType, 0⟩

/-- A primitive. -/
def unboxed : Ty := .named ⟨"int", .primitiveType, 0⟩

/-- The reference type of the primitive. -/
def integer : Ty := simple "java.lang.Integer"

/-- A nest of something is a nest of such nests, and the reference type is a nest of itself. A stand
has baskets of it and of apples, which are fruits. -/
def nestingTable : Table :=
  ⟨Table.base.entries ++ [
    ⟨⟨"Nest", .interfaceType, 1⟩, [⟨"T", "Nest", .owning 0⟩], none,
      [nest (nest (.var ⟨"T", "Nest", .owning 0⟩))]⟩,
    ⟨⟨"java.lang.Integer", .classType, 0⟩, [], none, [nest integer]⟩,
    ⟨⟨"Basket", .interfaceType, 1⟩, [⟨"T", "Basket", .owning 1⟩], none, []⟩,
    ⟨⟨"Fruit", .classType, 0⟩, [], none, []⟩,
    ⟨⟨"Apple", .classType, 0⟩, [], some (simple "Fruit"), []⟩,
    ⟨⟨"Stand", .classType, 0⟩, [], none, [basket integer, basket (simple "Apple")]⟩]⟩

/-- These declarations; the parameters of nests and baskets have no bounds. -/
def nesting : Context := ⟨nestingTable.env, ⟨#[.unbound, .unbound], []⟩, true⟩

/-- The reference type inside the given number of nests. -/
def nests : Nat → Ty
  | 0 => integer
  | count + 1 => nest (nests count)

/-- Different numbers of nests are not equal. -/
theorem eq_of_nests_beq {first second : Nat} (h : (nests first == nests second) = true) :
    first = second := by
  induction first generalizing second with
  | zero =>
      cases second with
      | zero => rfl
      | succ second =>
          obtain ⟨_, heq, _⟩ := Ty.named_beq h
          cases heq
  | succ first ih =>
      obtain ⟨_, _, _, heq, _, _, hargs⟩ := Ty.applied_beq h
      cases second with
      | zero => cases heq
      | succ second =>
          cases heq
          exact congrArg (· + 1) (ih (List.forall₂_cons.1 hargs).1)

/-- Every number of nests has one more above it. -/
theorem directs_nests (count : Nat) : nesting.Directs (nests count) [nests (count + 1)] := by
  rcases count with _ | _ | count <;> exact ⟨1, rfl⟩

/-- So the search for what lies above the reference type does not end. -/
theorem integer_not_finite : ¬ nesting.FiniteClosure integer :=
  not_finiteClosure_of_chain directs_nests eq_of_nests_beq

/-- There is no answer whether the reference type accepts itself. -/
theorem integer_never {fuel : Nat} :
    Ensures (nesting.HoldsClosures (Eq integer)) (nesting.covariant fuel [] integer integer)
      fun _ => False :=
  covariant_named_never rfl (fun _ heq _ => heq.symm) integer_not_finite fuel

/-- The name of the reference type, taken for that of a primitive. -/
def forgedInteger : Ty := .named ⟨"java.lang.Integer", .primitiveType, 0⟩

/-- Here pips are apples, apples are fruits and fruits lie below the reference type. Arrays of the
forged name lie above one of the interfaces of arrays. -/
def orchardTable : Table :=
  ⟨[⟨.top, [], none, []⟩, ⟨.cloneable, [], none, [.array forgedInteger]⟩,
    ⟨.serializable, [], none, []⟩,
    ⟨⟨"Nest", .interfaceType, 1⟩, [⟨"T", "Nest", .owning 0⟩], none,
      [nest (nest (.var ⟨"T", "Nest", .owning 0⟩))]⟩,
    ⟨⟨"java.lang.Integer", .classType, 0⟩, [], none, [nest integer]⟩,
    ⟨⟨"Fruit", .classType, 0⟩, [], some integer, []⟩,
    ⟨⟨"Apple", .classType, 0⟩, [], some (simple "Fruit"), []⟩,
    ⟨⟨"Pip", .classType, 0⟩, [], some (simple "Apple"), []⟩]⟩

/-- These declarations, without a memo. -/
def orchard : Context := ⟨orchardTable.env, ⟨#[.unbound], []⟩, false⟩

/-- What lies above pips. -/
def abovePip : Nat → Ty
  | 0 => simple "Pip"
  | 1 => simple "Apple"
  | 2 => simple "Fruit"
  | count + 3 => nests count

/-- No other class is equal to a number of nests. -/
theorem simple_beq_nests {name : String} {count : Nat} (h : (simple name == nests count) = true) :
    name = "java.lang.Integer" := by
  cases count with
  | zero => exact Named.beq_iff.1 h
  | succ count => cases h

/-- Different steps above pips are not equal. -/
theorem eq_of_abovePip_beq {first second : Nat}
    (h : (abovePip first == abovePip second) = true) : first = second := by
  -- before the nests, the names of the classes tell the steps apart
  rcases first with _ | _ | _ | first <;> rcases second with _ | _ | _ | second
  case succ.succ.succ.succ.succ.succ => exact congrArg (· + 3) (eq_of_nests_beq h)
  all_goals first
    | rfl
    | exact absurd h (by decide)
    | exact absurd (simple_beq_nests h) (by decide)
    | exact absurd (simple_beq_nests (BEq.symm h)) (by decide)

/-- Every step above pips has one more above it. -/
theorem directs_abovePip (count : Nat) :
    orchard.Directs (abovePip count) [abovePip (count + 1)] := by
  rcases count with _ | _ | _ | _ | _ | count <;> exact ⟨1, rfl⟩

/-- So the search for what lies above pips does not end. -/
theorem pip_not_finite : ¬ orchard.FiniteClosure (simple "Pip") :=
  not_finiteClosure_of_chain directs_abovePip eq_of_abovePip_beq

/-- There is no answer whether pips accept themselves. -/
theorem pip_never {fuel : Nat} :
    Ensures (orchard.HoldsClosures (Eq (simple "Pip")))
      (orchard.covariant fuel [] (simple "Pip") (simple "Pip")) fun _ => False :=
  covariant_named_never rfl (fun _ heq _ => heq.symm) pip_not_finite fuel

/-- The search from arrays of pips ends, since it meets arrays of the forged name first. -/
theorem pips_finite : orchard.FiniteClosure (.array (simple "Pip")) := ⟨9, _, rfl⟩

end Nesting

end Context

end Nominal
