import Nominal.Proofs.Closures
import Nominal.Proofs.FormedBounds
import Nominal.Proofs.Inheritance
import Nominal.Proofs.Substitution

/-!
# Proper types

A type is proper if the checked constructors can make it: `applied?_iff` and `wildcard?_iff` say
that `ProperAt` is what they check. Substitution and the search for supertypes put types together
without these checks. They need none, because what is not primitive stays so when variables are
replaced (`isPrimitive_replace`) and wildcards that meet wildcards are flattened. So every supertype
of a proper type is proper, as long as declarations and bounds are. In particular all these types
are well formed (`Proper.wellFormed`), as the laws of substitution ask.
-/

namespace Nominal

namespace Ty

/-- A type that may bound a wildcard. -/
def MayBound (t : Ty) : Prop := t.isPrimitive = false ∧ t.isWildcard = false

/-- A node in which an applied type has a raw type that is not primitive, as many arguments as that
expects and no primitive among them, and in which the bounds of a wildcard may bound it, with no
other upper bound than the universal supertype beside a lower one. -/
def ProperAt : Ty → Prop
  | .applied _ raw args =>
      raw.isPrimitive = false ∧ args.length = raw.arity ∧ ∀ arg ∈ args, arg.isPrimitive = false
  | .wildcard upper lower =>
      upper.MayBound ∧ ∀ bound, lower = some bound → bound.MayBound ∧ upper.isTop = true
  | .named _ | .array _ | .var _ => True

/-- All nodes of a type are as the checked constructors make them. -/
def Proper (t : Ty) : Prop := t.Everywhere ProperAt

/-! ## What the checked constructors accept -/

/-- An applied type is made if its head is the name of a class and its parts fit. -/
theorem applied?_iff {owner : Option Ty} {head : Named} {args : List Ty} {t : Ty} :
    applied? owner head args = .ok t ↔
      ∃ raw : ClassName, raw.toNamed = head ∧ (Ty.applied owner raw args).ProperAt ∧
        t = .applied owner raw args := by
  rw [applied?]
  cases hhead : head.isPrimitive with
  | true =>
      rw [Named.asClass?_eq_none hhead]
      constructor
      · intro h
        cases h
      · rintro ⟨raw, rfl, _⟩
        cases hhead.symm.trans raw.reference
  | false =>
      rw [Named.asClass?_eq_some hhead]
      have hargs : args.find? isPrimitive = none ↔ ∀ arg ∈ args, arg.isPrimitive = false := by simp
      constructor
      · intro h
        by_cases hlength : args.length = head.arity
        · cases hfound : args.find? isPrimitive with
          | some argument => simp [hlength, hfound] at h
          | none =>
              simp only [ne_eq, hlength, not_true_eq_false, if_false, hfound] at h
              exact ⟨⟨head, hhead⟩, rfl, ⟨hhead, hlength, hargs.1 hfound⟩, (Except.ok.inj h).symm⟩
        · simp [hlength] at h
      · rintro ⟨raw, rfl, ⟨_, hlength, hnone⟩, rfl⟩
        simp [hlength, hargs.2 hnone]

/-- A wildcard with one upper bound is made if its bounds fit. -/
theorem wildcard?_iff {upper t : Ty} {lower : Option Ty} :
    wildcard? [upper] lower.toList = .ok t ↔
      (Ty.wildcard upper lower).ProperAt ∧ t = .wildcard upper lower := by
  have hcheck (bound : Ty) : checkBound bound = .ok () ↔ bound.MayBound := checkBound_iff
  rw [ProperAt, ← hcheck upper]
  cases lower with
  | none =>
      have hrun : wildcard? [upper] none.toList =
          (checkBound upper).map fun _ => .wildcard upper none := by
        simp [wildcard?]
        rfl
      rw [hrun]
      cases checkBound upper <;> simp [Except.map, eq_comm (a := t)]
  | some lower =>
      have hrun : wildcard? [upper] (some lower).toList =
          (checkBound upper).bind fun _ => (checkBound lower).bind fun _ =>
            if upper.isTop = true then .ok (.wildcard upper (some lower))
            else .error (.conflictingBounds upper.display lower.display) := by
        simp [wildcard?]
        rfl
      simp only [hrun, Option.some.injEq, forall_eq', ← hcheck lower]
      cases checkBound upper with
      | error refusal => simp [Except.bind]
      | ok _ =>
          cases checkBound lower with
          | error refusal => simp [Except.bind]
          | ok _ => cases upper.isTop <;> simp [Except.bind, eq_comm (a := t)]

/-! ## Parts of proper types -/

/-- The bounds of a proper wildcard are well formed. -/
theorem ProperAt.formedAt {t : Ty} (h : t.ProperAt) : t.FormedAt := by
  cases t with
  | named | applied | array | var => trivial
  | wildcard upper lower =>
      cases lower with
      | none => exact h.1.2
      | some lower =>
          obtain ⟨hlower, htop⟩ := h.2 lower rfl
          exact ⟨htop, hlower.2⟩

/-- Proper types are well formed. -/
theorem Proper.wellFormed {t : Ty} (h : t.Proper) : t.WellFormed :=
  h.mono fun _ => ProperAt.formedAt

/-- Names are proper. -/
theorem proper_named (head : Named) : (Ty.named head).Proper :=
  .intro trivial (List.forall_mem_nil _)

/-- Arrays of proper types are proper. -/
theorem Proper.array {component : Ty} (h : component.Proper) : (Ty.array component).Proper :=
  .intro trivial (List.forall_mem_singleton.2 h)

/-- What may stand as an argument: a proper type that is not primitive. -/
structure Argument (t : Ty) : Prop where
  proper : t.Proper
  isPrimitive : t.isPrimitive = false

/-- A name with as many arguments as it expects is proper, in a proper owner if there is one. -/
theorem proper_applied {owner : Option Ty} {raw : ClassName} {args : List Ty}
    (hlength : args.length = raw.arity) (howner : ∀ outer ∈ owner, outer.Proper)
    (hargs : ∀ arg ∈ args, arg.Argument) : (Ty.applied owner raw args).Proper := by
  have hprimitive : ∀ arg ∈ args, arg.isPrimitive = false := fun arg harg =>
    (hargs arg harg).isPrimitive
  refine .intro ⟨raw.reference, hlength, hprimitive⟩ fun part hpart => ?_
  rcases List.mem_append.1 hpart with houter | harg
  · exact howner part (Option.mem_toList.1 houter)
  · exact (hargs part harg).proper

/-- The arguments of a proper type may stand as arguments. -/
theorem Proper.arg {owner : Option Ty} {raw : ClassName} {args : List Ty}
    (h : (Ty.applied owner raw args).Proper) {arg : Ty} (harg : arg ∈ args) : arg.Argument where
  proper := h.part (List.mem_append_right _ harg)
  isPrimitive := h.self.2.2 arg harg

/-- The owner of a proper type is proper. -/
theorem Proper.owner {owner : Option Ty} {raw : ClassName} {args : List Ty}
    (h : (Ty.applied owner raw args).Proper) {outer : Ty} (houter : outer ∈ owner) :
    outer.Proper :=
  h.part (List.mem_append_left _ (Option.mem_toList.2 houter))

/-- The upper bound of a proper wildcard may stand as an argument. -/
theorem Proper.upper {upper : Ty} {lower : Option Ty} (h : (Ty.wildcard upper lower).Proper) :
    upper.Argument where
  proper := h.part List.mem_cons_self
  isPrimitive := h.self.1.1

/-- The lower bound of a proper wildcard may stand as an argument. -/
theorem Proper.lower {upper lower : Ty} (h : (Ty.wildcard upper (some lower)).Proper) :
    lower.Argument where
  proper := h.part (List.mem_cons_of_mem _ (List.mem_singleton.2 rfl))
  isPrimitive := (h.self.2 lower rfl).1.1

/-! ## Replacing variables -/

/-- The wildcard that accepts every type is proper. -/
theorem proper_unbounded : unbounded.Proper :=
  .intro ⟨⟨rfl, rfl⟩, nofun⟩ (List.forall_mem_singleton.2 (proper_named _))

/-- The wildcard for the subtypes of what may stand as an argument is proper. -/
theorem Argument.extendsOf {t : Ty} (h : t.Argument) : t.extendsOf.Proper := by
  cases hwild : t.isWildcard with
  | false =>
      rw [extendsOf_eq hwild]
      exact .intro ⟨⟨h.isPrimitive, hwild⟩, nofun⟩ (List.forall_mem_singleton.2 h.proper)
  | true =>
      obtain ⟨upper, lower, rfl⟩ := eq_wildcard hwild
      cases lower with
      | none => exact h.proper
      | some lower => exact proper_unbounded

/-- The wildcard for the supertypes of a proper type that may bound it is proper. -/
theorem proper_super {lower : Ty} (h : lower.Proper) (hbound : lower.MayBound) :
    (Ty.wildcard .top (some lower)).Proper := by
  refine .intro ⟨⟨rfl, rfl⟩, fun bound heq => ?_⟩ ?_
  · cases heq
    exact ⟨hbound, rfl⟩
  · exact List.forall_mem_cons.2 ⟨proper_named _, List.forall_mem_singleton.2 h⟩

/-- The wildcard for the supertypes of what may stand as an argument is proper. -/
theorem Argument.superOf {t : Ty} (h : t.Argument) : t.superOf.Proper := by
  cases hwild : t.isWildcard with
  | false =>
      rw [superOf_eq hwild]
      exact proper_super h.proper ⟨h.isPrimitive, hwild⟩
  | true =>
      obtain ⟨upper, lower, rfl⟩ := eq_wildcard hwild
      cases lower with
      | none => exact proper_unbounded
      | some lower => exact proper_super h.proper.lower.proper (h.proper.self.2 lower rfl).1

/-- What is not primitive does not become so if no value is primitive. -/
theorem isPrimitive_replace {map : Substitution}
    (hmap : ∀ {param value}, map.lookup param = some value → value.isPrimitive = false) {t : Ty}
    (h : t.isPrimitive = false) : (t.replace map).isPrimitive = false := by
  cases t with
  | named head => exact h
  | var param =>
      rw [replace]
      cases hlookup : map.lookup param with
      | none => rfl
      | some value => exact hmap hlookup
  | applied owner raw args =>
      rw [replace]
      split <;> rfl
  | array component =>
      rw [replace]
      split <;> rfl
  | wildcard upper lower =>
      cases lower with
      | none =>
          obtain ⟨upper', hupper⟩ := exists_extendsOf (replace map upper)
          rw [replace, hupper]
          rfl
      | some lower =>
          rw [replace]
          rcases superOf_cases (replace map lower) with ⟨lower', hlower⟩ | hnone
          · rw [hlower]
            rfl
          · rw [hnone]
            rfl

/-- Replacing variables by what may stand as an argument keeps types proper. -/
theorem Proper.replace {map : Substitution}
    (hmap : ∀ {param value}, map.lookup param = some value → value.Argument) {t : Ty}
    (h : t.Proper) : (t.replace map).Proper := by
  induction t using parts_induction with
  | step t ih =>
      -- parts that may stand as arguments stay so, since neither they nor values are primitive
      have hargument {part : Ty} (hpart : part ∈ t.parts) (hproper : part.Argument) :
          (part.replace map).Argument :=
        ⟨ih part hpart hproper.proper,
          isPrimitive_replace (fun hlookup => (hmap hlookup).isPrimitive) hproper.isPrimitive⟩
      cases t with
      | named head => exact h
      | var param =>
          rw [Ty.replace]
          cases hlookup : map.lookup param with
          | none => exact h
          | some value => exact (hmap hlookup).proper
      | applied owner raw args =>
          rw [Ty.replace, replaceOption_eq, replaceList_eq]
          split
          · exact h
          · refine proper_applied (by rw [List.length_map]; exact h.self.2.1) ?_ ?_
            · intro outer' houter'
              obtain ⟨outer, houter, rfl⟩ := Option.map_eq_some_iff.1 houter'
              exact ih outer (List.mem_append_left _ (Option.mem_toList.2 houter)) (h.owner houter)
            · intro arg' harg'
              obtain ⟨arg, harg, rfl⟩ := List.mem_map.1 harg'
              exact hargument (List.mem_append_right _ harg) (h.arg harg)
      | array component =>
          have hpart : component ∈ (Ty.array component).parts := List.mem_singleton.2 rfl
          rw [Ty.replace]
          split
          · exact h
          · exact (ih component hpart (h.part hpart)).array
      | wildcard upper lower =>
          cases lower with
          | none => exact (hargument List.mem_cons_self h.upper).extendsOf
          | some lower =>
              exact (hargument (List.mem_cons_of_mem _ (List.mem_singleton.2 rfl)) h.lower).superOf

end Ty

/-- Substituting what may stand as an argument keeps types proper. -/
theorem Ty.Proper.substitute {map : Substitution} (hmap : map.Values Argument) {t : Ty}
    (h : t.Proper) : (t.substitute map).Proper := by
  rw [Ty.substitute]
  split
  · exact h
  · exact h.replace hmap.lookup

namespace Context

open Query

/-- Declared supertypes and bounds are proper. -/
structure ProperHierarchy (context : Context) : Prop where
  declared : ∀ {name declaration}, context.env.find? name = some declaration →
    ∀ t ∈ declaration.supertypes, t.Proper
  bounds : ∀ cell, ∀ bound ∈ context.heap.boundsAt cell, bound.Proper

variable {context : Context}

/-- Supertypes inherit that a type is proper. -/
theorem ProperHierarchy.inherits (hproper : context.ProperHierarchy) :
    context.Inherits Ty.Proper where
  named := Ty.proper_named
  array h := h.array
  part h hpart := h.part hpart
  declared := hproper.declared
  bounds := fun {param} => hproper.bounds param.cell
  substitute ht hu := hu.substitute (values_argumentsOf _ (fun _ => ht.arg)
    fun howner _ harg => (ht.owner howner).arg harg)

/-- All that is memoized is proper. -/
def ProperMemo : Memo → Prop := MemoAll fun _ members => ∀ s ∈ members, s.Proper

/-- Nothing in an empty memo is improper. -/
theorem properMemo_empty : ProperMemo Trail.empty.memo := memoAll_empty _

/-- What is handed out as the closure of a proper type is proper, and so stays what is memoized. -/
theorem ProperHierarchy.supertypes_ensures (hproper : context.ProperHierarchy) {t : Ty}
    (ht : t.Proper) (fuel : Nat) :
    Ensures ProperMemo (context.supertypes fuel t) fun members => ∀ s ∈ members, s.Proper := by
  have hclosure {members : List Ty} (h : (context.closure fuel t).answer = some members) :
      ∀ s ∈ members, s.Proper := fun s hs =>
    hproper.inherits.supertype ht ((closure_closureOf h).reached s hs)
  exact (supertypes_memoAll hclosure).mono fun _ ⟨_, _, hmembers⟩ => hmembers

/-- Proper types stay proper under substitutions by proper types that are not primitive. Where
declared supertypes and bounds are proper, so are the direct supertypes and the supertypes of every
proper type, whatever its owner, and however many arguments stand against the declared
parameters. -/
theorem proper_substitute_and_supertypes :
    (∀ {t : Ty} {map : Substitution}, t.Proper → map.Values Ty.Argument →
      (t.substitute map).Proper) ∧
    ∀ {context : Context}, context.ProperHierarchy → ∀ {t : Ty}, t.Proper → ∀ fuel,
      (∀ trail types after, context.directSupertypes fuel t trail = some (types, after) →
        ∀ s ∈ types, s.Proper) ∧
      Ensures ProperMemo (context.supertypes fuel t) fun members => ∀ s ∈ members, s.Proper := by
  refine ⟨fun ht hmap => ht.substitute hmap, fun hproper t ht fuel => ⟨?_, ?_⟩⟩
  · intro trail types after hrun s hs
    exact hproper.inherits.direct ht
      ⟨types, ⟨fuel, ((direct_oblivious fuel t).answer_eq hrun).1⟩, hs⟩
  · exact hproper.supertypes_ensures ht fuel

/-- An interface with two type parameters. -/
def source : ClassName := ⟨⟨"Source", .interfaceType, 2⟩, rfl⟩

/-- The supertype of a view: its own parameter under a wildcard, beside that of the store. -/
def viewSource : Ty :=
  .applied none source [.wildcard (.var (element "View" 0)) none, .var (element "Store" 1)]

/-- Stores, and views that are members of stores. -/
def views : Context where
  env := {
    find? := fun name =>
      if name = "View" then
        some ⟨⟨"View", .classType, 1⟩, [element "View" 0], none, [viewSource]⟩
      else if name = "Store" then
        some ⟨⟨"Store", .classType, 1⟩, [element "Store" 1], none, []⟩
      else none
    cloneable := .cloneable
    serializable := .serializable }
  heap := Heap.empty
  memoize := true

/-- A view with two arguments, one more than declared and the first a wildcard, in a store. -/
def storeView : Ty :=
  .applied (some (.applied none ⟨⟨"Store", .classType, 1⟩, rfl⟩ [.array .top]))
    ⟨⟨"View", .classType, 2⟩, rfl⟩ [.wildcard .top (some (.array .top)), .top]

set_option maxRecDepth 2000 in
/-- In the supertype of the view a lower bound under an upper bound is flattened to no bound, and
the argument of the store is put in; the argument that no parameter stands for is dropped. -/
theorem storeView_proper :
    views.ProperHierarchy ∧ storeView.Proper ∧
      (viewSource.Proper ∧
        (viewSource.substitute [(element "View" 0, .wildcard .top (some .top))]).Proper) ∧
      (∃ after, views.directSupertypes 1 storeView .empty =
          some ([.applied none source [.unbounded, .array .top]], after)) ∧
      (∃ after, views.supertypes 3 storeView .empty =
          some ([storeView, .applied none source [.unbounded, .array .top]], after)) ∧
      (Ty.applied none source [.unbounded, .array .top]).Proper := by
  have hvar (param : TypeVar) : (Ty.var param).Argument :=
    ⟨.intro trivial (List.forall_mem_nil _), rfl⟩
  have htop : Ty.top.Argument := ⟨Ty.proper_named _, rfl⟩
  have harray : (Ty.array .top).Argument := ⟨htop.proper.array, rfl⟩
  have hsource : viewSource.Proper := by
    have hwild : (Ty.wildcard (.var (element "View" 0)) none).Argument :=
      ⟨(hvar (element "View" 0)).extendsOf, rfl⟩
    exact Ty.proper_applied rfl nofun
      (List.forall_mem_cons.2 ⟨hwild, List.forall_mem_singleton.2 (hvar _)⟩)
  have hviews : views.ProperHierarchy := by
    constructor
    case declared =>
        intro name declaration hfound t ht
        simp only [views] at hfound
        split at hfound
        · cases hfound
          cases List.mem_singleton.1 ht
          exact hsource
        · split at hfound
          · cases hfound
            cases ht
          · cases hfound
    case bounds =>
        intro cell bound hbound
        cases List.mem_singleton.1 hbound
        exact htop.proper
  have hview : storeView.Proper := by
    have hsuper : (Ty.wildcard .top (some (.array .top))).Argument := ⟨harray.superOf, rfl⟩
    refine Ty.proper_applied rfl (fun outer houter => ?_)
      (List.forall_mem_cons.2 ⟨hsuper, List.forall_mem_singleton.2 htop⟩)
    cases houter
    exact Ty.proper_applied rfl nofun (List.forall_mem_singleton.2 harray)
  obtain ⟨hsubstitute, hsupertypes⟩ := proper_substitute_and_supertypes
  have hrun : views.supertypes 3 storeView .empty =
      some ([storeView, .applied none source [.unbounded, .array .top]], _) := rfl
  obtain ⟨_, hmembers⟩ := (hsupertypes hviews hview 3).2 _ properMemo_empty _ _ hrun
  refine ⟨hviews, hview, ⟨hsource, hsubstitute hsource ?_⟩, ⟨_, rfl⟩, ⟨_, hrun⟩, ?_⟩
  · exact List.forall_mem_singleton.2 ⟨htop.superOf, rfl⟩
  · exact hmembers _ (List.mem_cons_of_mem _ List.mem_cons_self)

end Context

end Nominal
