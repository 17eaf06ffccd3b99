import Nominal.Proofs.Generalization
import Nominal.Proofs.Instantiation

/-!
# Raw uses

A generic name may be used raw, without arguments. What is found above a raw use and above an
applied type then differs step by step: erased declared supertypes on one side, declared supertypes
with arguments in them on the other. The names at their heads are the same
(`contains_erased_iff`). The search from a raw use ends if that from an applied type does, because
each type that it finds follows one that the other search finds: as a name alone, or as a more
general type (`follows_direct`), and there are finitely many such types (`FinitelyAbove.raw`). The
main statement is `erasedSupertypes_raw`.
-/

namespace Nominal

/-- Declared supertypes are well formed and are names or applied types, none with a primitive at its
head; the universal supertype has none. -/
structure Env.Hierarchy (env : Env) : Prop where
  regular : env.Regular
  rooted : env.Rooted
  formed : ∀ {name declaration}, env.find? name = some declaration →
    ∀ s ∈ declaration.supertypes, s.WellFormed

/-- A name that can be reached from the given one along declared names. -/
def Env.NamedAbove (env : Env) (below : String) : Ty → Prop
  | .named head => Relation.ReflTransGen env.Above below head.name
  | _ => False

/-- The variables in the declared supertypes of a name are known. -/
def Env.Knows (env : Env) (known : List TypeVar) (name : String) : Prop :=
  ∀ {declaration}, env.find? name = some declaration →
    ∀ s ∈ declaration.supertypes, s.Vars fun param => known.contains param = true

/-- The declared supertypes of the name at the head of a type. -/
def Env.declaredAbove (env : Env) (t : Ty) : List Ty :=
  match t.headName?.bind env.find? with
  | some declaration => declaration.supertypes
  | none => []

/-- One type follows another one with the same name at its head: it is that name alone, or more
general. -/
structure Ty.Follows (known : List TypeVar) (name : String) (t t' : Ty) : Prop where
  left : t.Headed name
  right : t'.Headed name
  covers : (∃ head, t = .named head) ∨ t.Covers known t'

namespace Context

variable {context : Context} {known : List TypeVar} {name : String}

/-! ## One step -/

/-- The arguments of a type count before those of its owner. -/
theorem lookup_argumentsOf_of_own (owner : Option Ty) {declaration : Declaration} {args : List Ty}
    {key : TypeVar} {value : Ty}
    (h : (Substitution.ofArgs declaration args).lookup key = some value) :
    (context.argumentsOf declaration owner args).lookup key = some value := by
  unfold argumentsOf
  split
  · split
    · rw [Substitution.lookup_insertNew_all, h, Option.some_or]
    · exact h
  · exact h

variable (context) in
/-- A more general applied type gives values to fewer parameters, and more general ones. -/
theorem covers_argumentsOf (declaration : Declaration) {owner owner' : Option Ty}
    {args args' : List Ty} (howner : Option.Rel (Ty.Covers known) owner owner')
    (hargs : List.Forall₂ (Ty.Covers known) args args') {key : TypeVar} {value : Ty}
    (h : (context.argumentsOf declaration owner args).lookup key = some value) :
    ∃ value', (context.argumentsOf declaration owner' args').lookup key = some value' ∧
      value.Covers known value' := by
  have hrelated := Substitution.related_ofArgs declaration hargs
  have hown (h : (Substitution.ofArgs declaration args).lookup key = some value) :
      ∃ value', (context.argumentsOf declaration owner' args').lookup key = some value' ∧
        value.Covers known value' := by
    obtain ⟨value', hvalue', hcovers⟩ := hrelated.exists_lookup h
    exact ⟨value', lookup_argumentsOf_of_own owner' hvalue', hcovers⟩
  cases howner with
  | none => exact hown h
  | some houter =>
      cases houter with
      | @applied _ _ ownerRaw ownerRaw' _ _ hraw _ houter =>
          rw [argumentsOf, Named.beq_iff.1 hraw] at h
          cases hfound : context.env.find? ownerRaw'.name with
          | none =>
              rw [hfound] at h
              exact hown h
          | some enclosing =>
              rw [hfound] at h
              rw [argumentsOf, hfound]
              exact ((Substitution.related_ofArgs enclosing houter).insertNew_all
                hrelated).exists_lookup h
      -- an owner that is no applied type gives no values
      | var | named | array | upper | lower | unbounded => exact hown h

/-- An applied type above a type covers a type above each that the type follows. -/
theorem exists_direct_covered (henv : context.env.Hierarchy) (hknows : context.env.Knows known name)
    {t t' : Ty} (h : Ty.Follows known name t t') {owner : Option Ty} {raw : ClassName}
    {args : List Ty} (hs : context.Direct t (.applied owner raw args)) :
    ∃ s', context.Direct t' s' ∧ (Ty.applied owner raw args).Covers known s' := by
  cases t with
  | named head =>
      cases Option.some.inj h.left.1
      rcases direct_named henv.regular hs with ⟨declaration, hfound, _, hu⟩ | ⟨_, hnamed, _⟩
      · have hvars := hknows hfound _ hu
        have hformed := henv.formed hfound _ hu
        cases t' with
        | named head' =>
            have hname := Option.some.inj h.right.1
            obtain ⟨types, htypes, hmem⟩ := hs
            obtain ⟨types', htypes'⟩ := exists_directs henv.regular (.named head')
            cases directs_named_eq hname.symm h.left.2 h.right.2 htypes htypes'
            exact ⟨_, ⟨types, htypes', hmem⟩, .refl hformed hvars⟩
        | applied owner' raw' args' =>
            have hname := Option.some.inj h.right.1
            obtain ⟨s', hs', heq⟩ := direct_applied (hname ▸ hfound) hu
            exact ⟨s', hs', (Ty.Covers.of_substitute _ hformed hvars).congr_right heq⟩
        | array | var | wildcard => cases h.right.1
      · cases hnamed
  | applied outer raw₀ args₀ =>
      cases Option.some.inj h.left.1
      rcases h.covers with ⟨_, hnamed⟩ | hcovers
      · cases hnamed
      · cases hcovers with
        | applied hraw howner hargs =>
            obtain ⟨declaration, hfound, ⟨u, hu, heq⟩ | ⟨_, _, htop⟩⟩ := direct_applied_cases hs
            · obtain ⟨s', hs', hequal⟩ := direct_applied (Named.beq_iff.1 hraw ▸ hfound) hu
              have hcovers := Ty.Covers.substitute
                (context.covers_argumentsOf declaration howner hargs)
                (henv.formed hfound u hu) (hknows hfound u hu)
              rw [heq]
              exact ⟨s', hs', hcovers.congr_right hequal⟩
            · cases htop
  | array | var | wildcard => cases h.left.1

/-- What lies directly above a type follows what lies directly above each that the type follows. -/
theorem follows_direct (henv : context.env.Hierarchy) (hknows : context.env.Knows known name)
    {t t' s : Ty} (h : Ty.Follows known name t t') (hs : context.Direct t s) :
    ∃ above s', context.env.Above name above ∧ context.Direct t' s' ∧
      Ty.Follows known above s s' := by
  have hdirect := hs
  obtain ⟨types, htypes, hmem⟩ := hs
  obtain ⟨above, habove, hheaded⟩ :=
    (lists_of_directs henv.regular henv.rooted h.left htypes).sound s hmem
  cases s with
  | named head =>
      obtain ⟨types', htypes'⟩ := exists_directs henv.regular t'
      obtain ⟨s', hs', hheaded'⟩ :=
        (lists_of_directs henv.regular henv.rooted h.right htypes').complete above habove
      exact ⟨above, s', habove, ⟨types', htypes', hs'⟩, hheaded, hheaded', .inl ⟨head, rfl⟩⟩
  | applied owner raw args =>
      obtain ⟨s', hs', hcovers⟩ := exists_direct_covered henv hknows h hdirect
      refine ⟨above, s', habove, hs', hheaded, ?_, .inr hcovers⟩
      cases hcovers with
      | applied hraw _ _ =>
          refine ⟨?_, rfl⟩
          rw [← hheaded.1]
          exact congrArg some (Named.beq_iff.1 hraw).symm
  | array | var | wildcard => cases hheaded.1

/-! ## Chains of steps -/

/-- What lies above a type follows what lies above each that the type follows. -/
theorem follows_supertype (henv : context.env.Hierarchy)
    (hknows : ∀ above, Relation.ReflTransGen context.env.Above name above →
      context.env.Knows known above)
    {t t' s : Ty} (h : Ty.Follows known name t t') (hs : context.Supertype t s) :
    ∃ above s', Relation.ReflTransGen context.env.Above name above ∧ context.Supertype t' s' ∧
      Ty.Follows known above s s' := by
  induction hs with
  | refl => exact ⟨name, t', .refl, .refl, h⟩
  | tail _ hdirect ih =>
      obtain ⟨middle, u', hmiddle, hu', hfollows⟩ := ih
      obtain ⟨above, s', habove, hs', hfollows'⟩ :=
        follows_direct henv (hknows middle hmiddle) hfollows hdirect
      exact ⟨above, s', hmiddle.tail habove, hu'.tail hs', hfollows'⟩

/-- Finitely many variables stand in what is declared above a type with finitely many supertypes. -/
theorem exists_knows (henv : context.env.Hierarchy) {t : Ty} (ht : t.Headed name)
    (hfinite : context.FinitelyAbove t) :
    ∃ known, ∀ above, Relation.ReflTransGen context.env.Above name above →
      context.env.Knows known above := by
  obtain ⟨pool, hpool⟩ := hfinite
  obtain ⟨known, hknown⟩ := Ty.exists_known_all
    fun s (_ : s ∈ pool.flatMap context.env.declaredAbove) => Ty.exists_known s
  refine ⟨known, fun above habove declaration hfound s hs => hknown s ?_⟩
  obtain ⟨u, hu, hheaded⟩ := exists_supertype henv.regular henv.rooted ht habove
  obtain ⟨p, hp, heq⟩ := hpool u hu
  refine List.mem_flatMap.2 ⟨p, hp, ?_⟩
  rw [Env.declaredAbove, ← Ty.headName_congr heq, hheaded.1, Option.bind_some, hfound]
  exact hs

/-- A name has finitely many supertypes if some type with it at its head does. -/
theorem FinitelyAbove.raw {t : Ty} (hfinite : context.FinitelyAbove t)
    (henv : context.env.Hierarchy) {raw : ClassName} (ht : t.Headed raw.name) :
    context.FinitelyAbove (.named raw) := by
  obtain ⟨known, hknows⟩ := exists_knows henv ht hfinite
  obtain ⟨pool, hpool⟩ := hfinite
  have hstart : Ty.Follows known raw.name (.named raw) t :=
    ⟨⟨rfl, raw.reference⟩, ht, .inl ⟨raw, rfl⟩⟩
  have hmany := Ty.FinitelyMany.exists_mem fun p (_ : p ∈ pool) =>
    (Ty.finitelyMany_named p).or (Ty.finitelyMany_covers known p)
  refine hmany.mono fun s hs => ?_
  obtain ⟨above, s', _, hs', hfollows⟩ := follows_supertype henv hknows hstart hs
  obtain ⟨p, hp, heq⟩ := hpool s' hs'
  refine ⟨p, hp, ?_⟩
  rcases hfollows.covers with ⟨head, rfl⟩ | hcovers
  · refine .inl ⟨head, rfl, ?_⟩
    rw [← Ty.headName_congr heq, hfollows.right.1, ← hfollows.left.1]
    rfl
  · exact .inr (hcovers.congr_right heq)

/-- The search from a name ends if that from some type with it at its head does. -/
theorem FiniteClosure.raw {t : Ty} (hfinite : context.FiniteClosure t)
    (henv : context.env.Hierarchy) {raw : ClassName} (ht : t.Headed raw.name) :
    context.FiniteClosure (.named raw) := by
  have habove := hfinite.finitelyAbove (uniform_headed henv.regular) ⟨_, ht⟩
  exact (habove.raw henv ht).finiteClosure henv.regular

/-! ## Erased supertypes -/

open Query

variable (context) in
/-- The erasures of the supertypes of a type. -/
def erasedSupertypes (fuel : Nat) (t : Ty) : Query (List Ty) := do
  (← context.supertypes fuel t).mapM (erase context.heap fuel)

/-- The erasures of a closure are the names that can be reached from the head of the type. -/
theorem contains_erased_iff (henv : context.env.Hierarchy) {t : Ty} (ht : t.Headed name)
    {members erased : List Ty} (hclosure : context.ClosureOf t members)
    (herased : List.Forall₂ (Erases context.heap []) members erased) (s : Ty) :
    erased.contains s = true ↔ context.env.NamedAbove name s := by
  rw [List.contains_iff_exists_mem_beq]
  constructor
  · rintro ⟨e, he, heq⟩
    obtain ⟨member, hmember, herases⟩ := herased.flip.exists_mem he
    obtain ⟨above, habove, hheaded⟩ :=
      supertype_headed henv.regular henv.rooted ht (hclosure.reached member hmember)
    obtain ⟨head, hhead, rfl⟩ := hheaded.exists_head
    cases (Ty.erases_head hhead).unique herases
    obtain ⟨head', rfl, hname⟩ := Ty.named_beq (BEq.symm heq)
    show Relation.ReflTransGen context.env.Above name head'.name
    rw [← Named.beq_iff.1 hname]
    exact habove
  · intro hs
    cases s with
    | named head =>
        obtain ⟨u, hu, hheaded⟩ := exists_supertype henv.regular henv.rooted ht hs
        obtain ⟨member, hmember, heq⟩ :=
          (uniform_headed henv.regular).exists_mem ⟨_, ht⟩ ⟨_, ht⟩ BEq.rfl hclosure hu
        obtain ⟨e, he, herases⟩ := herased.exists_mem hmember
        -- the member that stands for the supertype has a head of the same name
        obtain ⟨found, hfound, hname⟩ := hheaded.exists_head
        obtain ⟨found', hfound', hequal⟩ := Ty.exists_head_congr heq hfound
        cases (Ty.erases_head hfound').unique herases
        exact ⟨_, he, Named.beq_iff.2 (hname.symm.trans (Named.beq_iff.1 hequal))⟩
    | applied | array | var | wildcard => exact hs.elim

/-- The erasures of the supertypes of a type are found if its closure is finite, and are the names
that can be reached from its head. -/
theorem erasedSupertypes_halts (henv : context.env.Hierarchy) {t : Ty} (ht : t.Headed name)
    (hfinite : context.FiniteClosure t) :
    Halts (context.MemoRespects fun t => t.Headed name)
      (fun fuel => context.erasedSupertypes fuel t)
      fun erased => ∀ s, erased.contains s = true ↔ context.env.NamedAbove name s := by
  refine (supertypes_halts_sort ht hfinite).bind fun members hmembers => ?_
  obtain ⟨t', ht', _, enough, hanswer⟩ := hmembers
  have hclosure := closure_closureOf hanswer
  have hall : Halts (context.MemoRespects fun t => t.Headed name)
      (fun fuel => members.mapM (erase context.heap fuel))
      (List.Forall₂ (Erases context.heap []) members) := by
    refine .mapM fun member hmember => ?_
    obtain ⟨_, _, hheaded⟩ :=
      supertype_headed henv.regular henv.rooted ht' (hclosure.reached member hmember)
    obtain ⟨head, hhead, _⟩ := hheaded.exists_head
    have herases : Erases context.heap [] member (.named head) := Ty.erases_head hhead
    exact (erase_halts herases).mono fun found hfound => hfound ▸ herases
  exact hall.mono fun erased herased => contains_erased_iff henv ht' hclosure herased

/-- A raw use has the same ancestry as an applied type with a finite closure: the erasures of their
supertypes are found, are the same, and are the names that can be reached from the name. -/
theorem erasedSupertypes_raw (henv : context.env.Hierarchy) {owner : Option Ty} {raw : ClassName}
    {args : List Ty} (hfinite : context.FiniteClosure (.applied owner raw args)) :
    Halts (context.MemoRespects fun t => t.Headed raw.name)
      (fun fuel => do
        let applied ← context.erasedSupertypes fuel (.applied owner raw args)
        let named ← context.erasedSupertypes fuel (.named raw)
        return (applied, named))
      (fun found => ∀ s, found.1.contains s = found.2.contains s) ∧
    ∀ t, t = .applied owner raw args ∨ t = .named raw →
      Halts (context.MemoRespects fun t => t.Headed raw.name)
        (fun fuel => context.erasedSupertypes fuel t)
        fun erased => ∀ s, erased.contains s = true ↔ context.env.NamedAbove raw.name s := by
  have happlied : (Ty.applied owner raw args).Headed raw.name := ⟨rfl, rfl⟩
  have hnamed : (Ty.named raw).Headed raw.name := ⟨rfl, raw.reference⟩
  have hhalts := erasedSupertypes_halts henv happlied hfinite
  have hhalts' := erasedSupertypes_halts henv hnamed (hfinite.raw henv happlied)
  constructor
  · refine hhalts.bind fun first hfirst => hhalts'.bind fun second hsecond => .pure fun s => ?_
    rw [Bool.eq_iff_iff]
    exact (hfirst s).trans (hsecond s).symm
  · rintro t (rfl | rfl)
    · exact hhalts
    · exact hhalts'

section Hives

/-- The type parameter of hives. -/
def bee : TypeVar := ⟨"Bee", "Hive", .owning 0⟩

/-- The type parameter of stacks. -/
def layer : TypeVar := ⟨"Layer", "Stack", .owning 1⟩

/-- The type parameter of trays. -/
def piece : TypeVar := ⟨"Piece", "Tray", .owning 2⟩

/-- Stacks, which are generic. -/
def stack : ClassName := ⟨⟨"Stack", .interfaceType, 1⟩, rfl⟩

/-- Trays, which are generic. -/
def tray : ClassName := ⟨⟨"Tray", .interfaceType, 1⟩, rfl⟩

/-- Combs, which are no generic types but members of hives. -/
def comb : ClassName := ⟨⟨"Hive$Comb", .classType, 0⟩, rfl⟩

/-- The combs of a hive are stacks of its bees, stacks are raw trays, and trays are lists. -/
def hives : Context where
  env := {
    find? := fun name =>
      if name = "Hive" then some ⟨⟨"Hive", .classType, 1⟩, [bee], none, []⟩
      else if name = "Hive$Comb" then some ⟨comb, [], none, [.applied none stack [.var bee]]⟩
      else if name = "Stack" then some ⟨stack, [layer], none, [.named tray]⟩
      else if name = "Tray" then some ⟨tray, [piece], none, [.applied none list [.var piece]]⟩
      else if name = "List" then some ⟨list, [element "List" 3], none, []⟩
      else none
    cloneable := .cloneable
    serializable := .serializable }
  heap := ⟨#[.unbound, .unbound, .unbound, .unbound], []⟩
  memoize := true

/-- What is declared of combs, stacks and trays. -/
theorem hives_cases {name : String} {declaration : Declaration}
    (hfound : hives.env.find? name = some declaration) {s : Ty} (hs : s ∈ declaration.supertypes) :
    s = .applied none stack [.var bee] ∨ s = .named tray ∨ s = .applied none list [.var piece] := by
  change (if name = "Hive" then _ else if name = "Hive$Comb" then _ else if name = "Stack" then _
    else if name = "Tray" then _ else if name = "List" then _ else _) = _ at hfound
  split at hfound
  · cases hfound
    cases hs
  split at hfound
  · cases hfound
    exact .inl (List.mem_singleton.1 hs)
  split at hfound
  · cases hfound
    exact .inr (.inl (List.mem_singleton.1 hs))
  split at hfound
  · cases hfound
    exact .inr (.inr (List.mem_singleton.1 hs))
  split at hfound
  · cases hfound
    cases hs
  · cases hfound

/-- The declarations of combs, stacks and trays make a hierarchy. -/
theorem hives_hierarchy : hives.env.Hierarchy where
  regular hfound s hs := by
    rcases hives_cases hfound hs with rfl | rfl | rfl
    · exact ⟨stack, rfl, rfl⟩
    · exact ⟨tray, rfl, rfl⟩
    · exact ⟨list, rfl, rfl⟩
  rooted hfound := by cases hfound
  formed hfound s hs := by
    have hvar (param : TypeVar) := List.forall_mem_singleton.2 (Ty.wellFormed_var param)
    rcases hives_cases hfound hs with rfl | rfl | rfl
    · exact .intro trivial (hvar bee)
    · exact .intro trivial (List.forall_mem_nil _)
    · exact .intro trivial (hvar piece)

/-- The combs of a hive of drones. -/
def droneComb : Ty :=
  .applied (some (.applied none ⟨⟨"Hive", .classType, 1⟩, rfl⟩ [.named ⟨"Drone", .classType, 0⟩]))
    comb []

/-- Combs have the same ancestry with their hive and without it, although their supertypes
differ: without the hive they are stacks of unknown bees. -/
theorem comb_ancestry :
    Halts (hives.MemoRespects fun t => t.Headed "Hive$Comb")
      (fun fuel => do
        let applied ← hives.erasedSupertypes fuel droneComb
        let named ← hives.erasedSupertypes fuel (.named comb)
        return (applied, named))
      (fun found => ∀ s, found.1.contains s = found.2.contains s) ∧
    (hives.supertypes 6 droneComb).answer = some [droneComb,
      .applied none stack [.named ⟨"Drone", .classType, 0⟩], .named tray, .named list, .top] ∧
    (hives.supertypes 6 (.named comb)).answer = some [.named comb,
      .applied none stack [.var bee], .named tray, .named list, .top] ∧
    (hives.erasedSupertypes 6 droneComb).answer =
      some [.named comb, .named stack, .named tray, .named list, .top] := by
  have hfinite : hives.FiniteClosure droneComb := ⟨6, _, rfl⟩
  exact ⟨(erasedSupertypes_raw hives_hierarchy hfinite).1, rfl, rfl, rfl⟩

end Hives

end Context

end Nominal
