import Nominal.Canonical
import Nominal.Proofs.BreadthFirst
import Nominal.Proofs.Substitution

/-!
# Supertypes of instances

Where declared supertypes mention no variables but the parameters of their declaration, the
supertypes of an instance of a type are the instances of its supertypes. One step is
`directs_instances`; chains of any length follow by induction. Since the instances of finitely many
types are finitely many, the search from the instance ends (`finiteClosure_of_cover`). The main
statement is `supertypes_substitute`.
-/

namespace Nominal

namespace Ty

/-- A name that is no primitive, or an applied type without an owner. -/
def Freestanding : Ty → Prop
  | .named head => head.isPrimitive = false
  | .applied owner _ _ => owner = none
  | _ => False

/-- Freestanding types have heads that are no primitives. -/
theorem Freestanding.headed {t : Ty} (h : t.Freestanding) : ∃ name, t.Headed name := by
  cases t with
  | named head => exact ⟨head.name, rfl, h⟩
  | applied owner raw args => exact ⟨raw.name, rfl, rfl⟩
  | array | var | wildcard => exact h.elim

/-- A name, or an applied type without an owner. -/
def Unowned : Ty → Prop
  | .named _ => True
  | .applied owner _ _ => owner = none
  | _ => False

/-- Of the types without owners only primitives are not freestanding. -/
theorem Unowned.freestanding_or_primitive {t : Ty} (h : t.Unowned) :
    t.Freestanding ∨ ∃ head, t = .named head ∧ head.isPrimitive = true := by
  cases t with
  | named head =>
      cases hprimitive : head.isPrimitive with
      | true => exact .inr ⟨head, rfl, hprimitive⟩
      | false => exact .inl hprimitive
  | applied owner raw args => exact .inl h
  | array | var | wildcard => exact h.elim

/-- Names are not changed by a substitution. -/
theorem substitute_named (map : Substitution) (head : Named) :
    (Ty.named head).substitute map = .named head := by
  rw [substitute]
  split <;> rfl

/-- Substituting in an applied type without an owner is substituting in its arguments, up to
equality. -/
theorem exists_substitute_applied (map : Substitution) (raw : ClassName) (args : List Ty) :
    ∃ args', (Ty.applied none raw args).substitute map = .applied none raw args' ∧
      Matches (args.map fun arg => arg.substitute map) args' := by
  cases hempty : map.isEmpty with
  | true =>
      simp only [substitute_of_isEmpty hempty, List.map_id']
      exact ⟨args, rfl, matches_refl args⟩
  | false =>
      simp only [substitute_of_not_isEmpty hempty, replace, replaceOption, replaceList_eq]
      split
      · rename_i hsame
        exact ⟨args, rfl, list_beq_iff.1 (Bool.and_eq_true_iff.1 hsame).2⟩
      · exact ⟨_, rfl, matches_refl _⟩

/-- A substitution keeps types freestanding. -/
theorem Freestanding.substitute {t : Ty} (h : t.Freestanding) (map : Substitution) :
    (t.substitute map).Freestanding := by
  cases t with
  | named head =>
      rw [substitute_named]
      exact h
  | applied owner raw args =>
      cases (show owner = none from h)
      obtain ⟨args', heq, _⟩ := exists_substitute_applied map raw args
      rw [heq]
      rfl
  | array | var | wildcard => exact h.elim

/-- A variable that has a value becomes it. -/
theorem substitute_var {map : Substitution} {param : TypeVar} {value : Ty}
    (h : map.lookup param = some value) : (Ty.var param).substitute map = value := by
  cases map with
  | nil => cases h
  | cons entry rest =>
      rw [substitute_of_not_isEmpty rfl, replace, h]
      rfl

/-- The canonical form of a declaration becomes its instance when arguments are substituted for the
parameters. -/
theorem substitute_canonical {declaration : Declaration} {args : List Ty} (raw : ClassName)
    (hlength : args.length = declaration.params.length)
    (hdistinct : declaration.params.Pairwise fun first second => (first == second) = false) :
    ((Ty.applied none raw (declaration.params.map .var)).substitute (.ofArgs declaration args) ==
      .applied none raw args) = true := by
  obtain ⟨args', heq, hargs⟩ := exists_substitute_applied (.ofArgs declaration args) raw
    (declaration.params.map .var)
  have hvalues : Matches ((declaration.params.map Ty.var).map fun arg =>
      arg.substitute (.ofArgs declaration args)) args := by
    rw [Matches, List.forall₂_map_left_iff, List.forall₂_map_left_iff]
    refine (Substitution.lookup_ofArgs hlength hdistinct).imp fun param arg hlookup => ?_
    rw [substitute_var hlookup]
    exact BEq.rfl
  rw [heq]
  exact applied_congr rfl BEq.rfl
    (hargs.join hvalues fun _ _ _ _ _ _ hleft hright => BEq.trans (BEq.symm hleft) hright)

/-- A well formed type without variables is not changed by a substitution. -/
theorem substitute_closed (map : Substitution) {t : Ty} (hformed : t.WellFormed)
    (hclosed : t.Vars fun _ => False) : (t.substitute map == t) = true := by
  rw [substitute]
  split
  · exact BEq.rfl
  · exact replace_closed map hformed hclosed

/-! ## Images of lists -/

/-- The types in one list are those in another one after a substitution, up to equality. -/
structure Instances (map : Substitution) (types types' : List Ty) : Prop where
  complete : ∀ s ∈ types, ∃ s' ∈ types', (s.substitute map == s') = true
  sound : ∀ s' ∈ types', ∃ s ∈ types, (s.substitute map == s') = true

/-- Repetitions do not matter. -/
theorem instances_distinct {map : Substitution} {types types' : List Ty}
    (h : List.Forall₂ (fun s s' => (s.substitute map == s') = true) types types') :
    Instances map (distinct types) (distinct types') where
  complete s hs := by
    obtain ⟨other, hother, heq⟩ := h.exists_mem (mem_of_mem_distinct hs)
    obtain ⟨s', hs', heq'⟩ := exists_mem_distinct hother
    exact ⟨s', hs', BEq.trans heq heq'⟩
  sound s' hs' := by
    obtain ⟨other, hother, heq⟩ := h.flip.exists_mem (mem_of_mem_distinct hs')
    obtain ⟨s, hs, heq'⟩ := exists_mem_distinct hother
    exact ⟨s, hs, BEq.trans (substitute_congr_type map (BEq.symm heq')) heq⟩

/-- The universal supertype stands in on both sides. -/
theorem instances_orTop {map : Substitution} {types types' : List Ty}
    (h : Instances map types types') : Instances map (orTop types) (orTop types') := by
  cases types with
  | nil =>
      cases types' with
      | nil =>
          have htop : (Ty.top.substitute map == .top) = true := by
            rw [Ty.top, substitute_named]
            exact BEq.rfl
          exact ⟨List.forall_mem_singleton.2 ⟨_, List.mem_singleton.2 rfl, htop⟩,
            List.forall_mem_singleton.2 ⟨_, List.mem_singleton.2 rfl, htop⟩⟩
      | cons first rest =>
          obtain ⟨_, hs, _⟩ := h.sound first List.mem_cons_self
          cases hs
  | cons first rest =>
      cases types' with
      | nil =>
          obtain ⟨_, hs, _⟩ := h.complete first List.mem_cons_self
          cases hs
      | cons first' rest' => exact h

end Ty

/-- Declared supertypes are names other than primitives, or applied types without owners; they are
well formed and mention the parameters of their declaration only, which are distinct. -/
structure Env.Parametric (env : Env) : Prop where
  regular : env.Regular
  freestanding : ∀ {name declaration}, env.find? name = some declaration →
    ∀ s ∈ declaration.supertypes, s.Freestanding
  formed : ∀ {name declaration}, env.find? name = some declaration →
    ∀ s ∈ declaration.supertypes, s.WellFormed
  own : ∀ {name declaration}, env.find? name = some declaration →
    ∀ s ∈ declaration.supertypes, s.Vars fun param => declaration.params.contains param = true
  distinct : ∀ {name declaration}, env.find? name = some declaration →
    declaration.params.Pairwise fun first second => (first == second) = false

/-- An applied type has as many arguments as its declaration has parameters. -/
def Env.Saturated (env : Env) : Ty → Prop
  | .applied _ raw args => ∀ {declaration}, env.find? raw.name = some declaration →
      args.length = declaration.params.length
  | _ => True

namespace Context

variable {context : Context} {map : Substitution}

/-! ## One step -/

/-- A direct supertype of a name is declared without parameters around it, or a name. -/
theorem direct_named (hregular : context.env.Regular) {head : Named} {s : Ty}
    (h : context.Direct (.named head) s) :
    (∃ declaration, context.env.find? head.name = some declaration ∧
      declaration.params.isEmpty = true ∧ s ∈ declaration.supertypes) ∨
      ∃ above, s = .named above ∧ above.isPrimitive = false := by
  obtain ⟨types, htypes, hs⟩ := h
  cases hleaf : head.isTop || head.isPrimitive with
  | true =>
      cases (directs_leaf hleaf).1 htypes
      cases hs
  | false =>
      cases hfound : context.env.find? head.name with
      | none =>
          cases (directs_missing hfound).1 htypes
          cases hs
      | some declaration =>
          cases hparams : declaration.params.isEmpty with
          | true =>
              cases (directs_plain hleaf hfound hparams).1 htypes
              rcases mem_of_mem_orTop_distinct hs with hs | ⟨_, rfl⟩
              · exact .inl ⟨declaration, rfl, hparams, hs⟩
              · exact .inr ⟨.top, rfl, rfl⟩
          | false =>
              obtain ⟨erased, herased, rfl⟩ := (directs_raw hleaf hfound hparams).1 htypes
              rcases mem_of_mem_orTop_distinct hs with hs | ⟨_, rfl⟩
              · obtain ⟨u, hu, huerased⟩ := herased.flip.exists_mem hs
                obtain ⟨above, habove, hprimitive⟩ := hregular hfound u hu
                exact .inr ⟨above, ((Ty.erases_head habove).unique huerased).symm, hprimitive⟩
              · exact .inr ⟨.top, rfl, rfl⟩

/-- Names that are no primitives and have one spelling have the same direct supertypes. -/
theorem directs_named_eq {first second : Named} (hname : first.name = second.name)
    (hfirst : first.isPrimitive = false) (hsecond : second.isPrimitive = false)
    {types types' : List Ty} (h : context.Directs (.named first) types)
    (h' : context.Directs (.named second) types') : types = types' := by
  have htop : first.isTop = second.isTop := by rw [Named.isTop, Named.isTop, hname]
  cases hleaf : second.isTop with
  | true =>
      rw [directs_leaf (by rw [htop, hleaf]; rfl)] at h
      rw [directs_leaf (by rw [hleaf]; rfl)] at h'
      exact h.trans h'.symm
  | false =>
      refine Directs.unique h ?_
      obtain ⟨fuel, hanswer⟩ := h'
      refine ⟨fuel, ?_⟩
      rw [named_answer (by rw [hleaf, hsecond]; rfl)] at hanswer
      rw [named_answer (by rw [htop, hleaf, hfirst]; rfl), hname]
      exact hanswer

/-- Direct supertypes of freestanding types are freestanding. -/
theorem direct_freestanding (henv : context.env.Parametric) {t s : Ty} (ht : t.Freestanding)
    (h : context.Direct t s) : s.Freestanding := by
  cases t with
  | named head =>
      rcases direct_named henv.regular h with
        ⟨declaration, hfound, _, hs⟩ | ⟨above, rfl, hprimitive⟩
      · exact henv.freestanding hfound s hs
      · exact hprimitive
  | applied owner raw args =>
      obtain ⟨declaration, hfound, ⟨u, hu, rfl⟩ | ⟨_, _, rfl⟩⟩ := direct_applied_cases h
      · exact (henv.freestanding hfound u hu).substitute _
      · rfl
  | array | var | wildcard => exact ht.elim

/-- Supertypes of freestanding types are freestanding. -/
theorem supertype_freestanding (henv : context.env.Parametric) {t s : Ty} (ht : t.Freestanding)
    (h : context.Supertype t s) : s.Freestanding := by
  induction h with
  | refl => exact ht
  | tail _ hdirect ih => exact direct_freestanding henv ih hdirect

/-- The direct supertypes of an instance are instances of direct supertypes. -/
theorem directs_instances (henv : context.env.Parametric) {t t' : Ty} {types types' : List Ty}
    (ht : t.Freestanding) (ht' : t'.Freestanding) (heq : (t.substitute map == t') = true)
    (hsaturated : context.env.Saturated t) (h : context.Directs t types)
    (h' : context.Directs t' types') : Ty.Instances map types types' := by
  cases t with
  | named head =>
      rw [Ty.substitute_named] at heq
      obtain ⟨head', rfl, hhead⟩ := Ty.named_beq heq
      cases directs_named_eq (Named.beq_iff.1 hhead) ht ht' h h'
      -- what lies above a name has no variables
      have hclosed {s : Ty} (hs : s ∈ types) : (s.substitute map == s) = true := by
        rcases direct_named henv.regular ⟨types, h, hs⟩ with
          ⟨declaration, hfound, hparams, hdeclared⟩ | ⟨above, rfl, _⟩
        · refine Ty.substitute_closed map (henv.formed hfound s hdeclared)
            ((henv.own hfound s hdeclared).mono fun param hparam => ?_)
          rw [List.isEmpty_iff.1 hparams] at hparam
          cases hparam
        · rw [Ty.substitute_named]
          exact BEq.rfl
      exact ⟨fun s hs => ⟨s, hs, hclosed hs⟩, fun s hs => ⟨s, hs, hclosed hs⟩⟩
  | applied owner raw args =>
      cases (show owner = none from ht)
      obtain ⟨args', happlied, hargs⟩ := Ty.exists_substitute_applied map raw args
      rw [happlied] at heq
      obtain ⟨owner'', raw', args'', rfl, hraw, _, hargs'⟩ := Ty.applied_beq heq
      cases (show owner'' = none from ht')
      have hname := Named.beq_iff.1 hraw
      have htop : raw.isTop = raw'.isTop := by rw [Named.isTop, Named.isTop, hname]
      cases hfound : context.env.find? raw.name with
      | none =>
          cases (directs_applied_missing hfound).1 h
          cases (directs_applied_missing (hname ▸ hfound)).1 h'
          exact ⟨List.forall_mem_nil _, List.forall_mem_nil _⟩
      | some declaration =>
          cases (directs_applied hfound).1 h
          cases (directs_applied (hname ▸ hfound)).1 h'
          -- the arguments of the instance are the instances of the arguments
          have hvalues : List.Forall₂ (fun arg arg' => (arg.substitute map == arg') = true)
              args args'' := by
            have hmatches : Ty.Matches (args.map fun arg => arg.substitute map) args'' :=
              hargs.flip.join hargs' fun _ _ _ _ _ _ => BEq.trans
            exact List.forall₂_map_left_iff.1 hmatches
          have hrelated := Substitution.related_ofArgs declaration hvalues
          have hdeclared : List.Forall₂ (fun s s' => (s.substitute map == s') = true)
              (declaration.supertypes.map fun s =>
                s.substitute (context.argumentsOf declaration none args))
              (declaration.supertypes.map fun s =>
                s.substitute (context.argumentsOf declaration none args'')) := by
            rw [List.forall₂_map_left_iff, List.forall₂_map_right_iff, List.forall₂_same]
            intro s hs
            refine Ty.substitute_substitute hrelated (henv.formed hfound s hs)
              ((henv.own hfound s hs).mono fun param hparam => ?_)
            exact Substitution.isSome_lookup_ofArgs (hsaturated hfound) hparam
          have hdistinct := Ty.instances_distinct hdeclared
          rw [htop]
          dsimp only
          split
          · exact hdistinct
          · exact Ty.instances_orTop hdistinct
  | array | var | wildcard => exact ht.elim

/-- Equal types with heads that are no primitives have equal direct supertypes. -/
theorem directs_headed_congr {t t' : Ty} {name name' : String} {types types' : List Ty}
    (ht : t.Headed name) (ht' : t'.Headed name') (heq : (t == t') = true)
    (h : context.Directs t types) (h' : context.Directs t' types') : Ty.Matches types types' := by
  cases t with
  | named head =>
      obtain ⟨head', rfl, hhead⟩ := Ty.named_beq heq
      cases directs_named_eq (Named.beq_iff.1 hhead) ht.2 ht'.2 h h'
      exact Ty.matches_refl types
  | applied owner raw args =>
      obtain ⟨owner', raw', args', rfl, hraw, howner, hargs⟩ := Ty.applied_beq heq
      obtain ⟨others, hothers, hmatches⟩ := directs_applied_congr hraw howner hargs h
      exact h'.unique hothers ▸ hmatches
  | array | var | wildcard => cases ht.1

/-- Equal types with heads that are no primitives have equal sets of direct supertypes. -/
theorem uniform_headed (hregular : context.env.Regular) :
    context.Uniform fun t => ∃ name, t.Headed name where
  direct ht hdirect := by
    obtain ⟨_, ht⟩ := ht
    obtain ⟨_, hhead, _⟩ := ht.exists_head
    obtain ⟨above, habove, hprimitive⟩ := direct_head hregular hhead hdirect
    exact ⟨above.name, Ty.headed_of_head habove hprimitive⟩
  directs {t t' types} ht ht' heq h := by
    obtain ⟨_, ht⟩ := ht
    obtain ⟨_, ht'⟩ := ht'
    obtain ⟨types', htypes'⟩ := exists_directs hregular t'
    have hmatches := directs_headed_congr ht ht' heq h htypes'
    exact ⟨types', htypes', fun s => Ty.contains_matches hmatches BEq.rfl⟩

/-! ## Chains of steps -/

/-- Supertypes have instances among the supertypes of an instance. -/
theorem exists_instance_above (henv : context.env.Parametric) {t t' s : Ty} (ht : t.Freestanding)
    (ht' : t'.Freestanding) (heq : (t.substitute map == t') = true)
    (hsaturated : ∀ s, context.Supertype t s → context.env.Saturated s)
    (h : context.Supertype t s) :
    ∃ s', context.Supertype t' s' ∧ (s.substitute map == s') = true := by
  induction h with
  | refl => exact ⟨t', .refl, heq⟩
  | @tail s u hs hdirect ih =>
      obtain ⟨s', hs', heq'⟩ := ih
      obtain ⟨types, htypes, hu⟩ := hdirect
      obtain ⟨types', htypes'⟩ := exists_directs henv.regular s'
      obtain ⟨u', hu', hequal⟩ := (directs_instances henv (supertype_freestanding henv ht hs)
        (supertype_freestanding henv ht' hs') heq' (hsaturated s hs) htypes htypes').complete u hu
      exact ⟨u', hs'.tail ⟨types', htypes', hu'⟩, hequal⟩

/-- Supertypes of an instance are instances of supertypes. -/
theorem exists_above_instance (henv : context.env.Parametric) {t t' s' : Ty} (ht : t.Freestanding)
    (ht' : t'.Freestanding) (heq : (t.substitute map == t') = true)
    (hsaturated : ∀ s, context.Supertype t s → context.env.Saturated s)
    (h : context.Supertype t' s') :
    ∃ s, context.Supertype t s ∧ (s.substitute map == s') = true := by
  induction h with
  | refl => exact ⟨t, .refl, heq⟩
  | @tail s' u' hs' hdirect ih =>
      obtain ⟨s, hs, heq'⟩ := ih
      obtain ⟨types', htypes', hu'⟩ := hdirect
      obtain ⟨types, htypes⟩ := exists_directs henv.regular s
      obtain ⟨u, hu, hequal⟩ := (directs_instances henv (supertype_freestanding henv ht hs)
        (supertype_freestanding henv ht' hs') heq' (hsaturated s hs) htypes htypes').sound u' hu'
      exact ⟨u, hs.tail ⟨types, htypes, hu⟩, hequal⟩

/-- Equal freestanding types have equal sets of direct supertypes. -/
theorem uniform_freestanding (henv : context.env.Parametric) : context.Uniform Ty.Freestanding where
  direct ht hdirect := direct_freestanding henv ht hdirect
  directs ht ht' heq h := (uniform_headed henv.regular).directs ht.headed ht'.headed heq h

/-! ## The search ends -/

/-- Unequal types that have equals in a pool are at most as many as the pool has. -/
theorem length_le_of_cover {types pool : List Ty}
    (hunequal : types.Pairwise fun s t => (s == t) = false)
    (hcover : ∀ t ∈ types, ∃ p ∈ pool, (t == p) = true) : types.length ≤ pool.length := by
  induction types generalizing pool with
  | nil => exact Nat.zero_le _
  | cons t rest ih =>
      obtain ⟨hfirst, hrest⟩ := List.pairwise_cons.1 hunequal
      obtain ⟨p, hp, heq⟩ := hcover t List.mem_cons_self
      obtain ⟨before, after, rfl⟩ := List.append_of_mem hp
      -- no other type has the same equal, so that equal can be left out
      have hothers : ∀ s ∈ rest, ∃ q ∈ before ++ after, (s == q) = true := by
        intro s hs
        obtain ⟨q, hq, hequal⟩ := hcover s (List.mem_cons_of_mem t hs)
        refine ⟨q, ?_, hequal⟩
        rw [List.mem_append, List.mem_cons] at hq
        rcases hq with hq | rfl | hq
        · exact List.mem_append_left _ hq
        · cases (hfirst s hs).symm.trans (BEq.trans heq (BEq.symm hequal))
        · exact List.mem_append_right _ hq
      have hlength := ih hrest hothers
      rw [List.length_append] at hlength ⊢
      rw [List.length_cons, List.length_cons]
      omega

/-- The search from a type ends if all its supertypes have direct supertypes and finitely many
types cover them. -/
theorem finiteClosure_of_cover {t : Ty} {pool : List Ty}
    (hdirects : ∀ s, context.Supertype t s → ∃ types, context.Directs s types)
    (hcover : ∀ s, context.Supertype t s → ∃ p ∈ pool, (s == p) = true) :
    context.FiniteClosure t := by
  -- the list never gets longer than the pool, and each step moves the position on
  have hsearch (left : Nat) : ∀ (found : TypeSet) (position : Nat),
      pool.length ≤ position + left → found.members.Pairwise (fun s u => (s == u) = false) →
      (∀ s ∈ found.members, context.Supertype t s) →
      ∃ fuel result, (context.closureFrom fuel found position).answer = some result := by
    induction left with
    | zero =>
        intro found position hposition hunequal hreached
        have hlength := length_le_of_cover hunequal fun s hs => hcover s (hreached s hs)
        exact ⟨1, found, closure_from_done (List.getElem?_eq_none (by omega))⟩
    | succ left ih =>
        intro found position hposition hunequal hreached
        cases hs : found.members[position]? with
        | none => exact ⟨1, found, closure_from_done hs⟩
        | some s =>
            have hbelow := hreached s (List.mem_of_getElem? hs)
            obtain ⟨types, htypes⟩ := hdirects s hbelow
            have hmembers := members_insertAll_eq found types
            obtain ⟨fuel, result, hrest⟩ := ih (found.insertAll types) (position + 1) (by omega)
              (hmembers ▸ Ty.pairwise_addNew types hunequal) (fun u hu => by
                rw [hmembers] at hu
                rcases Ty.mem_of_mem_addNew hu with hold | hnew
                · exact hreached u hold
                · exact hbelow.tail ⟨types, htypes, hnew⟩)
            obtain ⟨enough, hanswer⟩ := closure_from_next hs htypes hrest
            exact ⟨enough, result, hanswer⟩
  have hstart : (TypeSet.insert .empty t).members = [t] := TypeSet.members_insert .empty t
  obtain ⟨fuel, result, hanswer⟩ := hsearch pool.length (TypeSet.insert .empty t) 0 (by omega)
    (hstart ▸ List.pairwise_singleton _ _) (hstart ▸ List.forall_mem_singleton.2 .refl)
  refine ⟨fuel, result.members, ?_⟩
  rw [closure, (closure_from_oblivious fuel _ 0).answer_map, hanswer]
  rfl

/-- In a regular environment the search from a type with finitely many supertypes ends. -/
theorem FinitelyAbove.finiteClosure (hregular : context.env.Regular) {t : Ty}
    (h : context.FinitelyAbove t) : context.FiniteClosure t := by
  obtain ⟨pool, hpool⟩ := h
  exact finiteClosure_of_cover (fun s _ => exists_directs hregular s) hpool

/-- Where a closure was found, all supertypes have direct supertypes. -/
theorem ClosureOf.exists_directs {domain : Ty → Prop} (huniform : context.Uniform domain)
    {t s : Ty} {members : List Ty} (h : context.ClosureOf t members) (ht : domain t)
    (hs : context.Supertype t s) : ∃ types, context.Directs s types := by
  -- an equal member was followed, so its direct supertypes are known
  obtain ⟨member, hmember, heq⟩ := huniform.exists_mem ht ht BEq.rfl h hs
  obtain ⟨types, htypes, _⟩ := h.followed member hmember
  have hreached := huniform.mem_domain ht (h.reached member hmember)
  obtain ⟨types', htypes', _⟩ :=
    huniform.directs hreached (huniform.mem_domain ht hs) (BEq.symm heq) htypes
  exact ⟨types', htypes'⟩

/-- The search from a member of a closure ends. -/
theorem ClosureOf.finiteClosure {domain : Ty → Prop} (huniform : context.Uniform domain)
    {t s : Ty} {members : List Ty} (h : context.ClosureOf t members) (ht : domain t)
    (hs : s ∈ members) : context.FiniteClosure s :=
  finiteClosure_of_cover (fun _ hu => h.exists_directs huniform ht ((h.reached s hs).trans hu))
    fun _ hu => huniform.exists_mem ht ht BEq.rfl h ((h.reached s hs).trans hu)

/-- The closure of an instance has the instances of a closure. -/
theorem exists_closure_instances (henv : context.env.Parametric) {t t' : Ty} {members : List Ty}
    (ht : t.Freestanding) (ht' : t'.Freestanding) (heq : (t.substitute map == t') = true)
    (hsaturated : ∀ s, context.Supertype t s → context.env.Saturated s)
    (hclosure : context.ClosureOf t members) :
    ∃ fuel members', (context.closure fuel t').answer = some members' ∧
      Ty.Instances map members members' := by
  have hsound {s' : Ty} (hs' : context.Supertype t' s') :
      ∃ s ∈ members, (s.substitute map == s') = true := by
    obtain ⟨s, hs, hequal⟩ := exists_above_instance henv ht ht' heq hsaturated hs'
    obtain ⟨member, hmember, hsame⟩ :=
      (uniform_freestanding henv).exists_mem ht ht BEq.rfl hclosure hs
    exact ⟨member, hmember,
      BEq.trans (Ty.substitute_congr_type map (BEq.symm hsame)) hequal⟩
  -- so the instances of the members cover what lies above the instance
  have hcover (s' : Ty) (hs' : context.Supertype t' s') :
      ∃ p ∈ members.map fun s => s.substitute map, (s' == p) = true := by
    obtain ⟨s, hs, hequal⟩ := hsound hs'
    exact ⟨_, List.mem_map_of_mem hs, BEq.symm hequal⟩
  obtain ⟨fuel, members', hanswer⟩ :=
    finiteClosure_of_cover (fun s _ => exists_directs henv.regular s) hcover
  have hclosure' := closure_closureOf hanswer
  refine ⟨fuel, members', hanswer, fun s hs => ?_, fun s' hs' => hsound (hclosure'.reached s' hs')⟩
  obtain ⟨s', hs', hequal⟩ :=
    exists_instance_above henv ht ht' heq hsaturated (hclosure.reached s hs)
  obtain ⟨member, hmember, hsame⟩ :=
    (uniform_freestanding henv).exists_mem ht' ht' BEq.rfl hclosure' hs'
  exact ⟨member, hmember, BEq.trans hequal hsame⟩

/-! ## Supertypes of instances -/

/-- Where nothing is memoized, the supertypes of a type are its closure. -/
theorem supertypes_answer (fuel : Nat) (t : Ty) :
    (context.supertypes fuel t).answer = (context.closure fuel t).answer := by
  cases hclosure : (context.closure fuel t).answer with
  | some members =>
      have hnew : Trail.empty.memo.get? t = none := TypeMap.get?_eq_lookup _ t
      obtain ⟨after, hrun, _⟩ := supertypes_computed (fun _ => hnew) hclosure
      rw [Query.answer, hrun, Option.map_some]
  | none =>
      cases hanswer : (context.supertypes fuel t).answer with
      | none => rfl
      | some members =>
          obtain ⟨⟨_, after⟩, hrun, rfl⟩ := Option.map_eq_some_iff.1 hanswer
          rcases supertypes_run hrun with ⟨_, hentry, _⟩ | ⟨hfound, _⟩
          · cases hentry
          · cases hclosure.symm.trans hfound

variable (context) in
/-- The supertypes of a type are found, given enough steps, and are the instances of some types. -/
def HasInstances (map : Substitution) (members : List Ty) (t : Ty) : Prop :=
  ∃ enough members', (∀ fuel, enough ≤ fuel → (context.supertypes fuel t).answer = some members') ∧
    Ty.Instances map members members'

/-- A closure that has the instances of some types answers for them. -/
theorem hasInstances_of_closure {members members' : List Ty} {t : Ty} {fuel : Nat}
    (h : (context.closure fuel t).answer = some members')
    (hinstances : Ty.Instances map members members') : context.HasInstances map members t := by
  refine ⟨fuel, members', fun more hmore => ?_, hinstances⟩
  rw [supertypes_answer]
  exact (closure_mono t hmore).answer_eq h

/-- The supertypes of an instance of a type are the instances of its supertypes. In particular the
supertypes of a name applied to arguments are those of its canonical form, with the arguments for
the parameters. -/
theorem supertypes_substitute (henv : context.env.Parametric) :
    (∀ {t : Ty} {members : List Ty} {fuel : Nat} (map : Substitution), t.Unowned →
      (∀ s, context.Supertype t s → context.env.Saturated s) →
      (context.supertypes fuel t).answer = some members →
      context.HasInstances map members (t.substitute map)) ∧
    ∀ {head : Named} {raw : ClassName} {declaration : Declaration} {args members : List Ty}
        {fuel : Nat},
      context.env.find? raw.name = some declaration →
      context.env.canonical (.named head) = .applied none raw (declaration.params.map .var) →
      (∀ s, context.Supertype (context.env.canonical (.named head)) s →
        context.env.Saturated s) →
      (context.supertypes fuel (context.env.canonical (.named head))).answer = some members →
      args.length = declaration.params.length →
      context.HasInstances (.ofArgs declaration args) members (.applied none raw args) := by
  constructor
  · intro t members fuel map ht hsaturated hanswer
    rw [supertypes_answer] at hanswer
    have hclosure := closure_closureOf hanswer
    rcases ht.freestanding_or_primitive with ht | ⟨head, rfl, hprimitive⟩
    · obtain ⟨enough, members', hanswer', hinstances⟩ :=
        exists_closure_instances henv ht (ht.substitute map) BEq.rfl hsaturated hclosure
      exact hasInstances_of_closure hanswer' hinstances
    · -- a primitive has no other supertypes and is its only instance
      rw [Ty.substitute_named]
      have hself {s : Ty} (hs : s ∈ members) : (s.substitute map == s) = true := by
        cases supertype_primitive hprimitive (hclosure.reached s hs)
        rw [Ty.substitute_named]
        exact BEq.rfl
      exact hasInstances_of_closure hanswer
        ⟨fun s hs => ⟨s, hs, hself hs⟩, fun s hs => ⟨s, hs, hself hs⟩⟩
  · intro head raw declaration args members fuel hfound hcanonical hsaturated hanswer hlength
    rw [hcanonical] at hsaturated hanswer
    rw [supertypes_answer] at hanswer
    have hfree (args : List Ty) : (Ty.applied none raw args).Freestanding := rfl
    obtain ⟨enough, members', hanswer', hinstances⟩ :=
      exists_closure_instances henv (hfree _) (hfree args)
        (Ty.substitute_canonical raw hlength (henv.distinct hfound)) hsaturated
        (closure_closureOf hanswer)
    exact hasInstances_of_closure hanswer' hinstances

/-! ## Windows and views -/

/-- An interface with one parameter. -/
def view : ClassName := ⟨⟨"View", .interfaceType, 1⟩, rfl⟩

/-- A class with one parameter. -/
def window : ClassName := ⟨⟨"Window", .classType, 1⟩, rfl⟩

/-- The parameter of a declaration. -/
def item (declaration : String) (cell : CellId) : TypeVar := ⟨"T", declaration, .owning cell⟩

/-- A view of what is below the parameter of windows. -/
def windowView : Ty := .applied none view [.wildcard (.var (item "Window" 1)) none]

/-- The declaration of windows, which are views. -/
def windowDeclaration : Declaration := ⟨window, [item "Window" 1], none, [windowView]⟩

/-- Windows and views. -/
def windows : Context where
  env := {
    find? := fun name =>
      if name = "View" then some ⟨view, [item "View" 0], none, []⟩
      else if name = "Window" then some windowDeclaration
      else none
    cloneable := .cloneable
    serializable := .serializable }
  heap := ⟨#[.unbound, .unbound], []⟩
  memoize := true

/-- What is declared of windows and views. -/
theorem windows_cases {name : String} {declaration : Declaration}
    (h : windows.env.find? name = some declaration) :
    declaration = ⟨view, [item "View" 0], none, []⟩ ∨ declaration = windowDeclaration := by
  change (if name = "View" then _ else if name = "Window" then _ else _) = _ at h
  split at h
  · exact .inl (Option.some.inj h).symm
  · split at h
    · exact .inr (Option.some.inj h).symm
    · cases h

/-- Views of windows mention only the parameter of windows. -/
theorem windows_parametric : windows.env.Parametric := by
  have hdeclared {name : String} {declaration : Declaration} {s : Ty}
      (hfound : windows.env.find? name = some declaration) (hs : s ∈ declaration.supertypes) :
      declaration = windowDeclaration ∧ s = windowView := by
    rcases windows_cases hfound with rfl | rfl
    · cases hs
    · exact ⟨rfl, List.mem_singleton.1 hs⟩
  constructor
  case regular =>
      intro name declaration hfound s hs
      obtain ⟨_, rfl⟩ := hdeclared hfound hs
      exact ⟨view, rfl, rfl⟩
  case freestanding =>
      intro name declaration hfound s hs
      obtain ⟨_, rfl⟩ := hdeclared hfound hs
      rfl
  case formed =>
      intro name declaration hfound s hs
      obtain ⟨_, rfl⟩ := hdeclared hfound hs
      refine .intro trivial (List.forall_mem_singleton.2 (.intro rfl ?_))
      exact List.forall_mem_singleton.2 (.intro trivial (List.forall_mem_nil _))
  case own =>
      intro name declaration hfound s hs
      obtain ⟨rfl, rfl⟩ := hdeclared hfound hs
      refine .intro nofun (List.forall_mem_singleton.2 (.intro nofun ?_))
      refine List.forall_mem_singleton.2 (.intro ?_ (List.forall_mem_nil _))
      rintro param ⟨⟩
      rfl
  case distinct =>
      intro name declaration hfound
      rcases windows_cases hfound with rfl | rfl <;> exact List.pairwise_singleton _ _

/-- All that lies above windows has as many arguments as it needs. -/
theorem windows_saturated {s : Ty}
    (h : windows.Supertype (.applied none window [.var (item "Window" 1)]) s) :
    windows.env.Saturated s := by
  have hmem : s = .applied none window [.var (item "Window" 1)] ∨ s = windowView ∨ s = .top := by
    induction h with
    | refl => exact .inl rfl
    | tail _ hdirect ih =>
        obtain ⟨types, htypes, hs⟩ := hdirect
        rcases ih with rfl | rfl | rfl
        · cases htypes.unique ⟨1, rfl⟩
          exact .inr (.inl (List.mem_singleton.1 hs))
        · cases htypes.unique ⟨1, rfl⟩
          exact .inr (.inr (List.mem_singleton.1 hs))
        · cases htypes.unique ⟨1, rfl⟩
          cases hs
  rcases hmem with rfl | rfl | rfl
  · rintro declaration ⟨⟩
    rfl
  · rintro declaration ⟨⟩
    rfl
  · trivial

/-- A window on something above a type is a view of anything: the lower bound is lost where it meets
an upper bound. -/
theorem window_super_instances :
    windows.HasInstances (.ofArgs windowDeclaration [.wildcard .top (some (.named list))])
      [.applied none window [.var (item "Window" 1)], windowView, .top]
      (.applied none window [.wildcard .top (some (.named list))]) ∧
    (windows.supertypes 5 (.applied none window [.wildcard .top (some (.named list))])).answer =
      some [.applied none window [.wildcard .top (some (.named list))],
        .applied none view [.unbounded], .top] := by
  have hcanonical : windows.env.canonical (.named window) =
      .applied none window (windowDeclaration.params.map .var) := rfl
  have hanswer : (windows.supertypes 5 (windows.env.canonical (.named window))).answer =
      some [.applied none window [.var (item "Window" 1)], windowView, .top] := rfl
  exact ⟨(supertypes_substitute windows_parametric).2 rfl hcanonical
    (fun _ => windows_saturated) hanswer rfl, rfl⟩

end Context

end Nominal
