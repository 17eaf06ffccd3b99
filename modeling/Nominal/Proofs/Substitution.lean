import Nominal.Proofs.Equality

/-!
# Laws of substitution

Equal types stay equal under a substitution, a well formed type does not change if its variables do
not (`replace_fixed`), and two substitutions one after the other are one substitution
(`replace_replace`). The last holds although wildcards that meet wildcards are flattened, because
flattening commutes with replacing.
-/

namespace Nominal

/-! ## Values -/

namespace Substitution

/-- The value of a variable after one value was set. -/
theorem lookup_insert (map : Substitution) (key param : TypeVar) (value : Ty) :
    (map.insert key value).lookup param =
      if param == key then some value else map.lookup param := by
  induction map with
  | nil =>
      rw [insert, List.lookup_cons, List.lookup_nil]
      cases param == key <;> rfl
  | cons entry rest ih =>
      rw [insert]
      split
      · rename_i hkey
        rw [List.lookup_cons, List.lookup_cons, BEq.congr_right hkey]
        cases param == key <;> rfl
      · rename_i hkey
        rw [List.lookup_cons, List.lookup_cons, ih]
        cases hentry : param == entry.1 with
        | false => rfl
        | true =>
            -- the variable is that of the entry, so it is not the new key
            exact (if_neg fun hparam => hkey (BEq.trans (BEq.symm hentry) hparam)).symm

/-- Values of other variables do not matter. -/
theorem lookup_foldl_of_unequal {pairs : List (TypeVar × Ty)} {param : TypeVar}
    (h : ∀ pair ∈ pairs, (param == pair.1) = false) (map : Substitution) :
    (pairs.foldl (fun map pair => map.insert pair.1 pair.2) map).lookup param =
      map.lookup param := by
  induction pairs generalizing map with
  | nil => rfl
  | cons pair rest ih =>
      rw [List.forall_mem_cons] at h
      rw [List.foldl_cons, ih h.2, lookup_insert, if_neg (Bool.eq_false_iff.1 h.1)]

/-- A variable that has a value keeps one when values are set. -/
theorem isSome_lookup_foldl {pairs : List (TypeVar × Ty)} {param : TypeVar} {map : Substitution}
    (h : (map.lookup param).isSome = true ∨ ∃ pair ∈ pairs, (param == pair.1) = true) :
    ((pairs.foldl (fun map pair => map.insert pair.1 pair.2) map).lookup param).isSome = true := by
  induction pairs generalizing map with
  | nil => exact h.resolve_right nofun
  | cons pair rest ih =>
      rw [List.foldl_cons]
      apply ih
      rw [lookup_insert]
      rcases h with hold | ⟨other, hother, heq⟩
      · left
        split
        · rfl
        · exact hold
      · rcases List.mem_cons.1 hother with rfl | hother
        · rw [if_pos heq]
          exact .inl rfl
        · exact .inr ⟨other, hother, heq⟩

/-- A parameter of a declaration has a value if there are as many arguments as parameters. -/
theorem isSome_lookup_ofArgs {declaration : Declaration} {args : List Ty}
    (hlength : args.length = declaration.params.length) {param : TypeVar}
    (h : declaration.params.contains param = true) :
    ((ofArgs declaration args).lookup param).isSome = true := by
  obtain ⟨key, hkey, heq⟩ := List.contains_iff_exists_mem_beq.1 h
  obtain ⟨index, hindex, rfl⟩ := List.getElem_of_mem hkey
  have hzip : index < (declaration.params.zip args).length := by
    rw [List.length_zip, hlength, Nat.min_self]
    exact hindex
  have hpair := List.getElem_mem hzip
  rw [List.getElem_zip] at hpair
  exact isSome_lookup_foldl (.inr ⟨_, hpair, heq⟩)

/-- Of pairs with distinct variables the values are those in the pairs. -/
theorem lookup_foldl {pairs : List (TypeVar × Ty)}
    (hdistinct : pairs.Pairwise fun first second => (first.1 == second.1) = false)
    (map : Substitution) (param : TypeVar) :
    (pairs.foldl (fun map pair => map.insert pair.1 pair.2) map).lookup param =
      (pairs.lookup param).or (map.lookup param) := by
  induction pairs generalizing map with
  | nil => rfl
  | cons pair rest ih =>
      obtain ⟨hpair, hrest⟩ := List.pairwise_cons.1 hdistinct
      rw [List.foldl_cons, List.lookup_cons]
      cases hkey : param == pair.1 with
      | false =>
          rw [ih hrest, lookup_insert, hkey]
          rfl
      | true =>
          rw [lookup_foldl_of_unequal, lookup_insert, if_pos hkey]
          · rfl
          · intro other hother
            rw [BEq.congr_left hkey]
            exact hpair other hother

/-- Distinct parameters have their arguments as values. -/
theorem lookup_ofArgs {declaration : Declaration} {args : List Ty}
    (hlength : args.length = declaration.params.length)
    (hdistinct : declaration.params.Pairwise fun first second => (first == second) = false) :
    List.Forall₂ (fun param arg => (ofArgs declaration args).lookup param = some arg)
      declaration.params args := by
  suffices hpairs : ∀ (params : List TypeVar) (args : List Ty) (map : Substitution),
      args.length = params.length →
      params.Pairwise (fun first second => (first == second) = false) →
      List.Forall₂ (fun param arg => ((params.zip args).foldl
        (fun map pair => map.insert pair.1 pair.2) map).lookup param = some arg) params args from
    hpairs _ _ [] hlength hdistinct
  intro params
  induction params with
  | nil =>
      intro args map hlength _
      cases List.length_eq_zero_iff.1 hlength
      exact .nil
  | cons param params ih =>
      intro args map hlength hdistinct
      cases args with
      | nil => cases hlength
      | cons arg args =>
          obtain ⟨hparam, hparams⟩ := List.pairwise_cons.1 hdistinct
          refine .cons ?_ (ih args _ (Nat.succ.inj hlength) hparams)
          rw [List.zip_cons_cons, List.foldl_cons, lookup_foldl_of_unequal, lookup_insert,
            if_pos BEq.rfl]
          exact fun pair hpair => hparam pair.1 (List.of_mem_zip hpair).1

end Substitution

namespace Ty

/-- Equal variables have the same value. -/
theorem lookup_param_congr {param param' : TypeVar} (h : (param == param') = true)
    (map : Substitution) : map.lookup param = map.lookup param' := by
  induction map with
  | nil => rfl
  | cons entry rest ih => rw [List.lookup_cons, List.lookup_cons, ih, BEq.congr_left h]

/-! ## Equal types -/

/-- Applied types are equal when their parts are. -/
theorem applied_congr {owner owner' : Option Ty} {raw raw' : ClassName} {args args' : List Ty}
    (howner : (owner == owner') = true) (hraw : (raw.toNamed == raw') = true)
    (hargs : Matches args args') :
    (Ty.applied owner raw args == .applied owner' raw' args') = true := by
  rw [applied_beq_applied, hraw, howner, list_beq_iff.2 hargs]
  rfl

/-- Equal types stay equal when their variables are replaced. -/
theorem replace_congr_type (map : Substitution) {s t : Ty} (h : (s == t) = true) :
    (replace map s == replace map t) = true := by
  induction s using parts_induction generalizing t with
  | step s ih =>
      cases s with
      | named head =>
          obtain ⟨head', rfl, _⟩ := named_beq h
          exact h
      | var param =>
          obtain ⟨param', rfl, hparam⟩ := var_beq h
          rw [replace, replace, lookup_param_congr hparam]
          cases map.lookup param' with
          | none => exact h
          | some value => exact BEq.rfl
      | array component =>
          obtain ⟨component', rfl, hcomponent⟩ := array_beq h
          have hinner := ih component (List.mem_singleton.2 rfl) hcomponent
          exact BEq.trans (replace_array map component)
            (BEq.trans hinner (BEq.symm (replace_array map component')))
      | applied owner raw args =>
          obtain ⟨owner', raw', args', rfl, hraw, howner, hargs⟩ := applied_beq h
          refine BEq.trans (replace_applied map owner raw args)
            (BEq.trans (applied_congr ?_ hraw ?_)
              (BEq.symm (replace_applied map owner' raw' args')))
          · rcases option_beq howner with ⟨rfl, rfl⟩ | ⟨outer, outer', rfl, rfl, houter⟩
            · rfl
            · exact ih outer (List.mem_append_left _ (List.mem_singleton.2 rfl)) houter
          · have hboth := (List.forall₂_and_left _ _).2
              ⟨fun arg harg => @ih arg (List.mem_append_right _ harg), hargs⟩
            rw [Matches, List.forall₂_map_left_iff, List.forall₂_map_right_iff]
            exact hboth.imp fun _ _ hpair => hpair.1 hpair.2
      | wildcard upper lower =>
          obtain ⟨upper', lower', rfl, hupper, hlower⟩ := wildcard_beq h
          rcases option_beq hlower with ⟨rfl, rfl⟩ | ⟨bound, bound', rfl, rfl, hbound⟩
          · exact extendsOf_congr (ih upper List.mem_cons_self hupper)
          · exact superOf_congr
              (ih bound (List.mem_cons_of_mem _ (List.mem_singleton.2 rfl)) hbound)

/-- Equal types stay equal under a substitution. -/
theorem substitute_congr_type (map : Substitution) {s t : Ty} (h : (s == t) = true) :
    (s.substitute map == t.substitute map) = true := by
  rw [substitute, substitute]
  split
  · exact h
  · exact replace_congr_type map h

/-! ## Wildcards -/

/-- Flattening an upper bound leaves an upper bound alone. -/
theorem exists_extendsOf (t : Ty) : ∃ upper, extendsOf t = .wildcard upper none := by
  cases t with
  | named | applied | array | var => exact ⟨_, rfl⟩
  | wildcard upper lower =>
      cases lower with
      | none => exact ⟨upper, rfl⟩
      | some lower => exact ⟨.top, rfl⟩

/-- Flattening a lower bound leaves a lower bound alone, or no bound. -/
theorem superOf_cases (t : Ty) :
    (∃ lower, superOf t = .wildcard .top (some lower)) ∨ superOf t = unbounded := by
  cases t with
  | named | applied | array | var => exact .inl ⟨_, rfl⟩
  | wildcard upper lower =>
      cases lower with
      | none => exact .inr rfl
      | some lower => exact .inl ⟨lower, rfl⟩

/-- Flattening an upper bound commutes with replacing. -/
theorem replace_extendsOf (map : Substitution) (t : Ty) :
    replace map (extendsOf t) = extendsOf (replace map t) := by
  cases hwild : t.isWildcard with
  | false => rw [extendsOf_eq hwild, replace]
  | true =>
      obtain ⟨upper, lower, rfl⟩ := eq_wildcard hwild
      cases lower with
      | none =>
          obtain ⟨upper', hupper⟩ := exists_extendsOf (replace map upper)
          rw [extendsOf, replace, hupper, extendsOf]
      | some lower =>
          show unbounded = extendsOf (superOf (replace map lower))
          rcases superOf_cases (replace map lower) with ⟨lower', hlower⟩ | hnone
          · rw [hlower, extendsOf]
          · rw [hnone]
            rfl

/-- Flattening a lower bound commutes with replacing. -/
theorem replace_superOf (map : Substitution) (t : Ty) :
    replace map (superOf t) = superOf (replace map t) := by
  cases hwild : t.isWildcard with
  | false => rw [superOf_eq hwild, replace]
  | true =>
      obtain ⟨upper, lower, rfl⟩ := eq_wildcard hwild
      cases lower with
      | none =>
          obtain ⟨upper', hupper⟩ := exists_extendsOf (replace map upper)
          show unbounded = superOf (extendsOf (replace map upper))
          rw [hupper, superOf]
      | some lower =>
          show superOf (replace map lower) = superOf (superOf (replace map lower))
          rcases superOf_cases (replace map lower) with ⟨lower', hlower⟩ | hnone
          · rw [hlower, superOf]
          · rw [hnone]
            rfl

/-! ## Substitutions one after the other -/

/-- All variables in a type have a property. -/
def Vars (holds : TypeVar → Prop) (t : Ty) : Prop :=
  t.Everywhere fun node => ∀ param, node = .var param → holds param

/-- A property of all variables may be weakened. -/
theorem Vars.mono {holds weaker : TypeVar → Prop} {t : Ty} (h : t.Vars holds)
    (hweaker : ∀ param, holds param → weaker param) : t.Vars weaker :=
  Everywhere.mono h fun _ hself param hparam => hweaker param (hself param hparam)

/-- All variables in a type have a property that all variables have. -/
theorem vars_of_forall {holds : TypeVar → Prop} (h : ∀ param, holds param) (t : Ty) :
    t.Vars holds := by
  induction t using parts_induction with
  | step t ih => exact .intro (fun param _ => h param) ih

/-- The only variable in a variable is itself. -/
theorem vars_var {holds : TypeVar → Prop} {param : TypeVar} :
    (Ty.var param).Vars holds ↔ holds param := by
  constructor
  · exact fun h => h.self param rfl
  · intro h
    refine .intro ?_ (List.forall_mem_nil _)
    rintro _ ⟨⟩
    exact h

/-- Replacing twice is replacing once if it is so for the variables of a type. -/
theorem replace_replace {first second both : Substitution} {t : Ty}
    (h : t.Vars fun param =>
      (replace second (replace first (.var param)) == replace both (.var param)) = true) :
    (replace second (replace first t) == replace both t) = true := by
  induction t using parts_induction with
  | step t ih =>
      have hpart {part : Ty} (hpart : part ∈ t.parts) :
          (replace second (replace first part) == replace both part) = true :=
        ih part hpart (h.part hpart)
      cases t with
      | named head => exact BEq.rfl
      | var param => exact h.self param rfl
      | array component =>
          have hfirst := replace_congr_type second (replace_array first component)
          have hsecond := replace_array second (replace first component)
          have hinner : (Ty.array (replace second (replace first component)) ==
              .array (replace both component)) = true := hpart (List.mem_singleton.2 rfl)
          exact BEq.trans hfirst
            (BEq.trans hsecond (BEq.trans hinner (BEq.symm (replace_array both component))))
      | applied owner raw args =>
          have hfirst := replace_congr_type second (replace_applied first owner raw args)
          have hsecond := replace_applied second (owner.map (replace first)) raw
            (args.map (replace first))
          have hboth := replace_applied both owner raw args
          refine BEq.trans hfirst (BEq.trans hsecond
            (BEq.trans (applied_congr ?_ BEq.rfl ?_) (BEq.symm hboth)))
          · cases owner with
            | none => rfl
            | some owner => exact hpart (List.mem_append_left _ (List.mem_singleton.2 rfl))
          · rw [Matches, List.forall₂_map_left_iff, List.forall₂_map_left_iff,
              List.forall₂_map_right_iff, List.forall₂_same]
            exact fun arg harg => hpart (List.mem_append_right _ harg)
      | wildcard upper lower =>
          cases lower with
          | none =>
              rw [replace, replace_extendsOf]
              exact extendsOf_congr (hpart List.mem_cons_self)
          | some lower =>
              rw [replace, replace_superOf]
              exact superOf_congr (hpart (List.mem_cons_of_mem _ (List.mem_singleton.2 rfl)))

/-- What is the universal supertype is equal to it. -/
theorem top_beq {t : Ty} (h : t.isTop = true) : (Ty.top == t) = true := by
  cases t with
  | named head => exact Named.beq_iff.2 (beq_iff_eq.1 h).symm
  | applied | array | var | wildcard => cases h

/-- The bound of a wildcard is no wildcard, and a wildcard with a lower bound has no other upper
bound than the universal supertype. -/
def FormedAt : Ty → Prop
  | .wildcard upper none => upper.isWildcard = false
  | .wildcard upper (some lower) => upper.isTop = true ∧ lower.isWildcard = false
  | _ => True

/-- All wildcards in a type are well formed. -/
def WellFormed (t : Ty) : Prop := t.Everywhere FormedAt

/-- Variables are well formed. -/
theorem wellFormed_var (param : TypeVar) : (Ty.var param).WellFormed :=
  .intro trivial (List.forall_mem_nil _)

/-- A well formed type does not change if its variables do not. -/
theorem replace_fixed {map : Substitution} {t : Ty} (hformed : t.WellFormed)
    (hfixed : t.Vars fun param => (replace map (.var param) == .var param) = true) :
    (replace map t == t) = true := by
  induction t using parts_induction with
  | step t ih =>
      have hpart {part : Ty} (hpart : part ∈ t.parts) : (replace map part == part) = true :=
        ih part hpart (hformed.part hpart) (hfixed.part hpart)
      cases t with
      | named head => exact BEq.rfl
      | var param => exact hfixed.self param rfl
      | array component =>
          exact BEq.trans (replace_array map component) (hpart (List.mem_singleton.2 rfl))
      | applied owner raw args =>
          refine BEq.trans (replace_applied map owner raw args) (applied_congr ?_ BEq.rfl ?_)
          · cases owner with
            | none => rfl
            | some owner => exact hpart (List.mem_append_left _ (List.mem_singleton.2 rfl))
          · rw [Matches, List.forall₂_map_left_iff, List.forall₂_same]
            exact fun arg harg => hpart (List.mem_append_right _ harg)
      | wildcard upper lower =>
          cases lower with
          | none =>
              have hupper : upper.isWildcard = false := hformed.self
              rw [replace, ← extendsOf_eq hupper]
              exact extendsOf_congr (hpart List.mem_cons_self)
          | some lower =>
              obtain ⟨htop, hlower⟩ : upper.isTop = true ∧ lower.isWildcard = false := hformed.self
              have hbound :=
                superOf_congr (hpart (List.mem_cons_of_mem _ (List.mem_singleton.2 rfl)))
              rw [superOf_eq hlower] at hbound
              refine BEq.trans hbound ?_
              rw [wildcard_beq_wildcard, Bool.and_eq_true]
              exact ⟨top_beq htop, BEq.rfl⟩

/-- A well formed type without variables does not change. -/
theorem replace_closed (map : Substitution) {t : Ty} (hformed : t.WellFormed)
    (hclosed : t.Vars fun _ => False) : (replace map t == t) = true :=
  replace_fixed hformed (hclosed.mono fun _ => False.elim)

/-- The empty substitution leaves a type alone. -/
theorem substitute_of_isEmpty {map : Substitution} (h : map.isEmpty = true) (t : Ty) :
    t.substitute map = t := if_pos h

/-- Any other substitution replaces the variables of a type. -/
theorem substitute_of_not_isEmpty {map : Substitution} (h : map.isEmpty = false) (t : Ty) :
    t.substitute map = t.replace map := if_neg (Bool.eq_false_iff.1 h)

/-- Substituting twice is substituting once by values in which is substituted, for a well formed
type all variables of which have a value. -/
theorem substitute_substitute {first second both : Substitution} {t : Ty}
    (hrelated : Substitution.Related
      (fun value value' => (value.substitute second == value') = true) first both)
    (hformed : t.WellFormed) (hvars : t.Vars fun param => (first.lookup param).isSome = true) :
    ((t.substitute first).substitute second == t.substitute both) = true := by
  have hempty := hrelated.isEmpty_eq
  cases hsecond : second.isEmpty with
  | true =>
      simp only [substitute_of_isEmpty hsecond] at hrelated ⊢
      exact substitute_congr hrelated t
  | false =>
      simp only [substitute_of_not_isEmpty hsecond] at hrelated ⊢
      cases hfirst : first.isEmpty with
      | true =>
          rw [substitute_of_isEmpty hfirst, substitute_of_isEmpty (hempty.symm.trans hfirst)]
          refine replace_closed second hformed (hvars.mono fun param hsome => ?_)
          rw [List.isEmpty_iff.1 hfirst] at hsome
          cases hsome
      | false =>
          rw [substitute_of_not_isEmpty hfirst,
            substitute_of_not_isEmpty (hempty.symm.trans hfirst)]
          refine replace_replace (hvars.mono fun param hsome => ?_)
          rcases hrelated.lookup param with ⟨hnone, _⟩ | ⟨value, value', hvalue, hvalue', heq⟩
          · rw [hnone] at hsome
            cases hsome
          · rw [replace, replace, hvalue, hvalue']
            exact heq

end Ty

/-! ## Substitutions with the same values -/

namespace Substitution

variable {map map' : Substitution}

/-- Setting the values of equal variables keeps lookups the same. -/
theorem lookup_foldl_congr {params params' : List TypeVar}
    (h : List.Forall₂ (fun param param' => (param == param') = true) params params')
    (args : List Ty) (hmap : ∀ key, map.lookup key = map'.lookup key) (key : TypeVar) :
    ((params.zip args).foldl (fun map pair => map.insert pair.1 pair.2) map).lookup key =
      ((params'.zip args).foldl (fun map pair => map.insert pair.1 pair.2) map').lookup key := by
  induction h generalizing args map map' with
  | nil => exact hmap key
  | cons hparam _ ih =>
      cases args with
      | nil => exact hmap key
      | cons arg args =>
          refine ih args fun key => ?_
          rw [lookup_insert, lookup_insert, hmap, BEq.congr_right hparam]

/-- A variable has the value that it had, and if it had none the value that is added. -/
theorem lookup_insertNew_all (added map : Substitution) (key : TypeVar) :
    (added.foldl (fun map pair => map.insertNew pair.1 pair.2) map).lookup key =
      (map.lookup key).or (added.lookup key) := by
  induction added generalizing map with
  | nil => rw [List.foldl_nil, List.lookup_nil, Option.or_none]
  | cons pair rest ih =>
      rw [List.foldl_cons, ih, insertNew, List.lookup_cons]
      cases hkey : key == pair.1 with
      | false =>
          split
          · rfl
          · rw [lookup_insert, hkey]
            rfl
      | true =>
          rw [← Ty.lookup_param_congr hkey]
          cases hlookup : map.lookup key with
          | some value => simp [hlookup]
          | none => simp [lookup_insert, hkey]

/-- Substitutions with the same values are empty together. -/
theorem isEmpty_congr (h : ∀ key, map.lookup key = map'.lookup key) :
    map.isEmpty = map'.isEmpty := by
  have hlookup (pair : TypeVar × Ty) (rest : Substitution) :
      List.lookup pair.1 (pair :: rest) = some pair.2 := by
    rw [List.lookup_cons, BEq.rfl]
  cases map with
  | nil =>
      cases map' with
      | nil => rfl
      | cons pair rest => cases (h pair.1).trans (hlookup pair rest)
  | cons pair rest =>
      cases map' with
      | nil => cases (h pair.1).symm.trans (hlookup pair rest)
      | cons pair' rest' => rfl

end Substitution

namespace Ty

/-- Substitutions with the same values for the variables of a type do the same to it. -/
theorem replace_of_vars {map map' : Substitution} {t : Ty}
    (h : t.Vars fun param => map.lookup param = map'.lookup param) :
    t.replace map = t.replace map' := by
  induction t using parts_induction with
  | step t ih =>
      have hpart {part : Ty} (hpart : part ∈ t.parts) : part.replace map = part.replace map' :=
        ih part hpart (h.part hpart)
      cases t with
      | named head => rfl
      | var param => rw [replace, replace, h.self param rfl]
      | array component => rw [replace, replace, hpart (List.mem_singleton.2 rfl)]
      | applied owner raw args =>
          have hargs : args.map (replace map) = args.map (replace map') :=
            List.map_congr_left fun arg harg => hpart (List.mem_append_right _ harg)
          have howner : owner.map (replace map) = owner.map (replace map') := by
            cases owner with
            | none => rfl
            | some outer =>
                exact congrArg some (hpart (List.mem_append_left _ (List.mem_singleton.2 rfl)))
          rw [replace, replace, replaceOption_eq, replaceOption_eq, replaceList_eq, replaceList_eq,
            hargs, howner]
      | wildcard upper lower =>
          cases lower with
          | none => rw [replace, replace, hpart List.mem_cons_self]
          | some lower =>
              rw [replace, replace, hpart (List.mem_cons_of_mem _ (List.mem_singleton.2 rfl))]

/-- Substitutions with the same values do the same to types. -/
theorem substitute_of_lookup {map map' : Substitution}
    (h : ∀ key, map.lookup key = map'.lookup key) (t : Ty) :
    t.substitute map = t.substitute map' := by
  rw [substitute, substitute, Substitution.isEmpty_congr h,
    replace_of_vars (vars_of_forall h t)]

/-- A well formed type the variables of which have no value does not change. -/
theorem substitute_of_unmapped {map : Substitution} {t : Ty} (hformed : t.WellFormed)
    (h : t.Vars fun param => map.lookup param = none) : (t.substitute map == t) = true := by
  rw [substitute]
  split
  · exact BEq.rfl
  · refine replace_fixed hformed (h.mono fun param hnone => ?_)
    rw [replace, hnone]
    exact BEq.rfl

/-- Substitutions with the same values for the variables of a well formed type do the same to it,
also if one of them is empty. -/
theorem substitute_of_vars {map map' : Substitution} {t : Ty} (hformed : t.WellFormed)
    (h : t.Vars fun param => map.lookup param = map'.lookup param) :
    (t.substitute map == t.substitute map') = true := by
  cases hempty : map.isEmpty with
  | true =>
      rw [substitute_of_isEmpty hempty]
      refine BEq.symm (substitute_of_unmapped hformed (h.mono fun param heq => ?_))
      rw [← heq, List.isEmpty_iff.1 hempty]
      rfl
  | false =>
      cases hempty' : map'.isEmpty with
      | true =>
          rw [substitute_of_isEmpty hempty']
          refine substitute_of_unmapped hformed (h.mono fun param heq => ?_)
          rw [heq, List.isEmpty_iff.1 hempty']
          rfl
      | false =>
          rw [substitute_of_not_isEmpty hempty, substitute_of_not_isEmpty hempty',
            replace_of_vars h]
          exact BEq.rfl

end Ty

end Nominal
