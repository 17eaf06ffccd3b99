import Nominal.Proofs.Termination
import Nominal.Proofs.Substitution

/-!
# More general types

`Covers known t t'` says that `t'` is what `t` becomes when some variables in it are replaced, each
occurrence on its own, and that all variables of `t` are known. A substitution that knows fewer
variables than another one, and gives them more general values, leaves a type more general
(`Covers.substitute`). A type is covered by finitely many types up to equality, because variables
can only stand where the type has parts (`finitelyMany_covers`).
-/

namespace Nominal

namespace Ty

/-- One type becomes another one when occurrences of its variables, which are all known, are
replaced. A lower bound that is a variable disappears where an upper bound takes its place. -/
inductive Covers (known : List TypeVar) : Ty → Ty → Prop where
  | var {param : TypeVar} {t : Ty} : known.contains param = true → Covers known (.var param) t
  | named {head head' : Named} : (head == head') = true → Covers known (.named head) (.named head')
  | applied {owner owner' : Option Ty} {raw raw' : ClassName} {args args' : List Ty} :
      (raw.toNamed == raw') = true → Option.Rel (Covers known) owner owner' →
      List.Forall₂ (Covers known) args args' →
      Covers known (.applied owner raw args) (.applied owner' raw' args')
  | array {component component' : Ty} : Covers known component component' →
      Covers known (.array component) (.array component')
  | upper {upper upper' : Ty} : Covers known upper upper' →
      Covers known (.wildcard upper none) (.wildcard upper' none)
  | lower {upper upper' lower lower' : Ty} : upper.isTop = true → upper'.isTop = true →
      Covers known lower lower' →
      Covers known (.wildcard upper (some lower)) (.wildcard upper' (some lower'))
  | unbounded {upper upper' : Ty} {param : TypeVar} : upper.isTop = true → upper'.isTop = true →
      known.contains param = true →
      Covers known (.wildcard upper (some (.var param))) (.wildcard upper' none)

namespace Covers

variable {known : List TypeVar}

/-- Types that are equal to a more general and a less general one are so too. -/
theorem congr {s s' t t' : Ty} (h : Covers known t t') (heq : (t == s) = true)
    (heq' : (t' == s') = true) : Covers known s s' := by
  induction t using parts_induction generalizing s s' t' with
  | step t ih =>
      cases h with
      | var hknown =>
          obtain ⟨_, rfl, hparam⟩ := var_beq heq
          exact .var (Context.contains_of_beq hparam hknown)
      | named hname =>
          obtain ⟨_, rfl, hhead⟩ := named_beq heq
          obtain ⟨_, rfl, hhead'⟩ := named_beq heq'
          exact .named (BEq.trans (BEq.symm hhead) (BEq.trans hname hhead'))
      | @applied _ _ _ _ args args' hraw howner hargs =>
          obtain ⟨_, _, _, rfl, hraw₁, howner₁, hargs₁⟩ := congruent_beq.applied heq
          obtain ⟨_, _, others', rfl, hraw₂, howner₂, hargs₂⟩ := congruent_beq.applied heq'
          refine .applied (BEq.trans (BEq.symm hraw₁) (BEq.trans hraw hraw₂)) ?_ ?_
          · cases howner with
            | none =>
                cases howner₁
                cases howner₂
                exact .none
            | some houter =>
                cases howner₁ with
                | some houter₁ =>
                    cases howner₂ with
                    | some houter₂ =>
                        exact .some (ih _ (List.mem_append_left _ (Option.mem_toList.2 rfl)) houter
                          houter₁ houter₂)
          · have hothers : List.Forall₂ (fun arg other' =>
                ∃ arg', Covers known arg arg' ∧ (arg' == other') = true) args others' :=
              hargs.flip.join hargs₂ fun arg' _ _ _ _ _ hcovers hequal => ⟨arg', hcovers, hequal⟩
            refine hargs₁.join hothers fun arg harg _ _ _ _ hequal hother => ?_
            obtain ⟨_, hcovers, hequal'⟩ := hother
            exact ih arg (List.mem_append_right _ harg) hcovers hequal hequal'
      | array hcomponent =>
          obtain ⟨_, rfl, hequal⟩ := array_beq heq
          obtain ⟨_, rfl, hequal'⟩ := array_beq heq'
          exact .array (ih _ (List.mem_singleton.2 rfl) hcomponent hequal hequal')
      | upper hupper =>
          obtain ⟨_, rfl, hequal⟩ := congruent_beq.wildcard_none heq
          obtain ⟨_, rfl, hequal'⟩ := congruent_beq.wildcard_none heq'
          exact .upper (ih _ List.mem_cons_self hupper hequal hequal')
      | lower htop htop' hlower =>
          obtain ⟨_, _, rfl, hupper, hequal⟩ := congruent_beq.wildcard_some heq
          obtain ⟨_, _, rfl, hupper', hequal'⟩ := congruent_beq.wildcard_some heq'
          exact .lower (isTop_congr hupper ▸ htop) (isTop_congr hupper' ▸ htop')
            (ih _ (List.mem_cons_of_mem _ (List.mem_singleton.2 rfl)) hlower hequal hequal')
      | unbounded htop htop' hknown =>
          obtain ⟨_, _, rfl, hupper, hequal⟩ := congruent_beq.wildcard_some heq
          obtain ⟨_, rfl, hupper'⟩ := congruent_beq.wildcard_none heq'
          obtain ⟨_, rfl, hparam⟩ := var_beq hequal
          exact .unbounded (isTop_congr hupper ▸ htop) (isTop_congr hupper' ▸ htop')
            (Context.contains_of_beq hparam hknown)

/-- A type is more general than everything that is equal to one that it covers. -/
theorem congr_right {s t t' : Ty} (h : Covers known t t') (heq : (t' == s) = true) :
    Covers known t s := h.congr BEq.rfl heq

/-! ## Substitutions -/

/-- The universal supertype covers itself. -/
theorem top_top {t : Ty} (ht : t.isTop = true) : Covers known .top t :=
  congr_right (.named BEq.rfl) (top_beq ht)

/-- More general upper bounds make more general wildcards. -/
theorem extendsOf {t t' : Ty} (h : Covers known t t') :
    Covers known (extendsOf t) (extendsOf t') := by
  cases h with
  | var hknown =>
      obtain ⟨upper', hupper⟩ := exists_extendsOf t'
      rw [hupper]
      exact .upper (.var hknown)
  | named hname => exact .upper (.named hname)
  | applied hraw howner hargs => exact .upper (.applied hraw howner hargs)
  | array hcomponent => exact .upper (.array hcomponent)
  | upper hupper => exact .upper hupper
  | lower => exact .upper (.named BEq.rfl)
  | unbounded _ htop _ => exact .upper (top_top htop)

/-- More general lower bounds make more general wildcards. -/
theorem superOf {t t' : Ty} (h : Covers known t t') : Covers known (superOf t) (superOf t') := by
  cases h with
  | var hknown =>
      rcases superOf_cases t' with ⟨lower', hlower⟩ | hnone
      · rw [hlower]
        exact .lower rfl rfl (.var hknown)
      · rw [hnone]
        exact .unbounded rfl rfl hknown
  | named hname => exact .lower rfl rfl (.named hname)
  | applied hraw howner hargs => exact .lower rfl rfl (.applied hraw howner hargs)
  | array hcomponent => exact .lower rfl rfl (.array hcomponent)
  | upper => exact .upper (.named BEq.rfl)
  | lower _ _ hlower => exact .lower rfl rfl hlower
  | unbounded _ _ hknown => exact .unbounded rfl rfl hknown

/-- Replacing fewer variables by more general values leaves a type more general. -/
theorem replace {map map' : Substitution}
    (hmap : ∀ {key value}, map.lookup key = some value →
      ∃ value', map'.lookup key = some value' ∧ Covers known value value') {t : Ty}
    (ht : t.Vars fun param => known.contains param = true) :
    Covers known (t.replace map) (t.replace map') := by
  induction t using parts_induction with
  | step t ih =>
      have hpart {part : Ty} (hpart : part ∈ t.parts) :
          Covers known (part.replace map) (part.replace map') := ih part hpart (ht.part hpart)
      cases t with
      | named head => exact .named BEq.rfl
      | var param =>
          rw [Ty.replace, Ty.replace]
          cases hlookup : map.lookup param with
          | none => exact .var (ht.self param rfl)
          | some value =>
              obtain ⟨value', hlookup', hvalue⟩ := hmap hlookup
              rw [hlookup']
              exact hvalue
      | array component =>
          exact (array (hpart (List.mem_singleton.2 rfl))).congr
            (BEq.symm (replace_array map component)) (BEq.symm (replace_array map' component))
      | applied owner raw args =>
          refine (applied BEq.rfl ?_ ?_).congr (BEq.symm (replace_applied map owner raw args))
            (BEq.symm (replace_applied map' owner raw args))
          · cases owner with
            | none => exact .none
            | some outer => exact .some (hpart (List.mem_append_left _ (Option.mem_toList.2 rfl)))
          · rw [List.forall₂_map_left_iff, List.forall₂_map_right_iff, List.forall₂_same]
            exact fun arg harg => hpart (List.mem_append_right _ harg)
      | wildcard upper lower =>
          cases lower with
          | none => exact (hpart List.mem_cons_self).extendsOf
          | some lower =>
              exact (hpart (List.mem_cons_of_mem _ (List.mem_singleton.2 rfl))).superOf

end Covers

/-- Substituting in a well formed type is replacing, up to equality, also where the substitution is
empty. -/
theorem substitute_beq_replace (map : Substitution) {t : Ty} (hformed : t.WellFormed) :
    (t.substitute map == t.replace map) = true := by
  cases hempty : map.isEmpty with
  | true =>
      rw [substitute_of_isEmpty hempty, List.isEmpty_iff.1 hempty]
      exact BEq.symm (replace_fixed hformed (vars_of_forall (fun _ => BEq.rfl) t))
  | false =>
      rw [substitute_of_not_isEmpty hempty]
      exact BEq.rfl

namespace Covers

variable {known : List TypeVar} {t : Ty}

/-- Substituting more general values for fewer variables leaves a well formed type more general. -/
theorem substitute {map map' : Substitution}
    (hmap : ∀ {key value}, map.lookup key = some value →
      ∃ value', map'.lookup key = some value' ∧ Covers known value value')
    (hformed : t.WellFormed) (ht : t.Vars fun param => known.contains param = true) :
    Covers known (t.substitute map) (t.substitute map') :=
  (replace hmap ht).congr (BEq.symm (substitute_beq_replace map hformed))
    (BEq.symm (substitute_beq_replace map' hformed))

/-- A well formed type covers what it becomes by a substitution. -/
theorem of_substitute (map : Substitution) (hformed : t.WellFormed)
    (ht : t.Vars fun param => known.contains param = true) : Covers known t (t.substitute map) := by
  have hnone {key : TypeVar} {value : Ty} (h : List.lookup key ([] : Substitution) = some value) :
      ∃ value', map.lookup key = some value' ∧ Covers known value value' := by cases h
  exact substitute hnone hformed ht

/-- A well formed type covers itself. -/
theorem refl (hformed : t.WellFormed) (ht : t.Vars fun param => known.contains param = true) :
    Covers known t t := by
  have h := of_substitute [] hformed ht
  rwa [substitute_of_isEmpty rfl] at h

end Covers

/-! ## Finitely many types -/

namespace FinitelyMany

variable {holds other : Ty → Prop}

/-- What implies a property of finitely many types is one. -/
theorem mono (h : FinitelyMany holds) (hother : ∀ t, other t → holds t) : FinitelyMany other := by
  obtain ⟨pool, hpool⟩ := h
  exact ⟨pool, fun t ht => hpool t (hother t ht)⟩

/-- Finitely many types have one of two properties that finitely many have. -/
theorem or (h : FinitelyMany holds) (hother : FinitelyMany other) :
    FinitelyMany fun t => holds t ∨ other t := by
  obtain ⟨pool, hpool⟩ := h
  obtain ⟨others, hothers⟩ := hother
  refine ⟨pool ++ others, fun t ht => ?_⟩
  rcases ht with ht | ht
  · obtain ⟨p, hp, heq⟩ := hpool t ht
    exact ⟨p, List.mem_append_left _ hp, heq⟩
  · obtain ⟨p, hp, heq⟩ := hothers t ht
    exact ⟨p, List.mem_append_right _ hp, heq⟩

/-- Finitely many types are equal to what is made of finitely many types. -/
theorem image (h : FinitelyMany holds) (build : Ty → Ty)
    (hbuild : ∀ {s t}, (s == t) = true → (build s == build t) = true) :
    FinitelyMany fun t => ∃ s, holds s ∧ (t == build s) = true := by
  obtain ⟨pool, hpool⟩ := h
  refine ⟨pool.map build, fun t ht => ?_⟩
  obtain ⟨s, hs, heq⟩ := ht
  obtain ⟨p, hp, hequal⟩ := hpool s hs
  exact ⟨build p, List.mem_map_of_mem hp, BEq.trans heq (hbuild hequal)⟩

/-- Finitely many wildcards have finitely many lower bounds, and no other upper bound than the
universal supertype. -/
theorem lower (h : FinitelyMany holds) :
    FinitelyMany fun t =>
      ∃ upper s, t = .wildcard upper (some s) ∧ upper.isTop = true ∧ holds s := by
  have hbuild {s t : Ty} (heq : (s == t) = true) :
      (Ty.wildcard .top (some s) == .wildcard .top (some t)) = true := by
    rw [wildcard_beq_wildcard, Bool.and_eq_true]
    exact ⟨BEq.rfl, heq⟩
  refine (h.image (fun s => .wildcard .top (some s)) hbuild).mono ?_
  rintro _ ⟨upper, s, rfl, htop, hs⟩
  refine ⟨s, hs, ?_⟩
  rw [wildcard_beq_wildcard, Bool.and_eq_true]
  exact ⟨BEq.symm (top_beq htop), BEq.rfl⟩

/-- Finitely many types stand in a relation to a member of a list, if they do so to each. -/
theorem exists_mem {related : Ty → Ty → Prop} {list : List Ty}
    (h : ∀ member ∈ list, FinitelyMany fun t => related t member) :
    FinitelyMany fun t => ∃ member ∈ list, related t member := by
  obtain ⟨pools, hpools⟩ := List.exists_forall₂ h
  refine ⟨pools.flatten, fun t ht => ?_⟩
  obtain ⟨member, hmember, hrelated⟩ := ht
  obtain ⟨pool, hpool, hcover⟩ := hpools.exists_mem hmember
  obtain ⟨p, hp, heq⟩ := hcover t hrelated
  exact ⟨p, List.mem_flatten_of_mem hpool hp, heq⟩

end FinitelyMany

/-- The known variables are finitely many. -/
theorem finitelyMany_vars (known : List TypeVar) :
    FinitelyMany fun t => ∃ param, t = .var param ∧ known.contains param = true := by
  refine ⟨known.map .var, ?_⟩
  rintro _ ⟨param, rfl, hknown⟩
  obtain ⟨other, hother, heq⟩ := List.contains_iff_exists_mem_beq.1 hknown
  exact ⟨.var other, List.mem_map_of_mem hother, heq⟩

/-- Finitely many names are that at the head of a type. -/
theorem finitelyMany_named (t : Ty) :
    FinitelyMany fun s => ∃ head, s = .named head ∧ t.headName? = some head.name := by
  refine ⟨t.headName?.toList.map fun name => .named ⟨name, .classType, 0⟩, ?_⟩
  rintro _ ⟨head, rfl, hname⟩
  rw [hname]
  exact ⟨_, List.mem_singleton.2 rfl, Named.beq_iff.2 rfl⟩

/-- Finitely many lists are related to a list, if finitely many types are related to each of its
members. -/
theorem exists_lists_of_finitelyMany {related : Ty → Ty → Prop} {list : List Ty}
    (h : ∀ member ∈ list, FinitelyMany fun t => related t member) :
    ∃ pools : List (List Ty), ∀ types, List.Forall₂ related types list →
      ∃ pool ∈ pools, Matches types pool := by
  induction list with
  | nil =>
      refine ⟨[[]], fun types htypes => ?_⟩
      cases htypes
      exact ⟨[], List.mem_singleton.2 rfl, .nil⟩
  | cons first rest ih =>
      rw [List.forall_mem_cons] at h
      obtain ⟨⟨pool, hpool⟩, hrest⟩ := h
      obtain ⟨pools, hpools⟩ := ih hrest
      refine ⟨pool.flatMap fun p => pools.map (p :: ·), fun types htypes => ?_⟩
      cases htypes with
      | @cons t _ others _ hfirst hothers =>
          obtain ⟨p, hp, heq⟩ := hpool t hfirst
          obtain ⟨ps, hps, hmatches⟩ := hpools others hothers
          exact ⟨p :: ps, List.mem_flatMap.2 ⟨p, hp, List.mem_map_of_mem hps⟩, .cons heq hmatches⟩

/-- Finitely many owners are related to an owner, if finitely many types are related to it. -/
theorem exists_owners_of_finitelyMany {related : Ty → Ty → Prop} {owner' : Option Ty}
    (h : ∀ outer' ∈ owner', FinitelyMany fun t => related t outer') :
    ∃ pool : List (Option Ty), ∀ owner, Option.Rel related owner owner' →
      ∃ p ∈ pool, (owner == p) = true := by
  cases owner' with
  | none =>
      refine ⟨[none], fun owner howner => ?_⟩
      cases howner
      exact ⟨none, List.mem_singleton.2 rfl, rfl⟩
  | some outer' =>
      obtain ⟨pool, hpool⟩ := h outer' rfl
      refine ⟨pool.map some, fun owner howner => ?_⟩
      cases howner with
      | some hrelated =>
          obtain ⟨p, hp, heq⟩ := hpool _ hrelated
          exact ⟨some p, List.mem_map_of_mem hp, heq⟩

/-- An applied type is covered by finitely many applied types if its parts are. -/
theorem finitelyMany_covers_applied {known : List TypeVar} {owner' : Option Ty} {args' : List Ty}
    (raw' : ClassName)
    (h : ∀ part ∈ (Ty.applied owner' raw' args').parts,
      FinitelyMany fun t => Covers known t part) :
    FinitelyMany fun t => ∃ owner raw args,
      t = .applied owner raw args ∧ (raw.toNamed == raw') = true ∧
      Option.Rel (Covers known) owner owner' ∧ List.Forall₂ (Covers known) args args' := by
  obtain ⟨owners, howners⟩ := exists_owners_of_finitelyMany fun outer' houter' =>
    h outer' (List.mem_append_left _ (Option.mem_toList.2 houter'))
  obtain ⟨lists, hlists⟩ := exists_lists_of_finitelyMany fun arg' harg' =>
    h arg' (List.mem_append_right _ harg')
  refine ⟨owners.flatMap fun owner => lists.map fun args => .applied owner raw' args, ?_⟩
  rintro _ ⟨owner, raw, args, rfl, hraw, howner, hargs⟩
  obtain ⟨other, hother, hequal⟩ := howners owner howner
  obtain ⟨list, hlist, hmatches⟩ := hlists args hargs
  exact ⟨.applied other raw' list,
    List.mem_flatMap.2 ⟨other, hother, List.mem_map_of_mem hlist⟩,
    applied_congr hequal hraw hmatches⟩

/-- A type is covered by finitely many types. -/
theorem finitelyMany_covers (known : List TypeVar) (t' : Ty) :
    FinitelyMany fun t => Covers known t t' := by
  have hvars := finitelyMany_vars known
  induction t' using parts_induction with
  | step t' ih =>
      cases t' with
      | named head' =>
          have hself : FinitelyMany fun t => (t == .named head') = true :=
            ⟨[.named head'], fun t ht => ⟨_, List.mem_singleton.2 rfl, ht⟩⟩
          refine (hvars.or hself).mono fun t ht => ?_
          cases ht with
          | var hknown => exact .inl ⟨_, rfl, hknown⟩
          | named hname => exact .inr hname
      | applied owner' raw' args' =>
          refine (hvars.or (finitelyMany_covers_applied raw' ih)).mono fun t ht => ?_
          cases ht with
          | var hknown => exact .inl ⟨_, rfl, hknown⟩
          | applied hraw howner hargs => exact .inr ⟨_, _, _, rfl, hraw, howner, hargs⟩
      | array component' =>
          have hcomponent := (ih component' (List.mem_singleton.2 rfl)).image .array id
          refine (hvars.or hcomponent).mono fun t ht => ?_
          cases ht with
          | var hknown => exact .inl ⟨_, rfl, hknown⟩
          | array h => exact .inr ⟨_, h, BEq.rfl⟩
      | var param' =>
          refine hvars.mono fun t ht => ?_
          cases ht with
          | var hknown => exact ⟨_, rfl, hknown⟩
      | wildcard upper' lower' =>
          cases lower' with
          | none =>
              have hupper := (ih upper' List.mem_cons_self).image (.wildcard · none)
                fun h => by rw [wildcard_beq_wildcard, h]; rfl
              refine (hvars.or (hupper.or hvars.lower)).mono fun t ht => ?_
              cases ht with
              | var hknown => exact .inl ⟨_, rfl, hknown⟩
              | upper h => exact .inr (.inl ⟨_, h, BEq.rfl⟩)
              | unbounded htop _ hknown => exact .inr (.inr ⟨_, _, rfl, htop, _, rfl, hknown⟩)
          | some lower' =>
              have hlower := (ih lower' (List.mem_cons_of_mem _ (List.mem_singleton.2 rfl))).lower
              refine (hvars.or hlower).mono fun t ht => ?_
              cases ht with
              | var hknown => exact .inl ⟨_, rfl, hknown⟩
              | lower htop _ h => exact .inr ⟨_, _, rfl, htop, h⟩

/-- Finitely many variables stand in the types of a list, if it is so for each of them. -/
theorem exists_known_all {types : List Ty}
    (h : ∀ t ∈ types, ∃ known : List TypeVar, t.Vars fun param => known.contains param = true) :
    ∃ known : List TypeVar, ∀ t ∈ types, t.Vars fun param => known.contains param = true := by
  obtain ⟨lists, hlists⟩ := List.exists_forall₂ h
  refine ⟨lists.flatten, fun t ht => ?_⟩
  obtain ⟨known, hknown, hvars⟩ := hlists.exists_mem ht
  refine hvars.mono fun param hparam => ?_
  obtain ⟨other, hother, heq⟩ := List.contains_iff_exists_mem_beq.1 hparam
  exact List.contains_iff_exists_mem_beq.2 ⟨other, List.mem_flatten_of_mem hknown hother, heq⟩

/-- Finitely many variables stand in a type. -/
theorem exists_known (t : Ty) :
    ∃ known : List TypeVar, t.Vars fun param => known.contains param = true := by
  induction t using parts_induction with
  | step t ih =>
      cases t with
      | var param => exact ⟨[param], vars_var.2 (by simp)⟩
      | named | applied | array | wildcard =>
          obtain ⟨known, hknown⟩ := exists_known_all ih
          exact ⟨known, .intro nofun hknown⟩

end Ty

end Nominal
