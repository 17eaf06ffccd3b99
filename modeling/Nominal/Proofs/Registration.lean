import Mathlib.Data.List.Nodup
import Nominal.Hierarchy.Standard
import Nominal.Proofs.Extension
import Nominal.Proofs.Inheritance

/-!
# Registering and removing declarations

A table that declares one more name extends the table before. So, among types without owners, what
has been found out about supertypes and assignability stays true when a declaration is registered
under a new name, and what was rejected stays rejected when a declaration is removed. With owners
this can fail: the declaration of an enclosing type gives values to parameters that had none.
-/

namespace Nominal

namespace Table

variable {table larger smaller : Table} {declaration : Declaration} {name : String}

/-- The tables that come about by registering, replacing and removing declarations. -/
inductive Reachable : Table → Prop where
  | base : Reachable .base
  | standard : Reachable Library.standard.table
  | add {table table' : Table} {declaration : Declaration} :
      Reachable table → table.add declaration = .ok table' → Reachable table'
  | upsert {table table' : Table} {declaration : Declaration} :
      Reachable table → table.upsert declaration = .ok table' → Reachable table'
  | remove {table table' : Table} {name : String} {declaration : Declaration} :
      Reachable table → table.remove name = .ok (declaration, table') → Reachable table'

/-! ## Distinct names -/

/-- Putting a declaration adds its name, unless it is there. -/
theorem map_name_put (declaration : Declaration) (entries : List Declaration) :
    (put declaration entries).map (·.head.name) =
      if declaration.head.name ∈ entries.map (·.head.name) then entries.map (·.head.name)
      else (entries.map (·.head.name)).concat declaration.head.name := by
  induction entries with
  | nil => simp [put]
  | cons entry rest ih =>
      by_cases h : entry.head.name = declaration.head.name
      · simp [put, h]
      · have hne : ¬ declaration.head.name = entry.head.name := fun heq => h heq.symm
        simp only [put, beq_iff_eq, h, if_false, List.map_cons, ih, List.mem_cons, hne, false_or]
        split <;> simp

/-- Putting a declaration keeps names distinct. -/
theorem nodup_put {entries : List Declaration} (h : (entries.map (·.head.name)).Nodup)
    (declaration : Declaration) : ((put declaration entries).map (·.head.name)).Nodup := by
  rw [map_name_put]
  split
  · exact h
  · rename_i hnew
    exact List.Nodup.concat hnew h

/-- The table after a registration. -/
theorem upsert_eq (h : table.upsert declaration = .ok larger) :
    larger = ⟨put declaration table.entries⟩ := by
  rw [upsert] at h
  split at h
  · cases h
  · exact (Except.ok.inj h).symm

/-- A declaration that is registered under a new name was not there before. -/
theorem add_eq (h : table.add declaration = .ok larger) :
    table.find? declaration.head.name = none ∧ table.upsert declaration = .ok larger := by
  rw [add] at h
  split at h
  · cases h
  · rename_i hnew
    exact ⟨Option.not_isSome_iff_eq_none.1 hnew, h⟩

/-- The table after a removal. -/
theorem remove_eq (h : table.remove name = .ok (declaration, smaller)) :
    smaller = ⟨table.entries.eraseP fun entry => entry.head.name == name⟩ := by
  rw [remove] at h
  split at h
  · cases h
  · cases h
    rfl

/-- Registration keeps names distinct. -/
theorem nodup_upsert (h : table.upsert declaration = .ok larger) (hnodup : table.names.Nodup) :
    larger.names.Nodup := by
  rw [upsert_eq h]
  exact nodup_put hnodup _

/-- The names of the standard table are distinct. -/
theorem nodup_standard : Library.standard.table.names.Nodup :=
  Library.installAll_table (fun table => table.names.Nodup)
    (fun h => nodup_upsert (add_eq h).2) Library.installAll_standard (by decide)

/-- The names of every table that comes about are distinct. -/
theorem Reachable.nodup (h : table.Reachable) : table.names.Nodup := by
  induction h with
  | base => decide
  | standard => exact nodup_standard
  | add _ hadd ih => exact nodup_upsert (add_eq hadd).2 ih
  | upsert _ hupsert ih => exact nodup_upsert hupsert ih
  | remove _ hremove ih =>
      rw [remove_eq hremove]
      exact (List.eraseP_sublist.map _).nodup ih

/-! ## What the table finds -/

/-- What was found under other names is found after a removal, and nothing else. -/
theorem find?_eraseP {entries : List Declaration} (h : (entries.map (·.head.name)).Nodup)
    (name other : String) :
    (entries.eraseP fun entry => entry.head.name == name).find?
        (fun entry => entry.head.name == other) =
      if name = other then none else entries.find? (fun entry => entry.head.name == other) := by
  induction entries with
  | nil => simp
  | cons entry rest ih =>
      rw [List.map_cons, List.nodup_cons] at h
      by_cases hname : entry.head.name = name
      · subst hname
        by_cases hother : entry.head.name = other
        · subst hother
          have hnone : rest.find? (fun found => found.head.name == entry.head.name) = none := by
            rw [List.find?_eq_none]
            intro found hfound heq
            exact h.1 (List.mem_map.2 ⟨found, hfound, beq_iff_eq.1 heq⟩)
          simp [hnone]
        · simp [hother]
      · by_cases hother : entry.head.name = other
        · subst hother
          simp [hname, Ne.symm hname]
        · simp [hname, hother, ih h.2]

/-- A table with one more declaration extends the table before. -/
theorem extendedBy_add (h : table.add declaration = .ok larger) :
    table.env.ExtendedBy larger.env where
  declared := by
    intro name found hfound
    obtain ⟨hnew, hupsert⟩ := add_eq h
    have hne : declaration.head.name ≠ name := by
      rintro rfl
      cases hnew.symm.trans hfound
    refine ⟨found, ?_, .refl found⟩
    show larger.find? name = some found
    rw [upsert_eq hupsert, find?, find?_put, if_neg hne]
    exact hfound
  cloneable := BEq.rfl
  serializable := BEq.rfl

/-- A table extends what is left of it after a removal. -/
theorem extendedBy_remove (hnodup : table.names.Nodup)
    (h : table.remove name = .ok (declaration, smaller)) : smaller.env.ExtendedBy table.env where
  declared := by
    intro other found hfound
    have hfind : smaller.find? other = some found := hfound
    rw [remove_eq h, find?, find?_eraseP hnodup] at hfind
    split at hfind
    · cases hfind
    · exact ⟨found, hfind, .refl found⟩
  cloneable := BEq.rfl
  serializable := BEq.rfl

end Table

/-! ## Types without owners -/

namespace Ty

/-- A node that has no owner. -/
def OwnerFreeAt : Ty → Prop
  | .applied owner _ _ => owner = none
  | .named _ | .array _ | .var _ | .wildcard .. => True

/-- A type without owners. -/
def OwnerFree (t : Ty) : Prop := t.Everywhere OwnerFreeAt

/-- Names have no owners. -/
theorem ownerFree_named (head : Named) : (Ty.named head).OwnerFree :=
  .intro trivial (List.forall_mem_nil _)

namespace OwnerFree

/-- An array has no owners if its component has none. -/
theorem array {component : Ty} (h : component.OwnerFree) : (Ty.array component).OwnerFree :=
  .intro trivial (List.forall_mem_singleton.2 h)

/-- An applied type has no owners if its arguments have none. -/
theorem applied {raw : ClassName} {args : List Ty} (h : ∀ arg ∈ args, arg.OwnerFree) :
    (Ty.applied none raw args).OwnerFree :=
  .intro rfl h

/-- A wildcard has no owners if its bounds have none. -/
theorem wildcard {upper : Ty} {lower : Option Ty} (hupper : upper.OwnerFree)
    (hlower : ∀ bound ∈ lower, bound.OwnerFree) : (Ty.wildcard upper lower).OwnerFree :=
  .intro trivial (List.forall_mem_cons.2 ⟨hupper, fun bound hbound =>
    hlower bound (Option.mem_toList.1 hbound)⟩)

/-- The wildcard for the subtypes of a type without owners has none. -/
theorem extendsOf {t : Ty} (h : t.OwnerFree) : t.extendsOf.OwnerFree := by
  cases t with
  | wildcard upper lower =>
      cases lower with
      | none => exact h
      | some lower => exact wildcard (ownerFree_named _) nofun
  | named | applied | array | var => exact h.wildcard nofun

/-- The wildcard for the supertypes of a type without owners has none. -/
theorem superOf {t : Ty} (h : t.OwnerFree) : t.superOf.OwnerFree := by
  have hlower {lower : Ty} (h : lower.OwnerFree) : (Ty.wildcard .top (some lower)).OwnerFree :=
    wildcard (ownerFree_named _) fun _ heq => Option.some.inj heq ▸ h
  cases t with
  | wildcard upper lower =>
      cases lower with
      | none => exact wildcard (ownerFree_named _) nofun
      | some lower => exact hlower (h.part (List.mem_cons_of_mem _ (List.mem_singleton.2 rfl)))
  | named | applied | array | var => exact hlower h

/-- Replacing variables by types without owners brings none in. -/
theorem replace {map : Substitution} (hmap : map.Values OwnerFree) {t : Ty} (h : t.OwnerFree) :
    (t.replace map).OwnerFree := by
  induction t using parts_induction with
  | step t ih =>
      have hpart {part : Ty} (hpart : part ∈ t.parts) : (part.replace map).OwnerFree :=
        ih part hpart (h.part hpart)
      cases t with
      | named head => exact h
      | var param =>
          rw [Ty.replace]
          cases hlookup : map.lookup param with
          | none => exact h
          | some value => exact hmap.lookup hlookup
      | applied owner raw args =>
          obtain rfl : owner = none := h.self
          rw [Ty.replace, replaceOption_eq, replaceList_eq]
          split
          · exact h
          · refine applied fun arg' harg' => ?_
            obtain ⟨arg, harg, rfl⟩ := List.mem_map.1 harg'
            exact hpart (List.mem_append_right _ harg)
      | array component =>
          rw [Ty.replace]
          split
          · exact h
          · exact (hpart (List.mem_singleton.2 rfl)).array
      | wildcard upper lower =>
          cases lower with
          | none => exact (hpart List.mem_cons_self).extendsOf
          | some lower =>
              exact (hpart (List.mem_cons_of_mem _ (List.mem_singleton.2 rfl))).superOf

/-- Substituting types without owners brings none in. -/
theorem substitute {map : Substitution} (hmap : map.Values OwnerFree) {t : Ty} (h : t.OwnerFree) :
    (t.substitute map).OwnerFree := by
  rw [Ty.substitute]
  split
  · exact h
  · exact h.replace hmap

end OwnerFree

end Ty

namespace Context

/-- The given types, declared supertypes and bounds have no owners. -/
structure OwnerFree (context : Context) (roots : List Ty) : Prop where
  roots : ∀ t ∈ roots, t.OwnerFree
  declared : ∀ {name declaration}, context.env.find? name = some declaration →
    ∀ t ∈ declaration.supertypes, t.OwnerFree
  bounds : ∀ {param}, ∀ bound ∈ context.heap.bounds param, bound.OwnerFree

variable {context first second : Context} {roots : List Ty}

/-- Nothing that is met has owners. -/
theorem OwnerFree.met (h : context.OwnerFree roots) {t : Ty} (ht : context.Met roots t) :
    t.OwnerFree := by
  have hinherits : context.Inherits Ty.OwnerFree :=
    { named := Ty.ownerFree_named
      array := fun h => h.array
      part := fun h hpart => h.part hpart
      declared := h.declared
      bounds := h.bounds
      substitute := fun ht hu => hu.substitute (values_argumentsOf _
        (fun _ harg => ht.part (List.mem_append_right _ harg))
        fun howner => by cases ht.self.symm.trans howner) }
  induction ht with
  | root hroot => exact h.roots _ hroot
  | part _ hpart ih => exact ih.part hpart
  | bound _ hbound _ => exact h.bounds _ hbound
  | direct _ hdirect ih => exact hinherits.direct ih hdirect
  | declared _ hfound hs _ => exact h.declared hfound _ hs

/-- Among types without owners a context is extended by one that knows more. -/
theorem OwnerFree.extended (h : first.OwnerFree roots)
    (hconcordant : Concordant [first, second] roots) (hdeclared : first.env.ExtendedBy second.env) :
    Extended first second roots where
  concordant := hconcordant
  declared := hdeclared
  owners hmet := by cases (h.met hmet).self

/-- Registering a declaration under a new name only adds facts: among types without owners, every
supertype stays one and every pair that was assignable stays so, for either variance and with or
without boxing. Symmetrically, removing a declaration makes no pair assignable that was not. -/
theorem registration_monotone {table : Table} (hreachable : table.Reachable)
    {before after : Context} (hbefore : before.env = table.env)
    (hconcordant : Concordant [before, after] roots) :
    (∀ {declaration larger}, table.add declaration = .ok larger → after.env = larger.env →
      before.OwnerFree roots →
      (∀ {t members members'}, t ∈ roots → before.Lists roots t members →
        after.Lists roots t members' → ∀ s ∈ members, members'.contains s = true) ∧
      ∀ (boxing : Boxing) (options : AssignOptions) (receiver payload : Ty) (answer : Bool),
        (if options.boxing then boxing.box receiver else receiver) ∈ roots →
        (if options.boxing then boxing.box payload else payload) ∈ roots →
        before.Answers roots boxing options receiver payload true →
        after.Answers roots boxing options receiver payload answer → answer = true) ∧
    ∀ {name declaration smaller}, table.remove name = .ok (declaration, smaller) →
      after.env = smaller.env → after.OwnerFree roots →
      ∀ (boxing : Boxing) (options : AssignOptions) (receiver payload : Ty) (answer : Bool),
        (if options.boxing then boxing.box receiver else receiver) ∈ roots →
        (if options.boxing then boxing.box payload else payload) ∈ roots →
        before.Answers roots boxing options receiver payload false →
        after.Answers roots boxing options receiver payload answer → answer = false := by
  constructor
  · intro declaration larger hadd hafter hfree
    have hextended := hfree.extended hconcordant (hbefore ▸ hafter ▸ Table.extendedBy_add hadd)
    exact ⟨fun ht h h' _ hs => hextended.lists ht h h' hs,
      fun _ _ _ _ _ hreceiver hpayload h h' => hextended.answers hreceiver hpayload h h'⟩
  · intro name declaration smaller hremove hafter hfree boxing options receiver payload answer
      hreceiver hpayload h h'
    have hextended := hfree.extended hconcordant.swap
      (hbefore ▸ hafter ▸ Table.extendedBy_remove hreachable.nodup hremove)
    -- were the pair accepted after the removal, it would have been before
    cases answer with
    | false => rfl
    | true => exact (hextended.answers hreceiver hpayload h' h).symm

/-- A class that can be copied. -/
def parcel : Named := ⟨"Parcel", .classType, 0⟩

/-- A class below it. -/
def letter : Named := ⟨"Letter", .classType, 0⟩

/-- The declaration of the upper class. -/
def parcelDeclaration : Declaration := ⟨parcel, [], none, [.named .cloneable]⟩

/-- The declaration of the lower class. -/
def letterDeclaration : Declaration := ⟨letter, [], some (.named parcel), []⟩

/-- A table in which the lower class is missing. -/
def parcels : Table := ⟨Table.base.entries ++ [parcelDeclaration]⟩

/-- The table with both classes. -/
def letters : Table := ⟨parcels.entries ++ [letterDeclaration]⟩

/-- The names that are met from the lower class. -/
def mail : List Named := [letter, parcel, .cloneable, .top]

/-- The context of a table without variables. -/
def ofTable (table : Table) : Context := ⟨table.env, .empty, true⟩

/-- Only these names are met in the two tables. -/
theorem mem_mail {table : Table} (htable : table ∈ [parcels, letters]) {t : Ty}
    (h : (ofTable table).Met (mail.map Ty.named) t) : t ∈ mail.map Ty.named := by
  refine h.mem_of_closed (fun _ => id) ?_ ?_ ?_ ?_
  · simp [mail, Ty.parts]
  · simp [mail]
  · rw [List.mem_pair] at htable
    simp only [mail, List.map_cons, List.map_nil, List.forall_mem_cons]
    rcases htable with rfl | rfl
    · exact ⟨⟨[], ⟨0, rfl⟩, by simp⟩, ⟨[.named .cloneable], ⟨0, rfl⟩, by simp⟩,
        ⟨[.top], ⟨0, rfl⟩, by simp [Ty.top]⟩, ⟨[], ⟨0, rfl⟩, by simp⟩, List.forall_mem_nil _⟩
    · exact ⟨⟨[.named parcel], ⟨0, rfl⟩, by simp⟩, ⟨[.named .cloneable], ⟨0, rfl⟩, by simp⟩,
        ⟨[.top], ⟨0, rfl⟩, by simp [Ty.top]⟩, ⟨[], ⟨0, rfl⟩, by simp⟩, List.forall_mem_nil _⟩
  · intro head declaration _ hfound s hs
    have hentry : declaration ∈ letters.entries := by
      have hmem := List.mem_of_find?_eq_some hfound
      rw [List.mem_pair] at htable
      rcases htable with rfl | rfl
      · exact List.mem_append_left _ hmem
      · exact hmem
    have hall : ∀ entry ∈ letters.entries, ∀ s ∈ entry.supertypes, s ∈ mail.map Ty.named := by
      simp [letters, parcels, Table.base, parcelDeclaration, letterDeclaration,
        Declaration.supertypes, mail]
    exact hall declaration hentry s hs

/-- The two tables agree. -/
theorem mail_concordant : Concordant [ofTable parcels, ofTable letters] (mail.map Ty.named) := by
  have hmem {context : Context} (hcontext : context ∈ [ofTable parcels, ofTable letters]) {t : Ty}
      (ht : context.Met (mail.map Ty.named) t) : t ∈ mail.map Ty.named := by
    rcases List.mem_pair.1 hcontext with rfl | rfl
    · exact mem_mail (.head _) ht
    · exact mem_mail (.tail _ (.head _)) ht
  constructor
  · intro context context' param param' hcontext _ hparam _ _
    simpa [mail] using hmem hcontext hparam
  · intro context context' head head' hcontext hcontext' hhead hhead' heq
    have hkinds : ∀ head ∈ mail, ∀ head' ∈ mail, (head == head') = true →
        head.kind = head'.kind := by decide
    have hnamed {head : Named} (h : .named head ∈ mail.map Ty.named) : head ∈ mail := by
      simpa using h
    exact hkinds head (hnamed (hmem hcontext hhead)) head' (hnamed (hmem hcontext' hhead')) heq

/-- The smaller table has no owners. -/
theorem mail_ownerFree : (ofTable parcels).OwnerFree (mail.map Ty.named) where
  roots t ht := by
    obtain ⟨head, _, rfl⟩ := List.mem_map.1 ht
    exact Ty.ownerFree_named head
  declared {name declaration} hfound t ht := by
    have hnames : ∀ entry ∈ parcels.entries, ∀ s ∈ entry.supertypes, ∃ head, s = Ty.named head := by
      simp [parcels, Table.base, parcelDeclaration, Declaration.supertypes]
    have hfind : parcels.find? name = some declaration := hfound
    obtain ⟨head, rfl⟩ := hnames declaration (List.mem_of_find?_eq_some hfind) t ht
    exact Ty.ownerFree_named head
  bounds {param} bound hbound := by
    cases List.mem_singleton.1 hbound
    exact Ty.ownerFree_named _

/-- Registering the lower class keeps what was known about the upper one, and removing it again
does not make the upper class assignable to it. -/
theorem letter_registered :
    let roots := mail.map Ty.named
    let lists (table : Table) := (ofTable table).Lists roots (.named parcel)
    let answers (table : Table) (receiver : Named) :=
      (ofTable table).Answers roots .empty ⟨.covariant, false⟩ (.named receiver) (.named parcel)
    (lists parcels [.named parcel, .named .cloneable, .top] ∧
      ∃ members, lists letters members ∧ members.contains (.named .cloneable) = true) ∧
    (answers parcels .cloneable true ∧ answers letters .cloneable true ∧
      ∀ answer, answers letters .cloneable answer → answer = true) ∧
    answers letters letter false ∧ answers parcels letter false ∧
      ∀ answer, answers parcels letter answer → answer = false := by
  intro roots lists answers
  have hparcels : parcels.Reachable :=
    .add .base (show Table.base.add parcelDeclaration = _ from rfl)
  have hadd : parcels.add letterDeclaration = .ok letters := rfl
  have hremove : letters.remove "Letter" = .ok (letterDeclaration, parcels) := rfl
  have hmem {head : Named} (h : head ∈ mail) : .named head ∈ roots := List.mem_map_of_mem h
  have hparcel := hmem (show parcel ∈ mail from .tail _ (.head _))
  have hadded := (registration_monotone hparcels rfl mail_concordant).1 hadd rfl mail_ownerFree
  have hlists : lists parcels [.named parcel, .named .cloneable, .top] :=
    ⟨5, .empty, _, memoSound_empty, rfl⟩
  have hlists' : lists letters [.named parcel, .named .cloneable, .top] :=
    ⟨5, .empty, _, memoSound_empty, rfl⟩
  have hyes : answers parcels .cloneable true := ⟨5, .empty, _, memoSound_empty, rfl⟩
  have hyes' : answers letters .cloneable true := ⟨5, .empty, _, memoSound_empty, rfl⟩
  have hno : answers letters letter false := ⟨5, .empty, _, memoSound_empty, rfl⟩
  have hno' : answers parcels letter false := ⟨5, .empty, _, memoSound_empty, rfl⟩
  refine ⟨⟨hlists, _, hlists', ?_⟩, ⟨hyes, hyes', fun answer h => ?_⟩, hno, hno',
    fun answer h => ?_⟩
  · exact hadded.1 hparcel hlists hlists' _ (.tail _ (.head _))
  · exact hadded.2 _ ⟨_, false⟩ _ _ answer (hmem (.tail _ (.tail _ (.head _)))) hparcel hyes h
  · exact (registration_monotone (hparcels.add hadd) rfl mail_concordant.swap).2 hremove rfl
      mail_ownerFree _ ⟨_, false⟩ _ _ answer (hmem (.head _)) hparcel hno h

end Context

end Nominal
