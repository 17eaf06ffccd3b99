import Mathlib.Data.List.Induction
import Nominal.Proofs.Registration
import Nominal.Script.Session

/-!
# Runs of a class table

A table is asked to register, replace and remove declarations, in any order, and refuses some of the
requests. What was granted is recorded. The table can be told from the records alone: a name finds
the declaration that was registered last, unless it was removed since, and names are listed in the
order in which they came in, where a name comes in when it is registered while it is not there. One
more record is `Tells.put` or `Tells.erase`; whole runs follow by induction. The main statement is
`run_tells_records`.
-/

namespace Nominal

namespace Table

/-- A request to a table. -/
inductive Change where
  | add (declaration : Declaration)
  | upsert (declaration : Declaration)
  | remove (name : String)

/-- Something that happened to a table. -/
inductive Record where
  | registered (declaration : Declaration)
  | removed (name : String)

/-- The name that a record is about. -/
def Record.name : Record → String
  | .registered declaration => declaration.head.name
  | .removed name => name

namespace Change

/-- The table after a request, or the reason why the request is refused. -/
def apply (table : Table) : Change → Except Refusal Table
  | .add declaration => table.add declaration
  | .upsert declaration => table.upsert declaration
  | .remove name => (table.remove name).map Prod.snd

/-- What is recorded of a request that is granted. -/
def record : Change → Record
  | .add declaration => .registered declaration
  | .upsert declaration => .registered declaration
  | .remove name => .removed name

end Change

/-- The table after several requests. A request that is refused leaves the table as it is. -/
def run (table : Table) : List Change → Table
  | [] => table
  | change :: rest =>
      match change.apply table with
      | .ok table' => run table' rest
      | .error _ => run table rest

/-- What is recorded of several requests. -/
def records (table : Table) : List Change → List Record
  | [] => []
  | change :: rest =>
      match change.apply table with
      | .ok table' => change.record :: records table' rest
      | .error _ => records table rest

/-! ## What records tell -/

/-- The name was registered and has not been removed since. -/
def Stands (log : List Record) (name : String) : Prop :=
  ∃ before declaration later, log = before ++ .registered declaration :: later ∧
    declaration.head.name = name ∧ .removed name ∉ later

/-- The declaration was registered under the name, and nothing has happened to the name since. -/
def Current (log : List Record) (name : String) (declaration : Declaration) : Prop :=
  ∃ before later, log = before ++ .registered declaration :: later ∧
    declaration.head.name = name ∧ ∀ record ∈ later, record.name ≠ name

/-- The record at the position registers the name, which did not stand before and has not been
removed since. -/
def OpenedAt (log : List Record) (name : String) (position : Nat) : Prop :=
  ∃ before declaration later, log = before ++ .registered declaration :: later ∧
    declaration.head.name = name ∧ .removed name ∉ later ∧ ¬ Stands before name ∧
    position = before.length

/-- The records are why a request is refused. A name that is taken is noticed before a wrong number
of parameters. -/
inductive Refused (log : List Record) : Change → Refusal → Prop where
  | taken {declaration : Declaration} : Stands log declaration.head.name →
      Refused log (.add declaration) (.duplicateClass declaration.head.name)
  | added {declaration : Declaration} : ¬ Stands log declaration.head.name →
      declaration.params.length ≠ declaration.head.arity →
      Refused log (.add declaration) (.arityMismatch declaration.head.name declaration.head.arity
        declaration.params.length)
  | replaced {declaration : Declaration} : declaration.params.length ≠ declaration.head.arity →
      Refused log (.upsert declaration) (.arityMismatch declaration.head.name
        declaration.head.arity declaration.params.length)
  | unknown {name : String} : ¬ Stands log name → Refused log (.remove name) (.unknownClass name)

section Log

variable {log : List Record} {name : String} {declaration : Declaration} {position : Nat}

/-- Where one more record is split, the record in the middle is the new one, or the new one comes
last. -/
theorem concat_eq_split {last middle : Record} {before later : List Record} :
    log ++ [last] = before ++ middle :: later ↔
      (before = log ∧ middle = last ∧ later = []) ∨
        ∃ later', later = later' ++ [last] ∧ log = before ++ middle :: later' := by
  constructor
  · intro h
    rcases List.eq_nil_or_concat later with rfl | ⟨later', final, rfl⟩
    · obtain ⟨hlog, hlast⟩ := List.append_inj' h rfl
      cases hlast
      exact .inl ⟨hlog.symm, rfl, rfl⟩
    · rw [List.concat_eq_append] at h ⊢
      rw [← List.cons_append, ← List.append_assoc] at h
      obtain ⟨hlog, hlast⟩ := List.append_inj' h rfl
      cases hlast
      exact .inr ⟨later', rfl, hlog⟩
  · rintro (⟨rfl, rfl, rfl⟩ | ⟨later', rfl, rfl⟩)
    · rfl
    · simp

/-- A record registers the name, the name has not been removed since, and what was recorded before
has the property. -/
def RegisteredAfter (holds : List Record → Prop) (log : List Record) (name : String) : Prop :=
  ∃ before declaration later, log = before ++ .registered declaration :: later ∧
    declaration.head.name = name ∧ .removed name ∉ later ∧ holds before

section RegisteredAfter

variable {holds : List Record → Prop}

/-- A registration is one of its name, and leaves the earlier ones. -/
theorem registeredAfter_registered :
    RegisteredAfter holds (log ++ [.registered declaration]) name ↔
      RegisteredAfter holds log name ∨ (declaration.head.name = name ∧ holds log) := by
  unfold RegisteredAfter
  simp only [concat_eq_split]
  constructor
  · rintro ⟨before, found, later, ⟨rfl, hfound, _⟩ | ⟨later', rfl, hlog⟩, hname, hkept, hbefore⟩
    · cases hfound
      exact .inr ⟨hname, hbefore⟩
    · refine .inl ⟨before, found, later', hlog, hname, fun hmem => hkept ?_, hbefore⟩
      exact List.mem_append_left _ hmem
  · rintro (⟨before, found, later, hlog, hname, hkept, hbefore⟩ | ⟨hname, hbefore⟩)
    · refine ⟨before, found, _, .inr ⟨later, rfl, hlog⟩, hname, ?_, hbefore⟩
      simpa using hkept
    · exact ⟨log, declaration, [], .inl ⟨rfl, rfl, rfl⟩, hname, List.not_mem_nil, hbefore⟩

/-- A removal leaves the registrations of other names. -/
theorem registeredAfter_removed {gone : String} :
    RegisteredAfter holds (log ++ [.removed gone]) name ↔
      name ≠ gone ∧ RegisteredAfter holds log name := by
  unfold RegisteredAfter
  simp only [concat_eq_split]
  constructor
  · rintro ⟨before, found, later, ⟨_, hfound, _⟩ | ⟨later', rfl, hlog⟩, hname, hkept, hbefore⟩
    · cases hfound
    · rw [List.mem_append, List.mem_singleton, not_or] at hkept
      exact ⟨fun heq => hkept.2 (heq ▸ rfl), before, found, later', hlog, hname, hkept.1, hbefore⟩
  · rintro ⟨hne, before, found, later, hlog, hname, hkept, hbefore⟩
    refine ⟨before, found, _, .inr ⟨later, rfl, hlog⟩, hname, ?_, hbefore⟩
    rw [List.mem_append, List.mem_singleton, not_or]
    exact ⟨hkept, fun heq => hne (Record.removed.inj heq)⟩

end RegisteredAfter

/-- A name stands when it was registered, whatever was recorded before. -/
theorem stands_iff_registeredAfter :
    Stands log name ↔ RegisteredAfter (fun _ => True) log name := by
  unfold Stands RegisteredAfter
  simp only [and_true]

/-- A registration makes its name stand. -/
theorem stands_registered :
    Stands (log ++ [.registered declaration]) name ↔
      declaration.head.name = name ∨ Stands log name := by
  rw [stands_iff_registeredAfter, stands_iff_registeredAfter, registeredAfter_registered, and_true]
  exact or_comm

/-- After a removal the other names stand that stood before. -/
theorem stands_removed {gone : String} :
    Stands (log ++ [.removed gone]) name ↔ name ≠ gone ∧ Stands log name := by
  rw [stands_iff_registeredAfter, stands_iff_registeredAfter]
  exact registeredAfter_removed

/-- A registration opens its name at the end if the name did not stand. -/
theorem openedAt_registered :
    OpenedAt (log ++ [.registered declaration]) name position ↔
      OpenedAt log name position ∨
        (declaration.head.name = name ∧ ¬ Stands log name ∧ position = log.length) :=
  registeredAfter_registered

/-- After a removal the other names were opened where they were opened before. -/
theorem openedAt_removed {gone : String} :
    OpenedAt (log ++ [.removed gone]) name position ↔ name ≠ gone ∧ OpenedAt log name position :=
  registeredAfter_removed

/-- After a registration its declaration is current, and nothing changes for other names. -/
theorem current_registered {found : Declaration} :
    Current (log ++ [.registered declaration]) name found ↔
      if declaration.head.name = name then found = declaration else Current log name found := by
  unfold Current
  simp only [concat_eq_split]
  constructor
  · rintro ⟨before, later, ⟨_, hfound, _⟩ | ⟨later', rfl, hlog⟩, hname, hlater⟩
    · cases hfound
      rw [if_pos hname]
    · rw [List.forall_mem_append, List.forall_mem_singleton] at hlater
      rw [if_neg (show ¬ declaration.head.name = name from hlater.2)]
      exact ⟨before, later', hlog, hname, hlater.1⟩
  · intro h
    by_cases hname : declaration.head.name = name
    · rw [if_pos hname] at h
      subst h
      exact ⟨log, [], .inl ⟨rfl, rfl, rfl⟩, hname, List.forall_mem_nil _⟩
    · rw [if_neg hname] at h
      obtain ⟨before, later, hlog, hfound, hlater⟩ := h
      refine ⟨before, _, .inr ⟨later, rfl, hlog⟩, hfound, ?_⟩
      rw [List.forall_mem_append, List.forall_mem_singleton]
      exact ⟨hlater, hname⟩

/-- After a removal nothing is current under the name, and nothing changes for other names. -/
theorem current_removed {gone : String} {found : Declaration} :
    Current (log ++ [.removed gone]) name found ↔ gone ≠ name ∧ Current log name found := by
  unfold Current
  simp only [concat_eq_split]
  constructor
  · rintro ⟨before, later, ⟨_, hfound, _⟩ | ⟨later', rfl, hlog⟩, hname, hlater⟩
    · cases hfound
    · rw [List.forall_mem_append, List.forall_mem_singleton] at hlater
      exact ⟨hlater.2, before, later', hlog, hname, hlater.1⟩
  · rintro ⟨hne, before, later, hlog, hname, hlater⟩
    refine ⟨before, _, .inr ⟨later, rfl, hlog⟩, hname, ?_⟩
    rw [List.forall_mem_append, List.forall_mem_singleton]
    exact ⟨hlater, hne⟩

/-- What was opened is a record of the log. -/
theorem OpenedAt.lt_length (h : OpenedAt log name position) : position < log.length := by
  obtain ⟨before, found, later, rfl, _, _, _, rfl⟩ := h
  simp only [List.length_append, List.length_cons]
  omega

/-- A name stands exactly when it was opened somewhere. -/
theorem stands_iff_opened : Stands log name ↔ ∃ position, OpenedAt log name position := by
  constructor
  · induction log using List.reverseRecOn with
    | nil =>
        rintro ⟨before, _, _, hlog, _⟩
        simp at hlog
    | append_singleton log record ih =>
        intro h
        cases record with
        | registered declaration =>
            by_cases hstands : Stands log name
            · obtain ⟨position, hopened⟩ := ih hstands
              exact ⟨position, openedAt_registered.2 (.inl hopened)⟩
            · have hname := (stands_registered.1 h).resolve_right hstands
              exact ⟨log.length, openedAt_registered.2 (.inr ⟨hname, hstands, rfl⟩)⟩
        | removed gone =>
            obtain ⟨hne, hstands⟩ := stands_removed.1 h
            obtain ⟨position, hopened⟩ := ih hstands
            exact ⟨position, openedAt_removed.2 ⟨hne, hopened⟩⟩
  · rintro ⟨position, before, found, later, hlog, hname, hkept, _⟩
    exact ⟨before, found, later, hlog, hname, hkept⟩

end Log

/-! ## One request -/

variable {table table' : Table} {log : List Record} {change : Change}

/-- The names of the table are those that it finds. -/
theorem mem_names_iff {name : String} :
    name ∈ table.names ↔ ∃ declaration, table.find? name = some declaration := by
  rw [← Option.isSome_iff_exists, find?, List.find?_isSome, names, List.mem_map]
  simp only [beq_iff_eq]

/-- The records tell what the table finds, which names it lists and in which order. -/
structure Tells (log : List Record) (table : Table) : Prop where
  found : ∀ name declaration, table.find? name = some declaration ↔ Current log name declaration
  listed : ∀ name, name ∈ table.names ↔ Stands log name
  order : table.names.Pairwise fun earlier later =>
    ∀ i j, OpenedAt log earlier i → OpenedAt log later j → i < j

/-- The records tell what the table becomes when a declaration is put into it. -/
theorem Tells.put (h : Tells log table) (declaration : Declaration) :
    Tells (log ++ [.registered declaration]) ⟨Table.put declaration table.entries⟩ where
  found name found := by
    rw [current_registered, find?, find?_put]
    by_cases hname : declaration.head.name = name
    · rw [if_pos hname, if_pos hname, Option.some.injEq]
      exact eq_comm
    · rw [if_neg hname, if_neg hname]
      exact h.found name found
  listed name := by
    rw [stands_registered, ← h.listed, names, map_name_put]
    split
    · rename_i hold
      exact ⟨.inr, fun hor => hor.elim (fun heq => heq ▸ hold) id⟩
    · rw [List.concat_eq_append, List.mem_append, List.mem_singleton, or_comm, eq_comm]
      rfl
  order := by
    rw [names, map_name_put]
    split
    · -- the name keeps its place, since it was opened where it had been before
      rename_i hold
      have hstands := (h.listed _).1 hold
      refine h.order.imp fun hbefore i j hi hj => ?_
      have hkept {name : String} {position : Nat}
          (hopened : OpenedAt (log ++ [.registered declaration]) name position) :
          OpenedAt log name position :=
        (openedAt_registered.1 hopened).resolve_right fun hnew => hnew.2.1 (hnew.1 ▸ hstands)
      exact hbefore i j (hkept hi) (hkept hj)
    · rename_i hnew
      rw [List.concat_eq_append, List.pairwise_append]
      have hother {name : String} {position : Nat} (hname : name ∈ table.names)
          (hopened : OpenedAt (log ++ [.registered declaration]) name position) :
          OpenedAt log name position :=
        (openedAt_registered.1 hopened).resolve_right fun hlast => hnew (hlast.1 ▸ hname)
      refine ⟨h.order.imp_of_mem fun hfirst hsecond hbefore i j hi hj => ?_,
        List.pairwise_singleton _ _, fun earlier hearlier later hlater i j hi hj => ?_⟩
      · exact hbefore i j (hother hfirst hi) (hother hsecond hj)
      · -- the new name comes last, because no record is later than its own
        cases List.mem_singleton.1 hlater
        have hi := (hother hearlier hi).lt_length
        rcases openedAt_registered.1 hj with hj | ⟨_, _, rfl⟩
        · exact absurd ((h.listed _).2 (stands_iff_opened.2 ⟨j, hj⟩)) hnew
        · exact hi

/-- The records tell what the table becomes when the declaration of a name is taken out. -/
theorem Tells.erase (h : Tells log table) (hnodup : table.names.Nodup) (name : String) :
    Tells (log ++ [.removed name])
      ⟨table.entries.eraseP fun entry => entry.head.name == name⟩ := by
  have hfound (other : String) (declaration : Declaration) :
      find? ⟨table.entries.eraseP fun entry => entry.head.name == name⟩ other =
          some declaration ↔ name ≠ other ∧ table.find? other = some declaration := by
    rw [find?, find?_eraseP hnodup]
    by_cases hname : name = other
    · simp [hname]
    · rw [if_neg hname, find?]
      exact ⟨fun hfind => ⟨hname, hfind⟩, And.right⟩
  constructor
  · intro other declaration
    rw [hfound, current_removed, h.found]
  · intro other
    rw [mem_names_iff, stands_removed, ← h.listed, mem_names_iff]
    simp only [hfound, exists_and_left, ne_comm]
  · have hsublist := (List.eraseP_sublist (p := fun entry : Declaration => entry.head.name == name)
      (l := table.entries)).map (·.head.name)
    refine (h.order.sublist hsublist).imp fun hbefore i j hi hj => ?_
    exact hbefore i j (openedAt_removed.1 hi).2 (openedAt_removed.1 hj).2

/-- A removal that is granted gives the declaration and the table. -/
theorem apply_remove {name : String} (h : (Change.remove name).apply table = .ok table') :
    ∃ declaration, table.remove name = .ok (declaration, table') := by
  change (table.remove name).map Prod.snd = _ at h
  cases hremove : table.remove name with
  | error refusal =>
      rw [hremove] at h
      cases h
  | ok result =>
      rw [hremove] at h
      cases h
      exact ⟨result.1, rfl⟩

/-- A request that is granted adds its record to what is told. -/
theorem Tells.apply (h : Tells log table) (hnodup : table.names.Nodup)
    (happly : change.apply table = .ok table') : Tells (log ++ [change.record]) table' := by
  cases change with
  | add declaration =>
      rw [upsert_eq (add_eq happly).2]
      exact h.put declaration
  | upsert declaration =>
      rw [upsert_eq happly]
      exact h.put declaration
  | remove name =>
      obtain ⟨declaration, hremove⟩ := apply_remove happly
      rw [remove_eq hremove]
      exact h.erase hnodup name

/-- A request that is granted leads to a table that can come about. -/
theorem Reachable.apply (h : table.Reachable) (happly : change.apply table = .ok table') :
    table'.Reachable := by
  cases change with
  | add declaration => exact h.add happly
  | upsert declaration => exact h.upsert happly
  | remove name =>
      obtain ⟨declaration, hremove⟩ := apply_remove happly
      exact h.remove hremove

/-- The records tell which requests are refused, and why. -/
theorem Tells.refused_iff (h : Tells log table) {refusal : Refusal} :
    change.apply table = .error refusal ↔ Refused log change refusal := by
  have hcontains (name : String) : table.contains name = true ↔ Stands log name := by
    rw [contains, Option.isSome_iff_exists, ← mem_names_iff, h.listed]
  constructor
  · intro hrefused
    cases change with
    | add declaration =>
        change table.add declaration = _ at hrefused
        unfold add at hrefused
        split at hrefused
        · rename_i htaken
          cases hrefused
          exact .taken ((hcontains _).1 htaken)
        · rename_i hnew
          unfold upsert at hrefused
          split at hrefused
          · rename_i hlength
            cases hrefused
            exact .added (fun hstands => hnew ((hcontains _).2 hstands)) hlength
          · cases hrefused
    | upsert declaration =>
        change table.upsert declaration = _ at hrefused
        unfold upsert at hrefused
        split at hrefused
        · rename_i hlength
          cases hrefused
          exact .replaced hlength
        · cases hrefused
    | remove name =>
        change (table.remove name).map Prod.snd = _ at hrefused
        unfold remove at hrefused
        split at hrefused
        · rename_i hmissing
          cases hrefused
          refine .unknown fun hstands => ?_
          obtain ⟨declaration, hfound⟩ := mem_names_iff.1 ((h.listed name).2 hstands)
          cases hmissing.symm.trans hfound
        · cases hrefused
  · intro hrefused
    cases hrefused with
    | @taken declaration hstands =>
        show table.add declaration = _
        rw [add, if_pos ((hcontains _).2 hstands)]
    | @added declaration hnew hlength =>
        show table.add declaration = _
        rw [add, if_neg fun htaken => hnew ((hcontains _).1 htaken), upsert, if_pos hlength]
    | @replaced declaration hlength =>
        show table.upsert declaration = _
        rw [upsert, if_pos hlength]
    | @unknown name hstands =>
        show (table.remove name).map Prod.snd = _
        have hmissing : table.find? name = none := by
          rw [← Option.not_isSome_iff_eq_none]
          exact fun htaken => hstands ((hcontains name).1 htaken)
        unfold remove
        rw [hmissing]
        rfl

/-! ## Whole runs -/

/-- The records of several requests tell what the table becomes. -/
theorem Tells.run (h : Tells log table) (hreachable : table.Reachable) (changes : List Change) :
    Tells (log ++ table.records changes) (table.run changes) ∧ (table.run changes).Reachable := by
  induction changes generalizing table log with
  | nil =>
      rw [records, List.append_nil]
      exact ⟨h, hreachable⟩
  | cons change rest ih =>
      rw [Table.run, records]
      cases happly : change.apply table with
      | error refusal => exact ih h hreachable
      | ok table' =>
          have hnext := ih (h.apply hreachable.nodup happly) (hreachable.apply happly)
          rwa [List.append_assoc] at hnext

/-- A declaration with a new name is put at the end. -/
theorem put_of_new {declaration : Declaration} {entries : List Declaration}
    (h : declaration.head.name ∉ entries.map (·.head.name)) :
    put declaration entries = entries ++ [declaration] := by
  induction entries with
  | nil => rfl
  | cons entry rest ih =>
      rw [List.map_cons, List.mem_cons, not_or] at h
      have hne : (entry.head.name == declaration.head.name) = false :=
        beq_false_of_ne (Ne.symm h.1)
      simp only [put, hne, ih h.2]
      rfl

/-- The entries of a table tell what it finds, as if they had been registered in their order. -/
theorem tells_entries (entries : List Declaration) (h : (entries.map (·.head.name)).Nodup) :
    Tells (entries.map .registered) ⟨entries⟩ := by
  induction entries using List.reverseRecOn with
  | nil =>
      have hnothing {declaration : Declaration} {before later : List Record} :
          ¬ [] = before ++ .registered declaration :: later := by simp
      constructor
      · intro name declaration
        exact ⟨nofun, fun ⟨_, _, hlog, _⟩ => (hnothing hlog).elim⟩
      · intro name
        exact ⟨nofun, fun ⟨_, _, _, hlog, _⟩ => (hnothing hlog).elim⟩
      · exact .nil
  | append_singleton entries declaration ih =>
      rw [List.map_append, List.map_singleton, List.nodup_append] at h
      have hnew : declaration.head.name ∉ entries.map (·.head.name) :=
        fun hmem => h.2.2 _ hmem _ (List.mem_singleton.2 rfl) rfl
      have hput := (ih h.1).put declaration
      rw [put_of_new hnew] at hput
      rwa [List.map_append, List.map_singleton]

/-! ## As many parameters as the arity says -/

/-- The declaration has as many parameters as its head expects arguments. -/
def Saturates (declaration : Declaration) : Prop :=
  declaration.params.length = declaration.head.arity

/-- Putting a declaration brings in nothing else. -/
theorem mem_put {declaration entry : Declaration} {entries : List Declaration}
    (h : entry ∈ put declaration entries) : entry = declaration ∨ entry ∈ entries := by
  induction entries with
  | nil => exact .inl (List.mem_singleton.1 h)
  | cons first rest ih =>
      unfold put at h
      split at h
      · rcases List.mem_cons.1 h with rfl | h
        · exact .inl rfl
        · exact .inr (List.mem_cons_of_mem _ h)
      · rcases List.mem_cons.1 h with rfl | h
        · exact .inr List.mem_cons_self
        · exact (ih h).imp id (List.mem_cons_of_mem _)

/-- Only declarations with as many parameters as their arity are registered. -/
theorem saturates_upsert {declaration : Declaration} (h : table.upsert declaration = .ok table')
    (hentries : ∀ entry ∈ table.entries, Saturates entry) :
    ∀ entry ∈ table'.entries, Saturates entry := by
  unfold upsert at h
  split at h
  · cases h
  · rename_i hlength
    cases h
    intro entry hentry
    rcases mem_put hentry with rfl | hentry
    · exact not_not.1 hlength
    · exact hentries entry hentry

/-- The declarations of the base table have no parameters. -/
theorem saturates_base : ∀ entry ∈ Table.base.entries, Saturates entry := by
  simp only [base, List.forall_mem_cons]
  exact ⟨rfl, rfl, rfl, List.forall_mem_nil _⟩

/-- The declarations of the standard library have as many parameters as their arities. -/
theorem saturates_standard : ∀ entry ∈ Library.standard.table.entries, Saturates entry :=
  Library.installAll_table (fun table => ∀ entry ∈ table.entries, Saturates entry)
    (fun h => saturates_upsert (add_eq h).2) Library.installAll_standard saturates_base

/-- All declarations of every table that comes about have as many parameters as their arities. -/
theorem Reachable.saturates (h : table.Reachable) : ∀ entry ∈ table.entries, Saturates entry := by
  induction h with
  | base => exact saturates_base
  | standard => exact saturates_standard
  | add _ hadd ih => exact saturates_upsert (add_eq hadd).2 ih
  | upsert _ hupsert ih => exact saturates_upsert hupsert ih
  | remove _ hremove ih =>
      rw [remove_eq hremove]
      exact fun entry hentry => ih entry (List.mem_of_mem_eraseP hentry)

/-- In a table with distinct names every entry is found under its own name. -/
theorem find?_of_mem {entries : List Declaration} (h : (entries.map (·.head.name)).Nodup)
    {entry : Declaration} (hentry : entry ∈ entries) :
    find? ⟨entries⟩ entry.head.name = some entry := by
  induction entries with
  | nil => cases hentry
  | cons first rest ih =>
      rw [List.map_cons, List.nodup_cons] at h
      show (first :: rest).find? (fun found => found.head.name == entry.head.name) = some entry
      rcases List.mem_cons.1 hentry with rfl | hentry
      · simp
      · have hne : first.head.name ≠ entry.head.name := by
          intro heq
          exact h.1 (heq ▸ List.mem_map_of_mem hentry)
        rw [List.find?_cons_of_neg (by simpa using hne)]
        exact ih h.2 hentry

end Table

/-! ## Requests of a script -/

/-- A script that is refused a change of its table goes on from where it was. -/
theorem Script.changeTable_refused {α : Type} {change : Table → Except Refusal (α × Table)}
    {progress : Script.Progress} {refusal : Refusal}
    (h : change progress.world.table = .error refusal) :
    Script.changeTable change progress = some (.error (.refused refusal), progress) := by
  unfold Script.changeTable
  show (Script.Run.onHeap (Script.Eval.ofExcept (change progress.world.table)) >>= _) progress = _
  rw [h]
  rfl

namespace Table

/-- Requests after others are requests to the table that those leave. -/
theorem run_append (table : Table) (changes later : List Change) :
    table.run (changes ++ later) = (table.run changes).run later := by
  induction changes generalizing table with
  | nil => rfl
  | cons first rest ih =>
      rw [List.cons_append, run, run]
      cases first.apply table with
      | ok table' => exact ih table'
      | error refusal => exact ih table

/-- Whatever a table is asked, from the base table or the standard one on, it stores declarations
under their own names, which are distinct, each with as many parameters as its arity says. A name
finds the declaration that was registered last and not removed since. Names are listed in the order
in which they were first registered since they were last removed. The records also tell which
requests are refused, and a request that is refused changes neither the table nor anything else in
the state of a script. -/
theorem run_tells_records {start : Table} (hstart : start ∈ [.base, Library.standard.table])
    (changes : List Change) :
    let table := start.run changes
    let log := start.entries.map .registered ++ start.records changes
    (∀ entry ∈ table.entries, table.find? entry.head.name = some entry ∧
      entry.params.length = entry.head.arity) ∧
    table.names.Nodup ∧
    (∀ name declaration,
      table.find? name = some declaration ↔ Current log name declaration) ∧
    (∀ name, name ∈ table.names ↔ ∃ position, OpenedAt log name position) ∧
    table.names.Pairwise (fun earlier later =>
      ∀ i j, OpenedAt log earlier i → OpenedAt log later j → i < j) ∧
    ∀ change refusal,
      (change.apply table = .error refusal ↔ Refused log change refusal) ∧
      (change.apply table = .error refusal →
        start.run (changes ++ [change]) = table ∧
        ∀ progress : Script.Progress, progress.world.table = table →
          Script.changeTable (fun table => return ((), ← change.apply table)) progress =
            some (.error (.refused refusal), progress)) := by
  intro table log
  have hreachable : start.Reachable := by
    rcases List.mem_pair.1 hstart with rfl | rfl
    · exact .base
    · exact .standard
  obtain ⟨htells, hafter⟩ := (tells_entries start.entries hreachable.nodup).run hreachable changes
  refine ⟨fun entry hentry => ⟨find?_of_mem hafter.nodup hentry, hafter.saturates entry hentry⟩,
    hafter.nodup, htells.found, fun name => ?_, htells.order, fun change refusal => ?_⟩
  · rw [← stands_iff_opened]
    exact htells.listed name
  · refine ⟨htells.refused_iff, fun hrefused => ⟨?_, fun progress hprogress => ?_⟩⟩
    · have hrefused : change.apply (start.run changes) = .error refusal := hrefused
      rw [run_append, run, hrefused]
      rfl
    · apply Script.changeTable_refused
      rw [hprogress, hrefused]
      rfl

/-- A parcel that is a letter. -/
def flatParcel : Declaration := ⟨Context.parcel, [], some (.named Context.letter), []⟩

/-- Two classes are registered and the upper one is replaced. The interface of arrays that can be
copied is removed and registered again. A name that is taken, a parameter too many and a name that
is not there are refused. -/
def sorting : List Change :=
  [.add Context.parcelDeclaration, .add Context.letterDeclaration, .add Context.parcelDeclaration,
    .upsert ⟨Context.parcel, [⟨"T", "Parcel", .owning 0⟩], none, []⟩,
    .remove "java.lang.Cloneable", .remove "Stamp", .upsert flatParcel,
    .add ⟨.cloneable, [], none, []⟩]

/-- The replaced class keeps its place, and what was registered again comes last. -/
theorem sorting_order :
    let log := Table.base.entries.map .registered ++ Table.base.records sorting
    (Table.base.run sorting).names =
      ["java.lang.Object", "java.io.Serializable", "Parcel", "Letter", "java.lang.Cloneable"] ∧
    log.length = 8 ∧ Current log "Parcel" flatParcel ∧
    (∃ position, OpenedAt log "java.lang.Cloneable" position) ∧
    ¬ (∃ position, OpenedAt log "Stamp" position) ∧
    Refused log (.add flatParcel) (.duplicateClass "Parcel") ∧
    Table.base.run (sorting ++ [.add flatParcel]) = Table.base.run sorting := by
  intro log
  obtain ⟨_, _, hfound, hlisted, _, hrefused⟩ := run_tells_records (List.mem_cons_self) sorting
  have htaken : (Change.add flatParcel).apply (Table.base.run sorting) =
      .error (.duplicateClass "Parcel") := rfl
  refine ⟨rfl, rfl, (hfound _ _).1 rfl, (hlisted _).1 (by decide), ?_,
    (hrefused _ _).1.1 htaken, ((hrefused _ _).2 htaken).1⟩
  rw [← hlisted]
  decide

end Table

end Nominal
