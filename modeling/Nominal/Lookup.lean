/-!
# Looking up keys

A table is kept as a list of entries, each a key with a value, and the first entry for a key is the
one that is found. These are the rules for what is found after entries are added, dropped or
changed.
-/

namespace Nominal

variable {α β : Type} [BEq α] [LawfulBEq α]

/-- Nothing is found for a key exactly if it is not a key of the entries. -/
theorem lookup_eq_none_iff_fresh {entries : List (α × β)} {key : α} :
    entries.lookup key = none ↔ key ∉ entries.map Prod.fst := by
  rw [List.lookup_eq_none_iff]
  constructor
  · intro hother hkey
    obtain ⟨entry, hentry, heq⟩ := List.mem_map.1 hkey
    exact bne_iff_ne.1 (hother entry hentry) heq.symm
  · intro hfresh entry hentry
    exact bne_iff_ne.2 fun heq => hfresh (heq ▸ List.mem_map_of_mem hentry)

/-- The first entry for a key is found. -/
theorem lookup_append_cons {before : List (α × β)} {key : α} {value : β}
    (hfresh : key ∉ before.map Prod.fst) (after : List (α × β)) :
    (before ++ (key, value) :: after).lookup key = some value := by
  refine List.lookup_eq_some_iff.2 ⟨before, after, rfl, fun entry hentry => ?_⟩
  exact List.lookup_eq_none_iff.1 (lookup_eq_none_iff_fresh.2 hfresh) entry hentry

/-- One entry more changes nothing for other keys. -/
theorem lookup_concat_ne {before : List (α × β)} {key other : α} {value : β} (hne : other ≠ key) :
    (before ++ [(key, value)]).lookup other = before.lookup other := by
  rw [List.lookup_append, List.lookup_cons, beq_eq_false_iff_ne.2 hne]
  exact Option.or_none

/-- What is found for a key does not change when only entries of other keys are dropped. -/
theorem lookup_filter_key (keep : α → Bool) (entries : List (α × β)) {key : α}
    (hkeep : keep key = true) :
    (entries.filter fun entry => keep entry.1).lookup key = entries.lookup key := by
  induction entries with
  | nil => rfl
  | cons entry rest ih =>
      obtain ⟨other, value⟩ := entry
      rw [List.filter_cons, List.lookup_cons]
      by_cases hother : keep other = true
      · rw [if_pos hother, List.lookup_cons, ih]
      · have hne : (key == other) = false := by
          refine beq_eq_false_iff_ne.2 fun heq => hother ?_
          rwa [← heq]
        rw [if_neg hother, hne, ih]

/-- Changing the values of a table changes the value that is found. -/
theorem lookup_map_values (change : α → β → β) (entries : List (α × β)) (key : α) :
    (entries.map fun entry => (entry.1, change entry.1 entry.2)).lookup key =
      (entries.lookup key).map (change key) := by
  induction entries with
  | nil => rfl
  | cons entry rest ih =>
      rw [List.map_cons, List.lookup_cons, List.lookup_cons]
      cases hkey : key == entry.1 with
      | true =>
          rw [eq_of_beq hkey]
          rfl
      | false => exact ih

end Nominal
