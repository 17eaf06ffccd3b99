import Nominal.Logging.Filter
import Nominal.Settings.Load
import Nominal.Toml.DistinctKeys

/-!
# Loading as far as possible

Settings are read from a document entry by entry, and what is not known is only noted. If the known
keys of a document have their forms (`Fits`), reading it gives the standard settings with the values
of just these keys put in (`described`), whatever is noted of the others. `load_best_effort` says so
of both ways to read a text, and that the keys reported are the outermost ones that are not known,
each once and in order; without them the document says the same.

The state after some entries is a function of these entries (`foldlM_eq_ok`). This is where keys
have to be distinct: an entry adds the value of its key to what the entries before it said.
-/

namespace Nominal.Settings

/-! ## What documents say -/

/-- The tables of a document, and the keys that each of them knows. -/
def knownKeys : List (String × List String) :=
  [("assignability", ["variance", "boxing"]), ("supertypes", ["cache_closures"]),
    ("logging", ["level", "json", "stderr"])]

/-- A truth value. -/
def flag? : Toml.Value → Option Bool
  | .boolean value => some value
  | _ => none

/-- A text. -/
def text? : Toml.Value → Option String
  | .string value => some value
  | _ => none

/-- The name of the rules of comparison. -/
def variance? : Toml.Value → Option Variance
  | .string "covariant" => some .covariant
  | .string "invariant" => some .invariant
  | _ => none

/-- The key is missing, or its value has the form. -/
def HasForm {α : Type} (form? : Toml.Value → Option α) (entries : Entries) (key : String) : Prop :=
  ∀ value, entries.lookup key = some value → (form? value).isSome = true

/-- The value of a key, or what stands for it where it is missing. -/
def valueOr {α : Type} (form? : Toml.Value → Option α) (entries : Entries) (key : String)
    (standard : α) : α :=
  ((entries.lookup key).bind form?).getD standard

/-- The entries of a table of a document, none where it is missing. -/
def entriesOf (document : Entries) (table : String) : Entries :=
  match document.lookup table with
  | some (.table entries) => entries
  | _ => []

/-- The rules of comparison that a table describes. -/
def assignabilityOf (entries : Entries) : AssignOptions where
  variance := valueOr variance? entries "variance" ({} : Settings).assignability.variance
  boxing := valueOr flag? entries "boxing" ({} : Settings).assignability.boxing

/-- Whether closures are kept, as a table describes it. -/
def memoizeOf (entries : Entries) : Bool :=
  valueOr flag? entries "cache_closures" ({} : Settings).memoize

/-- How events are logged, as a table describes it. -/
def loggingOf (entries : Entries) : LogSettings where
  level := valueOr text? entries "level" ({} : Settings).logging.level
  json := valueOr flag? entries "json" ({} : Settings).logging.json
  stderr := valueOr flag? entries "stderr" ({} : Settings).logging.stderr

/-- The standard settings, with the values of the known keys of a document put in. -/
def described (document : Entries) : Settings where
  assignability := assignabilityOf (entriesOf document "assignability")
  memoize := memoizeOf (entriesOf document "supertypes")
  logging := loggingOf (entriesOf document "logging")

/-- The known tables of a document are tables and the known keys in them have their forms. No key of
the document itself that is not known starts with a dot. -/
structure Fits (document : Entries) : Prop where
  tables : ∀ table ∈ knownKeys.map Prod.fst, ∀ value, document.lookup table = some value →
    ∃ entries, value = .table entries
  variance : HasForm variance? (entriesOf document "assignability") "variance"
  boxing : HasForm flag? (entriesOf document "assignability") "boxing"
  memoize : HasForm flag? (entriesOf document "supertypes") "cache_closures"
  level : HasForm text? (entriesOf document "logging") "level"
  json : HasForm flag? (entriesOf document "logging") "json"
  stderr : HasForm flag? (entriesOf document "logging") "stderr"
  undotted : ∀ entry ∈ document, entry.1 ∉ knownKeys.map Prod.fst →
    entry.1.toList.head? ≠ some '.'

/-- The path of an outermost key that is not known: a key of the document, or a key of a known
table. -/
inductive Unknown (document : Entries) : String → Prop where
  | outer {key : String} {value : Toml.Value} (hentry : (key, value) ∈ document)
      (hunknown : key ∉ knownKeys.map Prod.fst) : Unknown document key
  | inner {table key : String} {keys : List String} {entries : Entries} {value : Toml.Value}
      (htable : (table, keys) ∈ knownKeys) (hentries : (table, .table entries) ∈ document)
      (hentry : (key, value) ∈ entries) (hunknown : key ∉ keys) :
      Unknown document (table ++ "." ++ key)

/-- A value of a known table without the keys that the table does not know. -/
def pruned (table : String) : Toml.Value → Toml.Value
  | .table entries =>
      .table (entries.filter fun entry => ((knownKeys.lookup table).getD []).contains entry.1)
  | value => value

/-- A document without the keys that are not known. -/
def withoutUnknown (document : Entries) : Entries :=
  (document.filter fun entry => (knownKeys.map Prod.fst).contains entry.1).map fun entry =>
    (entry.1, pruned entry.1 entry.2)

/-! ## Reading entry by entry -/

/-- If each step leads from what the entries so far describe to what they describe with one entry
more, all steps lead to what all entries describe. -/
theorem foldlM_eq_ok {α σ : Type} {step : σ → α → Except Error σ} (state : List α → σ)
    {list : List α}
    (hstep : ∀ before entry after, list = before ++ entry :: after →
      step (state before) entry = .ok (state (before ++ [entry]))) :
    list.foldlM step (state []) = .ok (state list) := by
  -- The induction is on the entries that are left, with those that are read before them.
  have hsuffix (rest before : List α) (hlist : list = before ++ rest) :
      rest.foldlM step (state before) = .ok (state list) := by
    induction rest generalizing before with
    | nil =>
        rw [hlist, List.append_nil]
        rfl
    | cons entry rest ih =>
        rw [List.foldlM_cons, hstep before entry rest hlist]
        exact ih (before ++ [entry]) (by simpa using hlist)
  exact hsuffix list [] rfl

variable {entries before after : Entries} {key other : String} {value : Toml.Value}

/-- The key of an entry is not among those before it. -/
theorem key_fresh (hkeys : ((before ++ (key, value) :: after).map Prod.fst).Nodup) :
    key ∉ before.map Prod.fst := by
  rw [List.map_append, List.nodup_append] at hkeys
  exact fun hmem => hkeys.2.2 key hmem key List.mem_cons_self rfl

section Forms

variable {α : Type} {form? : Toml.Value → Option α} {result : α}

/-- The value of a key that is read is the one it has now. -/
theorem valueOr_concat_self (hfresh : key ∉ before.map Prod.fst)
    (hvalue : form? value = some result) (standard : α) :
    valueOr form? (before ++ [(key, value)]) key standard = result := by
  simp [valueOr, lookup_append_cons hfresh, hvalue]

/-- The values of other keys stay. -/
theorem valueOr_concat_ne (hne : other ≠ key) (standard : α) :
    valueOr form? (before ++ [(key, value)]) other standard =
      valueOr form? before other standard := by
  simp [valueOr, lookup_concat_ne hne]

end Forms

/-! ## Tables -/

/-- The keys of a table that are not among the known ones. -/
def unknownKeys (known : List String) (entries : Entries) : List String :=
  (entries.map Prod.fst).filter fun key => !known.contains key

/-- An entry adds its key to the unknown ones, unless it is known. -/
theorem unknownKeys_concat (known : List String) (before : Entries) (key : String)
    (value : Toml.Value) :
    unknownKeys known (before ++ [(key, value)]) =
      unknownKeys known before ++ if key ∈ known then [] else [key] := by
  by_cases hknown : key ∈ known
  · simp [unknownKeys, hknown]
  · simp [unknownKeys, hknown]

/-- Reading an entry of the table that a field is for leads from what the entries so far describe to
what they describe with it; entries that no field is for describe nothing. -/
structure Describes {σ : Type} (fields : List (Field σ)) (describe : Entries → σ)
    (entries : Entries) : Prop where
  known : ∀ field ∈ fields, ∀ before value, field.name ∉ before.map Prod.fst →
    entries.lookup field.name = some value →
    field.read value (describe before) = .ok (describe (before ++ [(field.name, value)]))
  unknown : ∀ before key value, key ∉ fields.map Field.name →
    describe (before ++ [(key, value)]) = describe before

/-- A table is read to what its entries describe, and the keys that are not known are noted. -/
theorem readEntries_eq {σ ω : Type} {fields : List (Field σ)} {describe : Entries → σ}
    (hdescribes : Describes fields describe entries) (hkeys : (entries.map Prod.fst).Nodup)
    (note : ω → String → ω) (noted : ω) :
    readEntries note fields entries (describe [], noted) =
      .ok (describe entries,
        (unknownKeys (fields.map Field.name) entries).foldl note noted) := by
  refine foldlM_eq_ok (fun before =>
    (describe before, (unknownKeys (fields.map Field.name) before).foldl note noted)) ?_
  rintro before ⟨key, value⟩ after rfl
  simp only [unknownKeys_concat]
  cases hfind : fields.find? (fun field => field.name == key) with
  | some field =>
      have hname : field.name = key := by simpa using List.find?_some hfind
      subst hname
      have hmem := List.mem_of_find?_eq_some hfind
      have hread := hdescribes.known field hmem before value (key_fresh hkeys)
        (lookup_append_cons (key_fresh hkeys) after)
      simp only [hread, List.mem_map_of_mem hmem, if_true, List.append_nil]
      rfl
  | none =>
      have hunknown : key ∉ fields.map Field.name := by
        intro hmem
        obtain ⟨field, hfield, hname⟩ := List.mem_map.1 hmem
        simpa [hname] using List.find?_eq_none.1 hfind field hfield
      simp only [hdescribes.unknown before key value hunknown, hunknown, if_false,
        List.foldl_append]
      rfl

/-- A truth value is read. -/
theorem readFlag_eq {flag : Bool} (h : flag? value = some flag) : readFlag value = .ok flag := by
  unfold flag? at h
  split at h
  · cases h
    rfl
  · cases h

/-- A text is read. -/
theorem readText_eq {text : String} (h : text? value = some text) : readText value = .ok text := by
  unfold text? at h
  split at h
  · cases h
    rfl
  · cases h

/-- The name of the rules of comparison is read. -/
theorem readVariance_eq {variance : Variance} (h : variance? value = some variance) :
    readVariance value = .ok variance := by
  unfold variance? at h
  split at h
  · cases h
    rfl
  · cases h
    rfl
  · cases h

/-- The table `assignability` is read to what it describes. -/
theorem assignability_describes (hvariance : HasForm variance? entries "variance")
    (hboxing : HasForm flag? entries "boxing") :
    Describes assignabilityFields assignabilityOf entries where
  known field hfield before value hfresh hlookup := by
    simp only [assignabilityFields, List.mem_cons, List.not_mem_nil, or_false] at hfield
    rcases hfield with rfl | rfl
    · obtain ⟨variance, hform⟩ := Option.isSome_iff_exists.1 (hvariance value hlookup)
      simp only [readVariance_eq hform, assignabilityOf, valueOr_concat_self hfresh hform,
        valueOr_concat_ne (show "boxing" ≠ "variance" by decide)]
      rfl
    · obtain ⟨flag, hform⟩ := Option.isSome_iff_exists.1 (hboxing value hlookup)
      simp only [readFlag_eq hform, assignabilityOf, valueOr_concat_self hfresh hform,
        valueOr_concat_ne (show "variance" ≠ "boxing" by decide)]
      rfl
  unknown before key value hunknown := by
    simp only [assignabilityFields, List.map_cons, List.map_nil, List.mem_cons, List.not_mem_nil,
      or_false, not_or] at hunknown
    simp only [assignabilityOf, valueOr_concat_ne (Ne.symm hunknown.1),
      valueOr_concat_ne (Ne.symm hunknown.2)]

/-- The table `supertypes` is read to what it describes. -/
theorem supertypes_describes (hmemoize : HasForm flag? entries "cache_closures") :
    Describes supertypesFields memoizeOf entries where
  known field hfield before value hfresh hlookup := by
    rw [supertypesFields, List.mem_singleton] at hfield
    subst hfield
    obtain ⟨flag, hform⟩ := Option.isSome_iff_exists.1 (hmemoize value hlookup)
    simp only [readFlag_eq hform, memoizeOf, valueOr_concat_self hfresh hform]
  unknown before key value hunknown := by
    simp only [supertypesFields, List.map_cons, List.map_nil, List.mem_singleton] at hunknown
    simp only [memoizeOf, valueOr_concat_ne (Ne.symm hunknown)]

/-- The table `logging` is read to what it describes. -/
theorem logging_describes (hlevel : HasForm text? entries "level")
    (hjson : HasForm flag? entries "json") (hstderr : HasForm flag? entries "stderr") :
    Describes loggingFields loggingOf entries where
  known field hfield before value hfresh hlookup := by
    simp only [loggingFields, List.mem_cons, List.not_mem_nil, or_false] at hfield
    rcases hfield with rfl | rfl | rfl
    · obtain ⟨text, hform⟩ := Option.isSome_iff_exists.1 (hlevel value hlookup)
      simp only [readText_eq hform, loggingOf, valueOr_concat_self hfresh hform,
        valueOr_concat_ne (show "json" ≠ "level" by decide),
        valueOr_concat_ne (show "stderr" ≠ "level" by decide)]
      rfl
    · obtain ⟨flag, hform⟩ := Option.isSome_iff_exists.1 (hjson value hlookup)
      simp only [readFlag_eq hform, loggingOf, valueOr_concat_self hfresh hform,
        valueOr_concat_ne (show "level" ≠ "json" by decide),
        valueOr_concat_ne (show "stderr" ≠ "json" by decide)]
      rfl
    · obtain ⟨flag, hform⟩ := Option.isSome_iff_exists.1 (hstderr value hlookup)
      simp only [readFlag_eq hform, loggingOf, valueOr_concat_self hfresh hform,
        valueOr_concat_ne (show "level" ≠ "stderr" by decide),
        valueOr_concat_ne (show "json" ≠ "stderr" by decide)]
      rfl
  unknown before key value hunknown := by
    simp only [loggingFields, List.map_cons, List.map_nil, List.mem_cons, List.not_mem_nil,
      or_false, not_or] at hunknown
    simp only [loggingOf, valueOr_concat_ne (Ne.symm hunknown.1),
      valueOr_concat_ne (Ne.symm hunknown.2.1), valueOr_concat_ne (Ne.symm hunknown.2.2)]

/-! ## Documents -/

variable {document : Entries} {table : String}

/-- The entries of a table that is found. -/
theorem entriesOf_eq (hlookup : document.lookup table = some (.table entries)) :
    entriesOf document table = entries := by
  rw [entriesOf, hlookup]

/-- A table that is read is the one that the document has now. -/
theorem entriesOf_concat_self (hfresh : table ∉ before.map Prod.fst) :
    entriesOf (before ++ [(table, .table entries)]) table = entries :=
  entriesOf_eq (lookup_append_cons hfresh [])

/-- Other tables stay. -/
theorem entriesOf_concat_ne (hne : table ≠ key) :
    entriesOf (before ++ [(key, value)]) table = entriesOf before table := by
  rw [entriesOf, lookup_concat_ne hne, entriesOf]

/-- The paths of the unknown keys that an entry of a document brings. -/
def unknownPathsOf (entry : String × Toml.Value) : List String :=
  match knownKeys.lookup entry.1, entry.2 with
  | none, _ => [entry.1]
  | some keys, .table entries => (unknownKeys keys entries).map (pathIn entry.1)
  | some _, _ => []

/-- A key of the document that is not known is its own path. -/
theorem unknownPathsOf_unknown (hunknown : key ∉ knownKeys.map Prod.fst) :
    unknownPathsOf (key, value) = [key] := by
  rw [unknownPathsOf, lookup_eq_none_iff_fresh.2 hunknown]

/-- The paths of unknown keys in the order of the document. -/
def unknownPaths (document : Entries) : List String := document.flatMap unknownPathsOf

/-- A table of a document is read to what it describes, and its unknown keys are noted by their
paths. -/
theorem readTable_eq {σ ω : Type} {fields : List (Field σ)} {describe : Entries → σ}
    (hdescribes : Describes fields describe entries) (hkeys : (entries.map Prod.fst).Nodup)
    (note : ω → String → ω) (noted : ω) (label table : String) :
    readTable (fun noted name => note noted (pathIn table name)) label fields (describe [], noted)
      (.table entries) =
      .ok (describe entries,
        ((unknownKeys (fields.map Field.name) entries).map (pathIn table)).foldl note noted) := by
  rw [List.foldl_map]
  exact readEntries_eq hdescribes hkeys (fun noted name => note noted (pathIn table name)) noted

/-- Reading a known table puts in what it describes, if reading its entry puts in what is read. -/
theorem readEntry_known {σ ω : Type} {fields : List (Field σ)} {describe : Entries → σ}
    {note : ω → String → ω} {noted : ω} (label : String) (put : σ → Settings)
    (hread : readEntry note (described before, noted) (table, .table entries) =
      readTable (fun noted name => note noted (pathIn table name)) label fields
        (describe [], noted) (.table entries) >>= fun result => .ok (put result.1, result.2))
    (hput : described (before ++ [(table, .table entries)]) = put (describe entries))
    (hknown : knownKeys.lookup table = some (fields.map Field.name))
    (hdescribes : Describes fields describe entries) (hkeys : (entries.map Prod.fst).Nodup) :
    readEntry note (described before, noted) (table, .table entries) =
      .ok (described (before ++ [(table, .table entries)]),
        (unknownPathsOf (table, .table entries)).foldl note noted) := by
  have hpaths : unknownPathsOf (table, .table entries) =
      (unknownKeys (fields.map Field.name) entries).map (pathIn table) := by
    rw [unknownPathsOf, hknown]
  rw [hread, readTable_eq hdescribes hkeys, hput, hpaths]
  rfl

/-- Reading the table `assignability` puts in what it describes. -/
theorem readEntry_assignability {ω : Type} (hfresh : "assignability" ∉ before.map Prod.fst)
    (hdescribes : Describes assignabilityFields assignabilityOf entries)
    (hkeys : (entries.map Prod.fst).Nodup) (note : ω → String → ω) (noted : ω) :
    readEntry note (described before, noted) ("assignability", .table entries) =
      .ok (described (before ++ [("assignability", .table entries)]),
        (unknownPathsOf ("assignability", .table entries)).foldl note noted) := by
  have hput : described (before ++ [("assignability", .table entries)]) =
      { described before with assignability := assignabilityOf entries } := by
    simp only [described, entriesOf_concat_self hfresh,
      entriesOf_concat_ne (show "supertypes" ≠ "assignability" by decide),
      entriesOf_concat_ne (show "logging" ≠ "assignability" by decide)]
  exact readEntry_known "AssignabilityConfig"
    (fun result => { described before with assignability := result }) rfl hput rfl hdescribes hkeys

/-- Reading the table `supertypes` puts in what it describes. -/
theorem readEntry_supertypes {ω : Type} (hfresh : "supertypes" ∉ before.map Prod.fst)
    (hdescribes : Describes supertypesFields memoizeOf entries)
    (hkeys : (entries.map Prod.fst).Nodup) (note : ω → String → ω) (noted : ω) :
    readEntry note (described before, noted) ("supertypes", .table entries) =
      .ok (described (before ++ [("supertypes", .table entries)]),
        (unknownPathsOf ("supertypes", .table entries)).foldl note noted) := by
  have hput : described (before ++ [("supertypes", .table entries)]) =
      { described before with memoize := memoizeOf entries } := by
    simp only [described, entriesOf_concat_self hfresh,
      entriesOf_concat_ne (show "assignability" ≠ "supertypes" by decide),
      entriesOf_concat_ne (show "logging" ≠ "supertypes" by decide)]
  exact readEntry_known "SupertypesConfig"
    (fun result => { described before with memoize := result }) rfl hput rfl hdescribes hkeys

/-- Reading the table `logging` puts in what it describes. -/
theorem readEntry_logging {ω : Type} (hfresh : "logging" ∉ before.map Prod.fst)
    (hdescribes : Describes loggingFields loggingOf entries)
    (hkeys : (entries.map Prod.fst).Nodup) (note : ω → String → ω) (noted : ω) :
    readEntry note (described before, noted) ("logging", .table entries) =
      .ok (described (before ++ [("logging", .table entries)]),
        (unknownPathsOf ("logging", .table entries)).foldl note noted) := by
  have hput : described (before ++ [("logging", .table entries)]) =
      { described before with logging := loggingOf entries } := by
    simp only [described, entriesOf_concat_self hfresh,
      entriesOf_concat_ne (show "assignability" ≠ "logging" by decide),
      entriesOf_concat_ne (show "supertypes" ≠ "logging" by decide)]
  exact readEntry_known "LoggingConfig"
    (fun result => { described before with logging := result }) rfl hput rfl hdescribes hkeys

/-- A key that is not known changes nothing and is noted. -/
theorem readEntry_unknown {ω : Type} (before : Entries) (hunknown : key ∉ knownKeys.map Prod.fst)
    (value : Toml.Value) (note : ω → String → ω) (noted : ω) :
    readEntry note (described before, noted) (key, value) =
      .ok (described (before ++ [(key, value)]),
        (unknownPathsOf (key, value)).foldl note noted) := by
  have hnames : key ≠ "assignability" ∧ key ≠ "supertypes" ∧ key ≠ "logging" := by
    simpa [knownKeys] using hunknown
  obtain ⟨hassignability, hsupertypes, hlogging⟩ := hnames
  have hdescribed : described (before ++ [(key, value)]) = described before := by
    simp only [described, entriesOf_concat_ne hassignability.symm,
      entriesOf_concat_ne hsupertypes.symm, entriesOf_concat_ne hlogging.symm]
  unfold readEntry
  simp only [beq_iff_eq, hassignability, hsupertypes, hlogging, if_false, hdescribed,
    unknownPathsOf_unknown hunknown]
  rfl

/-- The table of a known name, where the document fits. -/
theorem Fits.exists_entries (hfits : Fits document) (htable : table ∈ knownKeys.map Prod.fst)
    (hdistinct : (Toml.Value.table document).Distinct)
    (hlookup : document.lookup table = some value) :
    ∃ entries, value = .table entries ∧ entriesOf document table = entries ∧
      (entries.map Prod.fst).Nodup := by
  obtain ⟨entries, rfl⟩ := hfits.tables table htable value hlookup
  refine ⟨entries, rfl, entriesOf_eq hlookup, ?_⟩
  obtain ⟨before, after, rfl, _⟩ := List.lookup_eq_some_iff.1 hlookup
  cases hdistinct with
  | table _ hvalues =>
      cases hvalues (table, .table entries) List.mem_append_cons_self with
      | table hkeys _ => exact hkeys

/-- Reading an entry leads from what the entries so far describe to what they describe with it. -/
theorem readEntry_eq {ω : Type} (hfits : Fits (before ++ (key, value) :: after))
    (hdistinct : (Toml.Value.table (before ++ (key, value) :: after)).Distinct)
    (note : ω → String → ω) (noted : ω) :
    readEntry note (described before, noted) (key, value) =
      .ok (described (before ++ [(key, value)]),
        (unknownPathsOf (key, value)).foldl note noted) := by
  have hkeys : ((before ++ (key, value) :: after).map Prod.fst).Nodup := by
    cases hdistinct with
    | table hkeys _ => exact hkeys
  have hfresh := key_fresh hkeys
  have hlookup : (before ++ (key, value) :: after).lookup key = some value :=
    lookup_append_cons hfresh after
  by_cases hknown : key ∈ knownKeys.map Prod.fst
  · obtain ⟨entries, rfl, hentries, hinner⟩ := hfits.exists_entries hknown hdistinct hlookup
    have hnames : key = "assignability" ∨ key = "supertypes" ∨ key = "logging" := by
      simpa [knownKeys] using hknown
    rcases hnames with rfl | rfl | rfl
    · exact readEntry_assignability hfresh (assignability_describes (hentries ▸ hfits.variance)
        (hentries ▸ hfits.boxing)) hinner note noted
    · exact readEntry_supertypes hfresh (supertypes_describes (hentries ▸ hfits.memoize)) hinner
        note noted
    · exact readEntry_logging hfresh (logging_describes (hentries ▸ hfits.level)
        (hentries ▸ hfits.json) (hentries ▸ hfits.stderr)) hinner note noted
  · exact readEntry_unknown before hknown value note noted

/-- A document that fits is read to what it describes, and the paths of its unknown keys are noted
in order. -/
theorem readDocument_eq {ω : Type} (hfits : Fits document)
    (hdistinct : (Toml.Value.table document).Distinct) (note : ω → String → ω) (start : ω) :
    readDocument note start document =
      .ok (described document, (unknownPaths document).foldl note start) := by
  refine foldlM_eq_ok
    (fun before => (described before, (unknownPaths before).foldl note start)) ?_
  rintro before ⟨key, value⟩ after rfl
  have hpaths : unknownPaths (before ++ [(key, value)]) =
      unknownPaths before ++ unknownPathsOf (key, value) := by
    simp [unknownPaths]
  rw [readEntry_eq hfits hdistinct, hpaths, List.foldl_append]

/-! ## Paths of unknown keys -/

/-- Each known table is found with its keys. -/
theorem lookup_knownKeys : ∀ entry ∈ knownKeys, knownKeys.lookup entry.1 = some entry.2 := by
  decide

/-- The paths that are noted are those of the outermost keys that are not known. -/
theorem mem_unknownPaths {path : String} :
    path ∈ unknownPaths document ↔ Unknown document path := by
  rw [unknownPaths, List.mem_flatMap]
  constructor
  · rintro ⟨⟨key, value⟩, hentry, hpath⟩
    by_cases hknown : key ∈ knownKeys.map Prod.fst
    · obtain ⟨⟨table, keys⟩, hkeys, rfl⟩ := List.mem_map.1 hknown
      rw [unknownPathsOf, lookup_knownKeys _ hkeys] at hpath
      cases value with
      | table entries =>
          obtain ⟨name, hname, rfl⟩ := List.mem_map.1 hpath
          obtain ⟨hmem, hunknown⟩ := List.mem_filter.1 hname
          obtain ⟨⟨name, inner⟩, hinner, rfl⟩ := List.mem_map.1 hmem
          exact .inner hkeys hentry hinner (by simpa using hunknown)
      | _ => cases hpath
    · rw [unknownPathsOf_unknown hknown, List.mem_singleton] at hpath
      exact hpath ▸ .outer hentry hknown
  · intro hunknown
    cases hunknown with
    | outer hentry hunknown =>
        exact ⟨_, hentry, unknownPathsOf_unknown hunknown ▸ List.mem_singleton_self _⟩
    | inner htable hentries hentry hunknown =>
        refine ⟨_, hentries, ?_⟩
        rw [unknownPathsOf, lookup_knownKeys _ htable]
        refine List.mem_map_of_mem (List.mem_filter.2 ⟨List.mem_map_of_mem hentry, ?_⟩)
        simpa using hunknown

/-- A path that does not start with a dot is left as it is. -/
theorem trimDots_eq {path : String} (h : path.toList.head? ≠ some '.') : trimDots path = path := by
  unfold trimDots
  cases hchars : path.toList with
  | nil => simpa using congrArg String.ofList hchars.symm
  | cons c rest =>
      have hc : c ≠ '.' := by simpa [hchars] using h
      rw [List.dropWhile_cons_of_neg (by simpa using hc), ← hchars, String.ofList_toList]

/-- No path of an unknown key starts with a dot. -/
theorem Fits.undotted_path {path : String} (hfits : Fits document) (h : Unknown document path) :
    path.toList.head? ≠ some '.' := by
  cases h with
  | outer hentry hunknown => exact hfits.undotted _ hentry hunknown
  | inner htable =>
      simp only [knownKeys, List.mem_cons, Prod.mk.injEq, List.not_mem_nil, or_false] at htable
      rcases htable with ⟨rfl, _⟩ | ⟨rfl, _⟩ | ⟨rfl, _⟩ <;> simp [String.toList_append]

/-- A list in ascending order is in strictly ascending order once repetitions are left out. -/
theorem pairwise_lt_eraseDups (paths : List String) (h : paths.Pairwise (· ≤ ·)) :
    paths.eraseDups.Pairwise (· < ·) :=
  match paths, h with
  | [], _ => List.Pairwise.nil
  | first :: rest, h => by
      obtain ⟨hfirst, hrest⟩ := List.pairwise_cons.1 h
      rw [List.eraseDups_cons]
      refine List.pairwise_cons.2 ⟨fun path hpath => ?_, pairwise_lt_eraseDups _ (hrest.filter _)⟩
      obtain ⟨hmem, hne⟩ := List.mem_filter.1 (List.mem_eraseDups.1 hpath)
      exact Std.lt_of_le_of_ne (hfirst path hmem) fun heq => by simp [heq] at hne
termination_by paths.length
decreasing_by exact Nat.lt_succ_of_le (List.length_filter_le _ _)

/-- Sorted paths are in strictly ascending order. -/
theorem pairwise_sortPaths (paths : List String) : (sortPaths paths).Pairwise (· < ·) := by
  have htrans (first second third : String) (h : decide (first ≤ second) = true)
      (h' : decide (second ≤ third) = true) : decide (first ≤ third) = true :=
    decide_eq_true (String.le_trans (of_decide_eq_true h) (of_decide_eq_true h'))
  have htotal (first second : String) :
      (decide (first ≤ second) || decide (second ≤ first)) = true := by
    simpa using String.le_total first second
  refine pairwise_lt_eraseDups _ ?_
  exact (List.pairwise_mergeSort htrans htotal (paths.map trimDots)).imp of_decide_eq_true

/-- Sorting keeps paths that do not start with a dot. -/
theorem mem_sortPaths {paths : List String} (h : ∀ path ∈ paths, path.toList.head? ≠ some '.')
    {path : String} : path ∈ sortPaths paths ↔ path ∈ paths := by
  have htrimmed : paths.map trimDots = paths :=
    (List.map_congr_left fun path hpath => trimDots_eq (h path hpath)).trans (List.map_id' paths)
  rw [sortPaths, List.mem_eraseDups, List.mem_mergeSort, htrimmed]

/-! ## Documents without unknown keys -/

/-- A known table is found as before, without the keys that it does not know. -/
theorem lookup_withoutUnknown (hknown : table ∈ knownKeys.map Prod.fst) :
    (withoutUnknown document).lookup table = (document.lookup table).map (pruned table) := by
  rw [withoutUnknown, lookup_map_values, lookup_filter_key (knownKeys.map Prod.fst).contains
    document (List.contains_iff_mem.2 hknown)]

/-- The known keys of a table are found as before. -/
theorem lookup_entriesOf_withoutUnknown (document : Entries)
    (hknown : key ∈ (knownKeys.lookup table).getD []) :
    (entriesOf (withoutUnknown document) table).lookup key =
      (entriesOf document table).lookup key := by
  have htable : table ∈ knownKeys.map Prod.fst := by
    refine Decidable.byContradiction fun hnot => ?_
    rw [lookup_eq_none_iff_fresh.2 hnot] at hknown
    cases hknown
  rw [entriesOf, lookup_withoutUnknown htable, entriesOf]
  cases document.lookup table with
  | none => rfl
  | some value =>
      cases value with
      | table entries =>
          exact lookup_filter_key ((knownKeys.lookup table).getD []).contains entries
            (List.contains_iff_mem.2 hknown)
      | _ => rfl

/-- The known keys have their forms as before. -/
theorem HasForm.withoutUnknown {α : Type} {form? : Toml.Value → Option α}
    (hform : HasForm form? (entriesOf document table) key)
    (hknown : key ∈ (knownKeys.lookup table).getD []) :
    HasForm form? (entriesOf (withoutUnknown document) table) key := by
  unfold HasForm
  rw [lookup_entriesOf_withoutUnknown document hknown]
  exact hform

/-- Without its unknown keys a document describes the same settings. -/
theorem described_withoutUnknown (document : Entries) :
    described (withoutUnknown document) = described document := by
  simp (disch := decide) only [described, assignabilityOf, memoizeOf, loggingOf, valueOr,
    lookup_entriesOf_withoutUnknown]

/-- Each entry that is left is one of a known table, without the keys that it does not know. -/
theorem mem_withoutUnknown :
    (key, value) ∈ withoutUnknown document ↔
      key ∈ knownKeys.map Prod.fst ∧ ∃ content, (key, content) ∈ document ∧
        pruned key content = value := by
  rw [withoutUnknown, List.mem_map]
  constructor
  · rintro ⟨⟨key, content⟩, hentry, ⟨⟩⟩
    obtain ⟨hentry, hknown⟩ := List.mem_filter.1 hentry
    exact ⟨List.contains_iff_mem.1 hknown, content, hentry, rfl⟩
  · rintro ⟨hknown, content, hentry, rfl⟩
    exact ⟨(key, content), List.mem_filter.2 ⟨hentry, List.contains_iff_mem.2 hknown⟩, rfl⟩

/-- A document without its unknown keys has none. -/
theorem not_unknown_withoutUnknown (document : Entries) (path : String) :
    ¬ Unknown (withoutUnknown document) path := by
  intro hunknown
  cases hunknown with
  | outer hentry hunknown => exact hunknown (mem_withoutUnknown.1 hentry).1
  | inner htable hentries hentry hunknown =>
      obtain ⟨_, content, _, hpruned⟩ := mem_withoutUnknown.1 hentries
      cases content with
      | table entries =>
          rw [pruned, lookup_knownKeys _ htable] at hpruned
          cases hpruned
          exact hunknown (List.contains_iff_mem.1 (List.mem_filter.1 hentry).2)
      | _ => cases hpruned

/-- A document without its unknown keys fits as before. -/
theorem Fits.withoutUnknown (hfits : Fits document) : Fits (withoutUnknown document) where
  tables table htable value hlookup := by
    rw [lookup_withoutUnknown htable, Option.map_eq_some_iff] at hlookup
    obtain ⟨content, hcontent, rfl⟩ := hlookup
    obtain ⟨entries, rfl⟩ := hfits.tables table htable content hcontent
    exact ⟨_, rfl⟩
  variance := hfits.variance.withoutUnknown (by decide)
  boxing := hfits.boxing.withoutUnknown (by decide)
  memoize := hfits.memoize.withoutUnknown (by decide)
  level := hfits.level.withoutUnknown (by decide)
  json := hfits.json.withoutUnknown (by decide)
  stderr := hfits.stderr.withoutUnknown (by decide)
  undotted entry hentry hunknown := absurd (mem_withoutUnknown.1 hentry).1 hunknown

/-- Leaving out entries keeps keys distinct. -/
theorem distinct_filter (keep : String × Toml.Value → Bool)
    (hdistinct : (Toml.Value.table entries).Distinct) :
    (Toml.Value.table (entries.filter keep)).Distinct := by
  cases hdistinct with
  | table hkeys hvalues =>
      refine .table ((List.filter_sublist.map _).nodup hkeys) fun entry hentry => ?_
      exact hvalues entry (List.mem_filter.1 hentry).1

/-- Keys stay distinct without the unknown ones. -/
theorem distinct_withoutUnknown (hdistinct : (Toml.Value.table document).Distinct) :
    (Toml.Value.table (withoutUnknown document)).Distinct := by
  cases distinct_filter (fun entry => (knownKeys.map Prod.fst).contains entry.1) hdistinct with
  | table hkeys hvalues =>
      refine .table (by rwa [withoutUnknown, List.map_map]) fun entry hentry => ?_
      obtain ⟨⟨key, content⟩, hcontent, rfl⟩ := List.mem_map.1 hentry
      have hvalue := hvalues _ hcontent
      cases content with
      | table entries => exact distinct_filter _ hvalue
      | _ => exact hvalue

/-! ## Loading -/

variable {δ φ : Type} (dialect : Dialect δ φ)

/-- What is noticed in a document that fits. -/
theorem inspect_eq (hfits : Fits document) (hdistinct : (Toml.Value.table document).Distinct) :
    inspect dialect document =
      .ok ⟨described document, sortPaths (unknownPaths document),
        (described document).warnings dialect⟩ := by
  have hnoted : (unknownPaths document).foldl (fun paths path => paths ++ [path]) [] =
      unknownPaths document := by
    rw [List.foldl_append_eq_append, List.nil_append, ← List.flatMap_def, List.flatMap_singleton']
  rw [inspect, readDocument_eq hfits hdistinct, hnoted]
  rfl

/-- The settings of a document that fits. -/
theorem ofDocument_eq (hfits : Fits document) (hdistinct : (Toml.Value.table document).Distinct) :
    ofDocument document = .ok (described document) := by
  rw [ofDocument, readDocument_eq hfits hdistinct]
  rfl

/-- Settings are loaded from every document whose known keys have their forms, whatever its format
and the dialect of its directives are. They are the standard ones with the values of these keys put
in, and both ways to read the text give them. The keys that are reported are the outermost ones that
are not known, in strictly ascending order; without them the document gives the same settings and
warnings. -/
theorem load_best_effort (format : Toml.Format) {text : String}
    (hparse : format.parse? text = some document) (hfits : Fits document) :
    (∃ unknown,
      load dialect format text =
        .ok ⟨described document, unknown, (described document).warnings dialect⟩ ∧
      unknown.Pairwise (· < ·) ∧ ∀ path, path ∈ unknown ↔ Unknown document path) ∧
    read format text = .ok (described document) ∧
    inspect dialect (withoutUnknown document) =
      .ok ⟨described document, [], (described document).warnings dialect⟩ ∧
    ofDocument (withoutUnknown document) = .ok (described document) := by
  have hdistinct := format.distinct hparse
  have hdocument : documentOf format text = .ok document := by rw [documentOf, hparse]
  have hleft := distinct_withoutUnknown hdistinct
  refine ⟨⟨sortPaths (unknownPaths document), ?_, pairwise_sortPaths _, fun path => ?_⟩, ?_, ?_, ?_⟩
  · rw [load, hdocument]
    exact inspect_eq dialect hfits hdistinct
  · have hundotted (path : String) (hpath : path ∈ unknownPaths document) :=
      hfits.undotted_path (mem_unknownPaths.1 hpath)
    rw [mem_sortPaths hundotted, mem_unknownPaths]
  · rw [read, hdocument]
    exact ofDocument_eq hfits hdistinct
  · have hnone : unknownPaths (withoutUnknown document) = [] :=
      List.eq_nil_iff_forall_not_mem.2 fun path hpath =>
        not_unknown_withoutUnknown document path (mem_unknownPaths.1 hpath)
    have hsorted : sortPaths [] = [] := by simp [sortPaths]
    rw [inspect_eq dialect hfits.withoutUnknown hleft, hnone, hsorted, described_withoutUnknown]
  · rw [ofDocument_eq hfits.withoutUnknown hleft, described_withoutUnknown]

/-- A document with a table that is not known, and with two keys of one path. -/
def mixedDocument : Entries :=
  [("logging.x", .integer 1), ("plugins", .table [("path", .string "a")]),
    ("logging", .table [("x", .integer 2), ("level", .string "debug")]),
    ("assignability", .table [("variance", .string "invariant")])]

/-- The text of that document. -/
def mixedText : String :=
  "\"logging.x\" = 1\n[plugins]\npath = \"a\"\n[logging]\nx = 2\nlevel = \"debug\"\n" ++
    "[assignability]\nvariance = \"invariant\""

/-- The known keys of that document have their forms. -/
theorem fits_mixedDocument : Fits mixedDocument where
  tables table htable value hlookup := by
    simp only [knownKeys, List.map_cons, List.map_nil, List.mem_cons, List.not_mem_nil,
      or_false] at htable
    rcases htable with rfl | rfl | rfl
    · cases hlookup
      exact ⟨_, rfl⟩
    · cases hlookup
    · cases hlookup
      exact ⟨_, rfl⟩
  variance value hlookup := by
    cases hlookup
    rfl
  boxing value hlookup := by cases hlookup
  memoize value hlookup := by cases hlookup
  level value hlookup := by
    cases hlookup
    rfl
  json value hlookup := by cases hlookup
  stderr value hlookup := by cases hlookup
  undotted := by decide

/-- That document is loaded. The shared path is reported, and the unknown table by its own path
alone. -/
theorem mixedText_loads :
    Toml.standard.parse? mixedText = some mixedDocument ∧ Fits mixedDocument ∧
    (∃ unknown,
      load .targets Toml.standard mixedText =
        .ok ⟨described mixedDocument, unknown, (described mixedDocument).warnings .targets⟩ ∧
      unknown.Pairwise (· < ·) ∧ "logging.x" ∈ unknown ∧ "plugins" ∈ unknown ∧
      "plugins.path" ∉ unknown) ∧
    read Toml.standard mixedText =
      .ok { assignability := { variance := .invariant, boxing := true }
            logging := { level := "debug" } } := by
  have hparse : Toml.standard.parse? mixedText = some mixedDocument := by decide +kernel
  obtain ⟨⟨unknown, hload, hsorted, hunknown⟩, hread, _⟩ :=
    load_best_effort Dialect.targets Toml.standard hparse fits_mixedDocument
  refine ⟨hparse, fits_mixedDocument, ⟨unknown, hload, hsorted, ?_, ?_, ?_⟩, hread⟩
  · exact (hunknown _).2 (.outer List.mem_cons_self (by decide))
  · exact (hunknown _).2 (.outer (List.mem_cons_of_mem _ List.mem_cons_self) (by decide))
  · intro hmem
    have hnot : "plugins.path" ∉ unknownPaths mixedDocument := by decide
    exact hnot (mem_unknownPaths.2 ((hunknown _).1 hmem))

end Nominal.Settings
