import Nominal.Lookup
import Nominal.Toml.Document

/-!
# Distinct keys

No table of a document, at any depth, has a key twice. The tables of a document come about piece by
piece, so this is an invariant of tables under construction: each way to change one keeps it
(`Keeps`), and values that are read whole have it by themselves (`value?_yields`). The entries that
`parse?` returns have it in the end (`distinct_of_parse?`), which makes it a format (`standard`).
-/

namespace Nominal.Toml

/-- No table in the part has a key twice. -/
inductive Node.Distinct : Node → Prop where
  | value {content : Value} (hcontent : content.Distinct) : Distinct (.value content)
  | table {origin : Origin} {entries : List (String × Node)} (hkeys : (entries.map Prod.fst).Nodup)
      (hnodes : ∀ entry ∈ entries, Distinct entry.2) : Distinct (.table origin entries)
  | tables {items : List (List (String × Node))}
      (hkeys : ∀ entries ∈ items, (entries.map Prod.fst).Nodup)
      (hnodes : ∀ entries ∈ items, ∀ entry ∈ entries, Distinct entry.2) :
      Distinct (.tables items)

/-- A table under construction has no key twice, and neither has a table in it. -/
structure DistinctEntries (entries : List (String × Node)) : Prop where
  keys : (entries.map Prod.fst).Nodup
  nodes : ∀ entry ∈ entries, entry.2.Distinct

/-- A key that is new can be put after distinct ones. -/
theorem nodup_concat {keys : List String} {key : String} (hkeys : keys.Nodup) (hnew : key ∉ keys) :
    (keys ++ [key]).Nodup := by
  refine List.nodup_append.2 ⟨hkeys, List.pairwise_singleton _ _, fun other hother last hlast => ?_⟩
  rw [List.mem_singleton.1 hlast]
  exact fun heq => hnew (heq ▸ hother)

/-! ## Finished parts -/

/-- Finishing entries finishes the part of each key. -/
theorem finishEntries_eq_map (entries : List (String × Node)) :
    finishEntries entries = entries.map fun entry => (entry.1, entry.2.finish) := by
  induction entries with
  | nil => simp [finishEntries]
  | cons entry rest ih => simp [finishEntries, ih]

/-- Finishing a list of tables finishes each of them. -/
theorem finishItems_eq_map (items : List (List (String × Node))) :
    finishItems items = items.map fun entries => .table (finishEntries entries) := by
  induction items with
  | nil => simp [finishItems]
  | cons entries rest ih => simp [finishItems, ih]

/-- The keys of finished entries are those of the entries. -/
theorem keys_finishEntries (entries : List (String × Node)) :
    (finishEntries entries).map Prod.fst = entries.map Prod.fst := by
  simp [finishEntries_eq_map]

/-- Entries whose parts finish to values with distinct keys finish to a table with distinct keys. -/
theorem distinct_finishEntries {entries : List (String × Node)}
    (hkeys : (entries.map Prod.fst).Nodup) (hnodes : ∀ entry ∈ entries, entry.2.finish.Distinct) :
    (Value.table (finishEntries entries)).Distinct := by
  refine .table (keys_finishEntries entries ▸ hkeys) fun finished hfinished => ?_
  rw [finishEntries_eq_map] at hfinished
  obtain ⟨entry, hentry, rfl⟩ := List.mem_map.1 hfinished
  exact hnodes entry hentry

/-- The value of a part has distinct keys if the part has. -/
theorem Node.Distinct.finish {node : Node} (h : node.Distinct) : node.finish.Distinct := by
  induction h with
  | value hcontent => simpa [Node.finish] using hcontent
  | table hkeys _ ih =>
      rw [Node.finish]
      exact distinct_finishEntries hkeys ih
  | tables hkeys _ ih =>
      rw [Node.finish, finishItems_eq_map]
      refine .array fun item hitem => ?_
      obtain ⟨entries, hentries, rfl⟩ := List.mem_map.1 hitem
      exact distinct_finishEntries (hkeys entries hentries) (ih entries hentries)

namespace DistinctEntries

variable {entries : List (String × Node)} {key : String} {node : Node}

/-- The entries of a finished table have distinct keys. -/
theorem finish (h : DistinctEntries entries) : (Value.table (finishEntries entries)).Distinct :=
  distinct_finishEntries h.keys fun entry hentry => (h.nodes entry hentry).finish

/-- There is nothing twice in an empty table. -/
theorem nil : DistinctEntries [] := ⟨List.nodup_nil, nofun⟩

/-- What is found for a key has distinct keys. -/
theorem of_lookup (h : DistinctEntries entries) (hlookup : entries.lookup key = some node) :
    node.Distinct := by
  obtain ⟨before, after, rfl, _⟩ := List.lookup_eq_some_iff.1 hlookup
  exact h.nodes (key, node) List.mem_append_cons_self

/-- A key that is not found can be added. -/
theorem concat (h : DistinctEntries entries) (hkey : key ∉ entries.map Prod.fst)
    (hnode : node.Distinct) : DistinctEntries (entries ++ [(key, node)]) where
  keys := by
    rw [List.map_append]
    exact nodup_concat h.keys hkey
  nodes entry hentry := by
    rcases List.mem_append.1 hentry with hentry | hentry
    · exact h.nodes entry hentry
    · rw [List.mem_singleton.1 hentry]
      exact hnode

/-- Setting an entry keeps the keys, or adds one that was not there. -/
theorem keys_put (key : String) (node : Node) (entries : List (String × Node)) :
    (Tree.put key node entries).map Prod.fst =
      if key ∈ entries.map Prod.fst then entries.map Prod.fst
      else entries.map Prod.fst ++ [key] := by
  induction entries with
  | nil => simp [Tree.put]
  | cons entry rest ih =>
      by_cases hkey : entry.1 = key
      · simp [Tree.put, hkey]
      · have hne : ¬ key = entry.1 := fun heq => hkey heq.symm
        simp only [Tree.put, beq_iff_eq, hkey, if_false, List.map_cons, ih, List.mem_cons, hne,
          false_or]
        split <;> rfl

/-- After setting an entry there are this entry and others that were there before. -/
theorem mem_put {entry : String × Node} (hentry : entry ∈ Tree.put key node entries) :
    entry = (key, node) ∨ entry ∈ entries := by
  induction entries with
  | nil => exact .inl (List.mem_singleton.1 hentry)
  | cons head rest ih =>
      unfold Tree.put at hentry
      split at hentry
      · rcases List.mem_cons.1 hentry with heq | hentry
        · exact .inl heq
        · exact .inr (List.mem_cons_of_mem _ hentry)
      · rcases List.mem_cons.1 hentry with rfl | hentry
        · exact .inr List.mem_cons_self
        · exact (ih hentry).imp_right (List.mem_cons_of_mem _)

/-- Setting an entry keeps keys distinct. -/
theorem put (h : DistinctEntries entries) (key : String) (hnode : node.Distinct) :
    DistinctEntries (Tree.put key node entries) where
  keys := by
    rw [keys_put]
    split
    · exact h.keys
    · rename_i hkey
      exact nodup_concat h.keys hkey
  nodes entry hentry := by
    rcases mem_put hentry with rfl | hentry
    · exact hnode
    · exact h.nodes entry hentry

/-- Dropping entries keeps keys distinct. -/
theorem filter (h : DistinctEntries entries) (keep : String × Node → Bool) :
    DistinctEntries (entries.filter keep) where
  keys := h.keys.sublist (List.filter_sublist.map Prod.fst)
  nodes entry hentry := h.nodes entry (List.mem_filter.1 hentry).1

end DistinctEntries

/-- A table has distinct keys if its entries have. -/
theorem Node.distinct_table {origin : Origin} {entries : List (String × Node)} :
    (Node.table origin entries).Distinct ↔ DistinctEntries entries := by
  constructor
  · intro h
    cases h with
    | table hkeys hnodes => exact ⟨hkeys, hnodes⟩
  · intro h
    exact .table h.keys h.nodes

/-- A list of tables has distinct keys if all its tables have. -/
theorem Node.distinct_tables {items : List (List (String × Node))} :
    (Node.tables items).Distinct ↔ ∀ entries ∈ items, DistinctEntries entries := by
  constructor
  · intro h
    cases h with
    | tables hkeys hnodes =>
        exact fun entries hentries => ⟨hkeys entries hentries, hnodes entries hentries⟩
  · intro h
    exact .tables (fun entries hentries => (h entries hentries).keys)
      fun entries hentries => (h entries hentries).nodes

/-! ## Changes of tables -/

/-- The change keeps the keys of a table distinct. -/
def Keeps (change : Tree → Option Tree) : Prop :=
  ∀ ⦃tree tree' : Tree⦄, change tree = some tree' → DistinctEntries tree.entries →
    DistinctEntries tree'.entries

namespace Keeps

variable {change filling : Tree → Option Tree} {content : Value}

/-- A new key is not there twice. -/
theorem insertNew (key : String) (hcontent : content.Distinct) :
    Keeps (Tree.insertNew key content) := by
  intro tree tree' h htree
  unfold Tree.insertNew at h
  split at h
  · cases h
  · rename_i hnew
    cases h
    have hnone : tree.entries.lookup key = none := Option.not_isSome_iff_eq_none.1 hnew
    exact htree.concat (lookup_eq_none_iff_fresh.1 hnone) (.value hcontent)

/-- A change at the end of a path keeps keys distinct on the way. -/
theorem modifyAt (hchange : Keeps change) (missing : Origin) (path : List String) :
    Keeps (Tree.modifyAt missing change path) := by
  induction path with
  | nil => exact hchange
  | cons key path ih =>
      intro tree tree' h htree
      unfold Tree.modifyAt at h
      split at h
      case h_1 =>
        obtain ⟨child, hchild, h⟩ := Option.bind_eq_some_iff.1 h
        cases h
        exact htree.put key (Node.distinct_table.2 (ih hchild .nil))
      case h_2 hlookup =>
        split at h
        · cases h
        · obtain ⟨child, hchild, h⟩ := Option.bind_eq_some_iff.1 h
          cases h
          have hentries := Node.distinct_table.1 (htree.of_lookup hlookup)
          exact htree.put key (Node.distinct_table.2 (ih hchild hentries))
      case h_3 items hlookup =>
        obtain ⟨last, hlast, h⟩ := Option.bind_eq_some_iff.1 h
        obtain ⟨child, hchild, h⟩ := Option.bind_eq_some_iff.1 h
        cases h
        have hitems := Node.distinct_tables.1 (htree.of_lookup hlookup)
        have hentries := hitems last (List.mem_of_getLast? hlast)
        refine htree.put key (Node.distinct_tables.2 fun entries hmem => ?_)
        rcases List.mem_append.1 hmem with hmem | hmem
        · exact hitems entries (List.dropLast_subset _ hmem)
        · rw [List.mem_singleton.1 hmem]
          exact ih hchild hentries
      case h_4 => cases h

/-- Setting the value of a path keeps keys distinct. -/
theorem insert (path : List String) (key : String) (hcontent : content.Distinct) :
    Keeps fun tree => tree.insert path key content := by
  intro tree tree' h htree
  unfold Tree.insert at h
  split at h
  · exact insertNew key hcontent h htree
  · refine modifyAt (fun child child' hchild hentries => ?_) .dotted path h htree
    split at hchild
    · exact insertNew key hcontent hchild hentries
    · cases hchild

/-- A table that is opened takes the place of the implied one. -/
theorem openTable (hfilling : Keeps filling) (path : List String) (key : String) :
    Keeps (Tree.openTable path key filling) := by
  refine modifyAt (fun parent parent' h hparent => ?_) .implied path
  have hopened {present : List (String × Node)} (hpresent : DistinctEntries present)
      (h : (do
        let filled ← filling ⟨.header, present⟩
        let others := parent.entries.filter (fun entry => entry.1 != key)
        return { parent with entries := others ++ [(key, .table .header filled.entries)] }) =
          some parent') : DistinctEntries parent'.entries := by
    obtain ⟨filled, hfilled, h⟩ := Option.bind_eq_some_iff.1 h
    cases h
    have hother : key ∉ (parent.entries.filter fun entry => entry.1 != key).map Prod.fst := by
      simp
    exact (hparent.filter _).concat hother (Node.distinct_table.2 (hfilling hfilled hpresent))
  dsimp only at h
  split at h
  case h_1 => exact hopened .nil h
  case h_2 hlookup => exact hopened (Node.distinct_table.1 (hparent.of_lookup hlookup)) h
  case h_3 => cases h

/-- A table that is added to a list has keys of its own. -/
theorem openItem (hfilling : Keeps filling) (path : List String) (key : String) :
    Keeps (Tree.openItem path key filling) := by
  refine modifyAt (fun parent parent' h hparent => ?_) .implied path
  have hopened {items : List (List (String × Node))}
      (hitems : ∀ entries ∈ items, DistinctEntries entries)
      (h : (do
        let filled ← filling (.empty .header)
        return { parent with
          entries := Tree.put key (.tables (items ++ [filled.entries])) parent.entries }) =
          some parent') : DistinctEntries parent'.entries := by
    obtain ⟨filled, hfilled, h⟩ := Option.bind_eq_some_iff.1 h
    cases h
    refine hparent.put key (Node.distinct_tables.2 fun entries hmem => ?_)
    rcases List.mem_append.1 hmem with hmem | hmem
    · exact hitems entries hmem
    · rw [List.mem_singleton.1 hmem]
      exact hfilling hfilled .nil
  dsimp only at h
  split at h
  case h_1 => exact hopened (List.forall_mem_nil _) h
  case h_2 hlookup => exact hopened (Node.distinct_tables.1 (hparent.of_lookup hlookup)) h
  case h_3 => cases h

/-- An assignment keeps keys distinct. -/
theorem assign (path : List String) (hcontent : content.Distinct) :
    Keeps fun tree => Toml.assign tree path content := by
  intro tree tree' h htree
  obtain ⟨key, _, h⟩ := Option.bind_eq_some_iff.1 h
  exact insert path.dropLast key hcontent h htree

/-- Changes in a row keep keys distinct if each of them does. -/
theorem foldlM {α : Type} {step : Tree → α → Option Tree} {items : List α}
    (hstep : ∀ item ∈ items, Keeps fun tree => step tree item) :
    Keeps fun tree => items.foldlM step tree := by
  induction items with
  | nil =>
      intro tree tree' h htree
      cases h
      exact htree
  | cons item rest ih =>
      intro tree tree' h htree
      obtain ⟨next, hnext, h⟩ := Option.bind_eq_some_iff.1 h
      rw [List.forall_mem_cons] at hstep
      exact ih hstep.2 h (hstep.1 hnext htree)

/-- Assignments in a row keep keys distinct. -/
theorem fill {body : List (List String × Value)} (hbody : ∀ pair ∈ body, pair.2.Distinct) :
    Keeps (Toml.fill body) :=
  foldlM fun pair hpair => assign pair.1 (hbody pair hpair)

/-- A section keeps keys distinct. -/
theorem addSection {part : Section} (hbody : ∀ pair ∈ part.body, pair.2.Distinct) :
    Keeps fun tree => Toml.addSection tree part := by
  intro tree tree' h htree
  unfold Toml.addSection at h
  split at h
  case h_1 path _ =>
    obtain ⟨key, _, h⟩ := Option.bind_eq_some_iff.1 h
    exact openTable (fill hbody) path.dropLast key h htree
  case h_2 path _ =>
    obtain ⟨key, _, h⟩ := Option.bind_eq_some_iff.1 h
    exact openItem (fill hbody) path.dropLast key h htree

end Keeps

/-! ## What readers return -/

/-- What the reader returns has the property. -/
def Yields {α : Type} (reader : Reader α) (holds : α → Prop) : Prop :=
  ∀ ⦃chars rest : List Char⦄ ⦃result : α⦄, reader chars = some (result, rest) → holds result

variable {item : Reader Value}

/-- The items of an array are what the reader of items returns. -/
theorem items?_yields (hitem : Yields item Value.Distinct) (count : Nat) :
    Yields (items? item count) fun items => ∀ value ∈ items, value.Distinct := by
  induction count with
  | zero => exact nofun
  | succ count ih =>
      intro chars rest items h
      unfold items? at h
      split at h
      · cases h
        exact nofun
      · obtain ⟨⟨first, after⟩, hfirst, h⟩ := Option.bind_eq_some_iff.1 h
        dsimp only at h
        split at h
        · obtain ⟨⟨more, last⟩, hmore, h⟩ := Option.bind_eq_some_iff.1 h
          cases h
          exact List.forall_mem_cons.2 ⟨hitem hfirst, ih hmore⟩
        · cases h
          exact List.forall_mem_singleton.2 (hitem hfirst)
        · cases h

/-- The value of an assignment is what the reader of values returns. -/
theorem assignment?_yields (hitem : Yields item Value.Distinct) :
    Yields (assignment? item) fun pair => pair.2.Distinct := by
  intro chars rest pair h
  obtain ⟨⟨path, after⟩, _, h⟩ := Option.bind_eq_some_iff.1 h
  obtain ⟨start, _, h⟩ := Option.bind_eq_some_iff.1 h
  obtain ⟨⟨content, last⟩, hcontent, h⟩ := Option.bind_eq_some_iff.1 h
  cases h
  exact hitem hcontent

/-- An inline table is filled by assignments. -/
theorem inlineRest?_yields (hitem : Yields item Value.Distinct) (count : Nat) {tree : Tree}
    (htree : DistinctEntries tree.entries) :
    Yields (inlineRest? item count tree) fun tree => DistinctEntries tree.entries := by
  induction count generalizing tree with
  | zero => exact nofun
  | succ count ih =>
      intro chars rest result h
      obtain ⟨⟨⟨path, content⟩, after⟩, hassignment, h⟩ := Option.bind_eq_some_iff.1 h
      obtain ⟨next, hnext, h⟩ := Option.bind_eq_some_iff.1 h
      have hentries := Keeps.assign path (assignment?_yields hitem hassignment) hnext htree
      split at h
      · exact ih hentries h
      · cases h
        exact hentries
      · cases h

/-- Inline tables have distinct keys. -/
theorem inline?_yields (hitem : Yields item Value.Distinct) (count : Nat) :
    Yields (inline? item count) Value.Distinct := by
  intro chars rest result h
  unfold inline? at h
  split at h
  · cases h
    exact .table List.nodup_nil nofun
  · obtain ⟨⟨tree, after⟩, htree, h⟩ := Option.bind_eq_some_iff.1 h
    cases h
    exact (inlineRest?_yields hitem count .nil htree).finish

/-- Scalars have no keys. -/
theorem distinct_of_scalarOf? {spelling : List Char} {value : Value}
    (h : scalarOf? spelling = some value) : value.Distinct := by
  unfold scalarOf? at h
  split at h
  · cases h
    exact .boolean true
  · split at h
    · cases h
      exact .boolean false
    · split at h
      · cases h
        exact .moment _
      · split at h
        · cases h
          exact .float _
        · obtain ⟨integer, _, rfl⟩ := Option.map_eq_some_iff.1 h
          exact .integer integer

/-- Plain values have no keys. -/
theorem plainValue?_yields : Yields plainValue? Value.Distinct := by
  intro chars rest result h
  unfold plainValue? at h
  split at h
  · obtain ⟨⟨value, after⟩, _, h⟩ := Option.map_eq_some_iff.1 h
    cases h
    exact .string value
  · obtain ⟨⟨value, after⟩, _, h⟩ := Option.map_eq_some_iff.1 h
    cases h
    exact .string value
  · obtain ⟨value, hvalue, h⟩ := Option.bind_eq_some_iff.1 h
    cases h
    exact distinct_of_scalarOf? hvalue

/-- Values have distinct keys. -/
theorem value?_yields (count depth : Nat) : Yields (value? count depth) Value.Distinct := by
  induction depth with
  | zero => exact plainValue?_yields
  | succ depth ih =>
      intro chars rest result h
      unfold value? at h
      split at h
      · obtain ⟨⟨items, after⟩, hitems, h⟩ := Option.bind_eq_some_iff.1 h
        cases h
        exact .array (items?_yields ih count hitems)
      · exact inline?_yields ih count h
      · exact plainValue?_yields h

/-- The value that a line assigns, if it assigns one, has distinct keys. -/
def Line.Distinct : Line → Prop
  | .header _ => True
  | .assignment _ content => content.Distinct

/-- Lines assign values with distinct keys. -/
theorem line?_yields (count : Nat) : Yields (line? count) Line.Distinct := by
  intro chars rest result h
  unfold line? at h
  split at h
  · obtain ⟨⟨header, after⟩, _, h⟩ := Option.map_eq_some_iff.1 h
    cases h
    trivial
  · obtain ⟨⟨⟨path, content⟩, after⟩, hassignment, h⟩ := Option.bind_eq_some_iff.1 h
    cases h
    exact assignment?_yields (value?_yields count depthLimit) hassignment

/-- All lines of a text assign values with distinct keys. -/
theorem distinct_of_lines? {count size : Nat} {chars : List Char} {lines : List Line}
    (h : lines? count size chars = some lines) : ∀ line ∈ lines, line.Distinct := by
  induction size generalizing chars lines with
  | zero => cases h
  | succ size ih =>
      unfold lines? at h
      split at h
      · cases h
        exact nofun
      · exact ih h
      · obtain ⟨⟨line, after⟩, hline, h⟩ := Option.bind_eq_some_iff.1 h
        obtain ⟨next, _, h⟩ := Option.bind_eq_some_iff.1 h
        obtain ⟨more, hmore, h⟩ := Option.bind_eq_some_iff.1 h
        cases h
        exact List.forall_mem_cons.2 ⟨line?_yields count hline, ih hmore⟩

/-- The assignments of sections are those of the lines. -/
theorem distinct_sections {lines : List Line} (h : ∀ line ∈ lines, line.Distinct) :
    (∀ pair ∈ (sections lines).1, pair.2.Distinct) ∧
      ∀ part ∈ (sections lines).2, ∀ pair ∈ part.body, pair.2.Distinct := by
  induction lines with
  | nil => exact ⟨nofun, nofun⟩
  | cons line rest ih =>
      rw [List.forall_mem_cons] at h
      obtain ⟨hbody, hothers⟩ := ih h.2
      cases line with
      | assignment path content => exact ⟨List.forall_mem_cons.2 ⟨h.1, hbody⟩, hothers⟩
      | header header => exact ⟨nofun, List.forall_mem_cons.2 ⟨hbody, hothers⟩⟩

/-- No table of a document has a key twice. -/
theorem distinct_of_parse? {text : String} {document : List (String × Value)}
    (h : parse? text = some document) : (Value.table document).Distinct := by
  obtain ⟨lines, hlines, h⟩ := Option.bind_eq_some_iff.1 h
  obtain ⟨hbody, hothers⟩ := distinct_sections (distinct_of_lines? hlines)
  obtain ⟨start, hstart, h⟩ := Option.bind_eq_some_iff.1 h
  obtain ⟨tree, htree, h⟩ := Option.bind_eq_some_iff.1 h
  cases h
  have hsections := Keeps.foldlM fun part hpart => Keeps.addSection (hothers part hpart)
  exact (hsections htree (Keeps.fill hbody hstart .nil)).finish

/-- The format of TOML documents. -/
def standard : Format where
  parse? := parse?
  distinct := distinct_of_parse?

end Nominal.Toml
