import Nominal.Toml.Value

/-!
# Tables under construction

A document builds its tables piece by piece. A table has a header of its own, or it is implied by
the headers or dotted keys of tables inside it. An implied table may get its header later and then
moves behind its siblings; a table that dotted keys imply can be extended by dotted keys alone, and
a table with a header not by them. No key is set twice.
-/

namespace Nominal.Toml

/-- How a table came to be. -/
inductive Origin where
  /-- It has a header, or it is the document itself. -/
  | header
  /-- The header of a table inside it implies it. -/
  | implied
  /-- A dotted key implies it. -/
  | dotted
  deriving DecidableEq

/-- A part of a document under construction. -/
inductive Node where
  | value (content : Value)
  | table (origin : Origin) (entries : List (String × Node))
  | tables (items : List (List (String × Node)))

/-- A table under construction. -/
structure Tree where
  origin : Origin
  entries : List (String × Node)

namespace Tree

/-- A table without entries. -/
def empty (origin : Origin) : Tree := ⟨origin, []⟩

/-- Set the entry of a key in its place, or at the end if it is new. -/
def put (key : String) (node : Node) : List (String × Node) → List (String × Node)
  | [] => [(key, node)]
  | entry :: rest => if entry.1 == key then (key, node) :: rest else entry :: put key node rest

/-- Change the table at the end of a path. Tables on the way that are missing come to be with the
given origin; of a list of tables the last one is meant. -/
def modifyAt (missing : Origin) (change : Tree → Option Tree) : List String → Tree → Option Tree
  | [], tree => change tree
  | key :: path, tree =>
      match tree.entries.lookup key with
      | none => do
          let child ← modifyAt missing change path (empty missing)
          return { tree with entries := put key (.table child.origin child.entries) tree.entries }
      | some (.table origin entries) =>
          if missing == .dotted && origin == .header then none
          else do
            let child ← modifyAt missing change path ⟨origin, entries⟩
            return { tree with
              entries := put key (.table child.origin child.entries) tree.entries }
      | some (.tables items) => do
          let child ← modifyAt missing change path ⟨.header, ← items.getLast?⟩
          return { tree with
            entries := put key (.tables (items.dropLast ++ [child.entries])) tree.entries }
      | some (.value _) => none

/-- Set a new key at the end of a table. -/
def insertNew (key : String) (content : Value) (tree : Tree) : Option Tree :=
  if (tree.entries.lookup key).isSome then none
  else some { tree with entries := tree.entries ++ [(key, .value content)] }

/-- Set the value of a path of keys, the last of which is `key`. -/
def insert (tree : Tree) (path : List String) (key : String) (content : Value) : Option Tree :=
  if path.isEmpty then insertNew key content tree
  else
    modifyAt .dotted
      (fun child => if child.origin == .dotted then insertNew key content child else none)
      path tree

/-- Open a table with a header and fill it. -/
def openTable (path : List String) (key : String) (fill : Tree → Option Tree) (tree : Tree) :
    Option Tree :=
  modifyAt .implied (fun parent => do
    let present ← match parent.entries.lookup key with
      | none => some []
      | some (.table .implied entries) => some entries
      | some _ => none
    let filled ← fill ⟨.header, present⟩
    let others := parent.entries.filter (fun entry => entry.1 != key)
    return { parent with entries := others ++ [(key, .table .header filled.entries)] }) path tree

/-- Open a further table of a list of tables and fill it. -/
def openItem (path : List String) (key : String) (fill : Tree → Option Tree) (tree : Tree) :
    Option Tree :=
  modifyAt .implied (fun parent => do
    let items ← match parent.entries.lookup key with
      | none => some []
      | some (.tables items) => some items
      | some _ => none
    let filled ← fill (empty .header)
    return { parent with entries := put key (.tables (items ++ [filled.entries])) parent.entries })
    path tree

end Tree

mutual
/-- The value of a finished part. -/
def Node.finish : Node → Value
  | .value content => content
  | .table _ entries => .table (finishEntries entries)
  | .tables items => .array (finishItems items)

/-- The entries of a finished table. -/
def finishEntries : List (String × Node) → List (String × Value)
  | [] => []
  | (key, node) :: rest => (key, node.finish) :: finishEntries rest

/-- The items of a finished list of tables. -/
def finishItems : List (List (String × Node)) → List Value
  | [] => []
  | entries :: rest => .table (finishEntries entries) :: finishItems rest
end

end Nominal.Toml
