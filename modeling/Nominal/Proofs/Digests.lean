import Mathlib.Logic.Function.Basic
import Nominal.Proofs.Equality
import Nominal.Type.Node

/-!
# Equality and digests

Two types are equal when they are the same after kinds, arities and bounds have been forgotten
(`bare_eq_iff`). A digest is made from what is left then, so equal types have equal digests under
every hash function, and only they have under one that is injective. Digests are kept in cells, and
types share cells. In every state that comes about a cell holds the digest of the type it belongs
to, so that it makes no difference which cells have been filled.
-/

namespace Nominal

namespace Ty

mutual
/-- A type with all kinds and arities and all references to bounds forgotten. -/
def bare : Ty → Ty
  | .named head => .named ⟨head.name, .classType, 0⟩
  | .applied owner raw args =>
      .applied (bareOption owner) ⟨⟨raw.name, .classType, 0⟩, rfl⟩ (bareList args)
  | .array component => .array component.bare
  | .var param => .var ⟨param.name, param.declaration, .back 0⟩
  | .wildcard upper lower => .wildcard upper.bare (bareOption lower)

/-- An optional type of which the same is forgotten. -/
def bareOption : Option Ty → Option Ty
  | none => none
  | some t => some t.bare

/-- Types of which the same is forgotten. -/
def bareList : List Ty → List Ty
  | [] => []
  | first :: rest => first.bare :: bareList rest
end

mutual
/-- Types are the same exactly when nothing but what is forgotten tells them apart. -/
theorem bare_eq_iff_same : (s t : Ty) → (s.bare = t.bare ↔ same s t = true)
  | .named s, t => by
      cases t <;> simp only [bare, same, alike, reduceCtorEq, Bool.false_eq_true]
      simp only [named.injEq, Named.mk.injEq, and_true, Named.beq_iff]
  | .applied owner raw args, t => by
      cases t <;> simp only [bare, same, alike, reduceCtorEq, Bool.false_eq_true]
      simp only [applied.injEq, ClassName.eq_iff, Named.mk.injEq, and_true, Bool.and_eq_true,
        Named.beq_iff, bareOption_eq_iff owner, bareList_eq_iff args]
      tauto
  | .array component, t => by
      cases t <;> simp only [bare, same, alike, reduceCtorEq, Bool.false_eq_true]
      simp only [array.injEq, bare_eq_iff_same component, same]
  | .var s, t => by
      cases t <;> simp only [bare, same, alike, reduceCtorEq, Bool.false_eq_true]
      simp only [var.injEq, TypeVar.mk.injEq, and_true, TypeVar.beq_iff]
  | .wildcard upper lower, t => by
      cases t <;> simp only [bare, same, alike, reduceCtorEq, Bool.false_eq_true]
      simp only [wildcard.injEq, bare_eq_iff_same upper, bareOption_eq_iff lower, same,
        Bool.and_eq_true]

/-- Optional types agree exactly when nothing but what is forgotten tells them apart. -/
theorem bareOption_eq_iff : (s t : Option Ty) →
    (bareOption s = bareOption t ↔ alikeOption (· == ·) s t = true)
  | none, t => by cases t <;> simp [bareOption, alikeOption]
  | some s, t => by
      cases t <;> simp only [bareOption, alikeOption, reduceCtorEq, Bool.false_eq_true]
      simp only [Option.some.injEq, bare_eq_iff_same s, same]

/-- Lists of types agree exactly when nothing but what is forgotten tells them apart. -/
theorem bareList_eq_iff : (s t : List Ty) →
    (bareList s = bareList t ↔ alikeList (· == ·) s t = true)
  | [], t => by cases t <;> simp [bareList, alikeList]
  | first :: rest, t => by
      cases t <;> simp only [bareList, alikeList, reduceCtorEq, Bool.false_eq_true]
      simp only [List.cons.injEq, bare_eq_iff_same first, bareList_eq_iff rest, same,
        Bool.and_eq_true]
end

/-- Types are equal exactly when nothing but what is forgotten tells them apart. -/
theorem bare_eq_iff {s t : Ty} : s.bare = t.bare ↔ (s == t) = true := by
  rw [beq_eq_same]
  exact bare_eq_iff_same s t

/-! ## Digests -/

variable {δ : Type} {hashOf : List (Chunk δ) → δ}

mutual
/-- A digest does not depend on what is forgotten. -/
theorem digest_bare : (t : Ty) → t.bare.digest hashOf = t.digest hashOf
  | .named head => by simp only [bare, digest]
  | .applied owner raw args => by
      simp only [bare, digest, digestOption_bare owner, digestList_bare args]
  | .array component => by simp only [bare, digest, digest_bare component]
  | .var param => by simp only [bare, digest]
  | .wildcard upper lower => by
      simp only [bare, digest, digest_bare upper, digestOption_bare lower]

/-- What an optional part feeds does not depend on what is forgotten. -/
theorem digestOption_bare : (t : Option Ty) →
    digestOption hashOf (bareOption t) = digestOption hashOf t
  | none => by simp only [bareOption]
  | some t => by simp only [bareOption, digestOption, digest_bare t]

/-- What several parts feed does not depend on what is forgotten. -/
theorem digestList_bare : (types : List Ty) →
    digestList hashOf (bareList types) = digestList hashOf types
  | [] => by simp only [bareList]
  | first :: rest => by
      simp only [bareList, digestList, digest_bare first, digestList_bare rest]
end

/-- Equal types have equal digests. -/
theorem digest_congr {s t : Ty} (h : (s == t) = true) : s.digest hashOf = t.digest hashOf := by
  rw [← digest_bare s, bare_eq_iff.2 h, digest_bare]

mutual
/-- Under an injective hash function, types with one digest are the same but for what is
forgotten. -/
theorem bare_eq_of_digest_eq (hinjective : Function.Injective hashOf) :
    (s t : Ty) → s.digest hashOf = t.digest hashOf → s.bare = t.bare
  | .named s, t, h => by
      cases t <;> simp only [digest] at h <;> have hfed := hinjective h <;> simp at hfed
      simp only [bare, hfed]
  | .applied owner raw args, t, h => by
      cases t <;> simp only [digest] at h <;> have hfed := hinjective h <;> simp at hfed
      simp only [bare, hfed.2.1, bareOption_eq_of_digest_eq hinjective owner _ hfed.1,
        bareList_eq_of_digest_eq hinjective args _ hfed.2.2]
  | .array component, t, h => by
      cases t <;> simp only [digest] at h <;> have hfed := hinjective h <;> simp at hfed
      simp only [bare, bare_eq_of_digest_eq hinjective component _ hfed]
  | .var s, t, h => by
      cases t <;> simp only [digest] at h <;> have hfed := hinjective h <;> simp at hfed
      simp only [bare, hfed.1, hfed.2]
  | .wildcard upper lower, t, h => by
      cases t <;> simp only [digest] at h <;> have hfed := hinjective h <;> simp at hfed
      simp only [bare, bare_eq_of_digest_eq hinjective upper _ hfed.1,
        bareOption_eq_of_digest_eq hinjective lower _ hfed.2]

/-- Optional parts that feed the same are the same but for what is forgotten. -/
theorem bareOption_eq_of_digest_eq (hinjective : Function.Injective hashOf) : (s t : Option Ty) →
    digestOption hashOf s = digestOption hashOf t → bareOption s = bareOption t
  | none, t, h => by cases t <;> simp_all [digestOption, bareOption]
  | some s, t, h => by
      cases t <;> simp only [digestOption, reduceCtorEq, Chunk.present.injEq] at h
      simp only [bareOption, bare_eq_of_digest_eq hinjective s _ h]

/-- Parts that feed the same are the same but for what is forgotten. -/
theorem bareList_eq_of_digest_eq (hinjective : Function.Injective hashOf) : (s t : List Ty) →
    digestList hashOf s = digestList hashOf t → bareList s = bareList t
  | [], t, h => by cases t <;> simp_all [digestList, bareList]
  | first :: rest, t, h => by
      cases t <;> simp only [digestList, reduceCtorEq, List.cons.injEq, Chunk.digest.injEq] at h
      simp only [bareList, bare_eq_of_digest_eq hinjective first _ h.1,
        bareList_eq_of_digest_eq hinjective rest _ h.2]
end

/-- Under an injective hash function, types are equal exactly when their digests are. -/
theorem digest_eq_iff (hinjective : Function.Injective hashOf) {s t : Ty} :
    s.digest hashOf = t.digest hashOf ↔ (s == t) = true :=
  ⟨fun h => bare_eq_iff.1 (bare_eq_of_digest_eq hinjective s t h), digest_congr⟩

end Ty

/-! ## Cells that are filled -/

section Cells

variable {δ : Type} {α β : Type} {hashOf : List (Chunk δ) → δ}

/-- From cells with a property a computation returns the value and leaves cells with it. -/
def Yields (holds : Kept δ → Prop) (computation : StateM (Kept δ) α) (value : α) : Prop :=
  ∀ kept, holds kept → (computation kept).1 = value ∧ holds (computation kept).2

namespace Yields

variable {holds : Kept δ → Prop}

/-- Returning a value leaves the cells alone. -/
theorem pure (value : α) : Yields holds (Pure.pure value) value := fun _ h => ⟨rfl, h⟩

/-- One computation after another. -/
theorem bind {computation : StateM (Kept δ) α} {next : α → StateM (Kept δ) β} {value : α}
    {result : β} (h : Yields holds computation value) (hnext : Yields holds (next value) result) :
    Yields holds (computation >>= next) result := by
  intro kept hkept
  obtain ⟨hvalue, hleft⟩ := h kept hkept
  show (next (computation kept).1 (computation kept).2).1 = result ∧
    holds (next (computation kept).1 (computation kept).2).2
  rw [hvalue]
  exact hnext _ hleft

end Yields

/-- What each cell belongs to: the type that was stored with it. -/
abbrev Contents := Nat → Option Ty

/-- Each filled cell holds the digest of the type it belongs to. -/
def Contents.Explains (contents : Contents) (hashOf : List (Chunk δ) → δ) (kept : Kept δ) : Prop :=
  ∀ cell value, kept cell = some value →
    ∃ t, contents cell = some t ∧ value = t.digest hashOf

/-- Filling a cell with the digest of the type it belongs to. -/
theorem Contents.Explains.fill {contents : Contents} {kept : Kept δ} {cell : Nat} {t : Ty}
    (h : contents.Explains hashOf kept) (hcell : contents cell = some t) :
    contents.Explains hashOf (kept.fill cell (t.digest hashOf)) := by
  intro other value hvalue
  unfold Kept.fill at hvalue
  split at hvalue
  · rename_i hother
    exact ⟨t, hother ▸ hcell, (Option.some.inj hvalue).symm⟩
  · exact h other value hvalue

/-- A cell yields the digest of the type it belongs to, if the computation does. -/
theorem Yields.once {contents : Contents} {cell : Nat} {t : Ty} {computation : StateM (Kept δ) δ}
    (hcell : contents cell = some t)
    (h : Yields (contents.Explains hashOf) computation (t.digest hashOf)) :
    Yields (contents.Explains hashOf) (Kept.once cell computation) (t.digest hashOf) := by
  intro kept hkept
  cases hfilled : kept cell with
  | some value =>
      obtain ⟨t', ht', rfl⟩ := hkept cell value hfilled
      cases hcell.symm.trans ht'
      have hget : Kept.once cell computation kept = (t.digest hashOf, kept) := by
        show (Kept.once cell computation).run kept = _
        simp only [Kept.once, StateT.run_bind, StateT.run_get, pure_bind, hfilled]
        rfl
      rw [hget]
      exact ⟨rfl, hkept⟩
  | none =>
      obtain ⟨hvalue, hleft⟩ := h kept hkept
      have hget : Kept.once cell computation kept =
          ((computation kept).1, (computation kept).2.fill cell (computation kept).1) := by
        show (Kept.once cell computation).run kept = _
        simp only [Kept.once, StateT.run_bind, StateT.run_get, pure_bind, hfilled]
        rfl
      rw [hget, hvalue]
      exact ⟨rfl, hleft.fill hcell⟩

namespace Node

/-- Every cell in a node belongs to the type that it stands at. -/
inductive Labeled (contents : Contents) : Node → Prop where
  | intro {node : Node} : (∀ cell, node.cell? = some cell → contents cell = some node.type) →
      (∀ part ∈ node.parts, Labeled contents part) → Labeled contents node

variable {contents : Contents}

/-- The cells in a part. -/
theorem Labeled.part {node part : Node} (h : node.Labeled contents) (hpart : part ∈ node.parts) :
    part.Labeled contents := by
  cases h with
  | intro _ hparts => exact hparts part hpart

/-- Cells keep what they belong to when more cells come in. -/
theorem Labeled.mono {node : Node} {contents' : Contents} (h : node.Labeled contents)
    (hmore : ∀ cell t, contents cell = some t → contents' cell = some t) :
    node.Labeled contents' := by
  induction h with
  | intro hself _ ih => exact .intro (fun cell hcell => hmore _ _ (hself cell hcell)) ih

/-- What an optional part feeds, where the part yields its digest. -/
theorem digestOption_yields {holds : Kept δ → Prop} {node : Option Node}
    (h : ∀ part ∈ node, Yields holds (part.digest hashOf) (part.type.digest hashOf)) :
    Yields holds (digestOption hashOf node) (Ty.digestOption hashOf (typeOption node)) := by
  cases node with
  | none =>
      simp only [digestOption, typeOption, Ty.digestOption]
      exact .pure _
  | some node =>
      simp only [digestOption, typeOption, Ty.digestOption]
      exact (h node rfl).bind (.pure _)

/-- What several parts feed, where the parts yield their digests. -/
theorem digests_yields {holds : Kept δ → Prop} {nodes : List Node}
    (h : ∀ part ∈ nodes, Yields holds (part.digest hashOf) (part.type.digest hashOf)) :
    Yields holds (digests hashOf nodes) (Ty.digestList hashOf (types nodes)) := by
  induction nodes with
  | nil =>
      simp only [digests, types, Ty.digestList]
      exact .pure _
  | cons first rest ih =>
      rw [List.forall_mem_cons] at h
      simp only [digests, types, Ty.digestList]
      exact h.1.bind ((ih h.2).bind (.pure _))

/-- Whichever cells are filled, if they are filled with the digests of the types they belong to,
asking for a digest returns that of the type and leaves the cells so. -/
theorem Labeled.digest_yields {node : Node} (h : node.Labeled contents) :
    Yields (contents.Explains hashOf) (node.digest hashOf) (node.type.digest hashOf) := by
  induction h with
  | @intro node hself _ ih =>
      cases node with
      | named head =>
          simp only [digest, type, Ty.digest]
          exact .pure _
      | array component =>
          simp only [digest, type, Ty.digest]
          exact (ih component (List.mem_singleton.2 rfl)).bind (.pure _)
      | var param =>
          simp only [digest, type, Ty.digest]
          exact .pure _
      | wildcard upper lower =>
          simp only [digest, type, Ty.digest]
          refine (ih upper List.mem_cons_self).bind (Yields.bind ?_ (.pure _))
          exact digestOption_yields fun part hpart =>
            ih part (List.mem_cons_of_mem _ (Option.mem_toList.2 hpart))
      | applied cell owner raw args =>
          have houter := digestOption_yields fun part hpart =>
            ih part (List.mem_append_left _ (Option.mem_toList.2 hpart))
          have hinner := digests_yields fun part hpart => ih part (List.mem_append_right _ hpart)
          have hself := hself cell rfl
          simp only [digest, type] at hself ⊢
          refine .once hself ?_
          simp only [Ty.digest]
          exact houter.bind (hinner.bind (.pure _))

end Node

end Cells

/-! ## States -/

/-- The nodes that are held, the next cell that is not in use, and what the cells hold. -/
structure Memory (δ : Type) where
  held : List Node
  next : Nat
  kept : Kept δ

namespace Memory

variable {δ : Type} {hashOf : List (Chunk δ) → δ} {memory : Memory δ}

/-- A node can be built from nodes that are held. Its cell, if it has one, is new. -/
def Builds (memory : Memory δ) (node : Node) : Prop :=
  node.parts ⊆ memory.held ∧ ∀ cell, node.cell? = some cell → cell = memory.next

/-- The states that come about by building nodes, taking them apart, asking for digests and dropping
nodes. -/
inductive Reachable (hashOf : List (Chunk δ) → δ) : Memory δ → Prop where
  | start : Reachable hashOf ⟨[], 0, .nothing⟩
  | build {memory : Memory δ} {node : Node} : Reachable hashOf memory → memory.Builds node →
      Reachable hashOf ⟨node :: memory.held, memory.next + 1, memory.kept⟩
  | part {memory : Memory δ} {node part : Node} : Reachable hashOf memory →
      node ∈ memory.held → part ∈ node.parts →
      Reachable hashOf ⟨part :: memory.held, memory.next, memory.kept⟩
  | digest {memory : Memory δ} {node : Node} : Reachable hashOf memory → node ∈ memory.held →
      Reachable hashOf ⟨memory.held, memory.next, (node.digest hashOf memory.kept).2⟩
  | drop {memory : Memory δ} {held : List Node} : Reachable hashOf memory →
      held ⊆ memory.held → Reachable hashOf ⟨held, memory.next, memory.kept⟩

/-- Every cell belongs to one type, and holds the digest of that type if it is filled. -/
structure Explained (hashOf : List (Chunk δ) → δ) (memory : Memory δ) (contents : Contents) :
    Prop where
  used : ∀ cell t, contents cell = some t → cell < memory.next
  labeled : ∀ node ∈ memory.held, node.Labeled contents
  explains : contents.Explains hashOf memory.kept

/-- A new node brings in its cell. -/
theorem Explained.build {contents : Contents} (h : memory.Explained hashOf contents) {node : Node}
    (hnode : memory.Builds node) :
    ∃ contents',
      Explained hashOf ⟨node :: memory.held, memory.next + 1, memory.kept⟩ contents' := by
  let contents' : Contents := fun cell =>
    if node.cell? = some cell then some node.type else contents cell
  have hmore (cell : Nat) (t : Ty) (hcell : contents cell = some t) :
      contents' cell = some t := by
    have hold := h.used cell t hcell
    have hne : node.cell? ≠ some cell := by
      intro hnew
      have hnext := hnode.2 cell hnew
      omega
    show (if node.cell? = some cell then _ else _) = _
    rw [if_neg hne]
    exact hcell
  refine ⟨contents', fun cell t hcell => ?_, ?_, fun cell value hvalue => ?_⟩
  · show cell < memory.next + 1
    by_cases hnew : node.cell? = some cell
    · have hnext := hnode.2 cell hnew
      omega
    · have hold := h.used cell t (by simpa [contents', hnew] using hcell)
      omega
  · refine List.forall_mem_cons.2 ⟨.intro (fun cell hcell => if_pos hcell) fun part hpart => ?_,
      fun other hother => (h.labeled other hother).mono hmore⟩
    exact (h.labeled part (hnode.1 hpart)).mono hmore
  · obtain ⟨t, ht, hdigest⟩ := h.explains cell value hvalue
    exact ⟨t, hmore cell t ht, hdigest⟩

/-- In every state that comes about, filled cells hold the digests of the types they belong to. -/
theorem Reachable.explained (h : memory.Reachable hashOf) :
    ∃ contents, memory.Explained hashOf contents := by
  induction h with
  | start =>
      refine ⟨fun _ => none, fun _ _ hcell => ?_, fun _ hnode => ?_, fun _ _ hvalue => ?_⟩
      · cases hcell
      · cases hnode
      · cases hvalue
  | build _ hnode ih =>
      obtain ⟨contents, hexplained⟩ := ih
      exact hexplained.build hnode
  | part _ hnode hpart ih =>
      obtain ⟨contents, hexplained⟩ := ih
      refine ⟨contents, hexplained.used, ?_, hexplained.explains⟩
      exact List.forall_mem_cons.2 ⟨(hexplained.labeled _ hnode).part hpart, hexplained.labeled⟩
  | digest _ hnode ih =>
      obtain ⟨contents, hexplained⟩ := ih
      have hyields := (hexplained.labeled _ hnode).digest_yields _ hexplained.explains
      exact ⟨contents, hexplained.used, hexplained.labeled, hyields.2⟩
  | drop _ hheld ih =>
      obtain ⟨contents, hexplained⟩ := ih
      exact ⟨contents, hexplained.used, fun node hnode => hexplained.labeled node (hheld hnode),
        hexplained.explains⟩

/-- Asking for the digest of a node that is held returns the digest of its type. -/
theorem Reachable.digest_eq (h : memory.Reachable hashOf) {node : Node}
    (hnode : node ∈ memory.held) :
    (node.digest hashOf memory.kept).1 = node.type.digest hashOf := by
  obtain ⟨contents, hexplained⟩ := h.explained
  exact ((hexplained.labeled node hnode).digest_yields _ hexplained.explains).1

/-! ## Every type can be stored -/

/-- A state that comes about and holds all that another one holds, with the same cells filled. -/
structure Extends (hashOf : List (Chunk δ) → δ) (memory larger : Memory δ) : Prop where
  reachable : larger.Reachable hashOf
  held : memory.held ⊆ larger.held
  kept : larger.kept = memory.kept

namespace Extends

/-- A state extends itself. -/
theorem refl (h : memory.Reachable hashOf) : Extends hashOf memory memory :=
  ⟨h, List.Subset.refl _, rfl⟩

/-- What extends an extension extends the state. -/
theorem trans {middle larger : Memory δ} (h : Extends hashOf memory middle)
    (h' : Extends hashOf middle larger) : Extends hashOf memory larger :=
  ⟨h'.reachable, List.Subset.trans h.held h'.held, h'.kept.trans h.kept⟩

/-- Building a node extends the state. -/
theorem build {larger : Memory δ} (h : Extends hashOf memory larger) {node : Node}
    (hnode : larger.Builds node) :
    ∃ largest, Extends hashOf memory largest ∧ node ∈ largest.held :=
  ⟨_, h.trans ⟨h.reachable.build hnode, List.subset_cons_self _ _, rfl⟩, List.mem_cons_self⟩

end Extends

/-- A node without a cell can be built when its parts are held. -/
theorem builds_of_no_cell {node : Node} (hparts : node.parts ⊆ memory.held)
    (hcell : node.cell? = none) : memory.Builds node :=
  ⟨hparts, fun _ hsome => nomatch hcell.symm.trans hsome⟩

variable (hashOf) in
/-- Every state has an extension that holds the type. -/
def Stored (t : Ty) : Prop :=
  ∀ memory : Memory δ, memory.Reachable hashOf →
    ∃ larger, Extends hashOf memory larger ∧ ∃ node ∈ larger.held, node.type = t

/-- Several types can be stored one after another. -/
theorem exists_nodes {types : List Ty} (hstored : ∀ t ∈ types, Stored hashOf t)
    (h : memory.Reachable hashOf) :
    ∃ larger, Extends hashOf memory larger ∧
      ∃ nodes : List Node, nodes ⊆ larger.held ∧ Node.types nodes = types := by
  induction types generalizing memory with
  | nil => exact ⟨memory, .refl h, [], List.nil_subset _, rfl⟩
  | cons t rest ih =>
      rw [List.forall_mem_cons] at hstored
      obtain ⟨middle, hmiddle, node, hnode, htype⟩ := hstored.1 memory h
      obtain ⟨larger, hlarger, nodes, hnodes, htypes⟩ := ih hstored.2 hmiddle.reachable
      refine ⟨larger, hmiddle.trans hlarger, node :: nodes, ?_, ?_⟩
      · exact List.cons_subset.2 ⟨hlarger.held hnode, hnodes⟩
      · rw [Node.types, htype, htypes]

/-- An optional type can be stored. -/
theorem exists_optional {t : Option Ty} (hstored : ∀ s ∈ t, Stored hashOf s)
    (h : memory.Reachable hashOf) :
    ∃ larger, Extends hashOf memory larger ∧
      ∃ node : Option Node, node.toList ⊆ larger.held ∧ Node.typeOption node = t := by
  cases t with
  | none => exact ⟨memory, .refl h, none, List.nil_subset _, rfl⟩
  | some t =>
      obtain ⟨larger, hlarger, node, hnode, htype⟩ := hstored t rfl memory h
      refine ⟨larger, hlarger, some node, List.cons_subset.2 ⟨hnode, List.nil_subset _⟩, ?_⟩
      rw [Node.typeOption, htype]

/-- Every type can be stored, whatever is held and kept before. -/
theorem stored_type (t : Ty) : Stored hashOf t := by
  induction t using Ty.parts_induction with
  | step t ih =>
      intro memory h
      cases t with
      | named head =>
          have hname : memory.Builds (.named head) := builds_of_no_cell (List.nil_subset _) rfl
          obtain ⟨larger, hlarger, hheld⟩ := (Extends.refl h).build hname
          exact ⟨larger, hlarger, .named head, hheld, rfl⟩
      | var param =>
          have hvar : memory.Builds (.var param) := builds_of_no_cell (List.nil_subset _) rfl
          obtain ⟨larger, hlarger, hheld⟩ := (Extends.refl h).build hvar
          exact ⟨larger, hlarger, .var param, hheld, rfl⟩
      | array component =>
          obtain ⟨middle, hmiddle, node, hnode, rfl⟩ :=
            ih component (List.mem_singleton.2 rfl) memory h
          have harray : middle.Builds (.array node) :=
            builds_of_no_cell (List.cons_subset.2 ⟨hnode, List.nil_subset _⟩) rfl
          obtain ⟨larger, hlarger, hheld⟩ := hmiddle.build harray
          exact ⟨larger, hlarger, _, hheld, rfl⟩
      | wildcard upper lower =>
          obtain ⟨first, hfirst, above, habove, rfl⟩ := ih upper List.mem_cons_self memory h
          obtain ⟨second, hsecond, below, hbelow, rfl⟩ := exists_optional
            (fun s hs => ih s (List.mem_cons_of_mem _ (Option.mem_toList.2 hs))) hfirst.reachable
          have hwildcard : second.Builds (.wildcard above below) :=
            builds_of_no_cell (List.cons_subset.2 ⟨hsecond.held habove, hbelow⟩) rfl
          obtain ⟨larger, hlarger, hheld⟩ := (hfirst.trans hsecond).build hwildcard
          exact ⟨larger, hlarger, _, hheld, rfl⟩
      | applied owner raw args =>
          obtain ⟨first, hfirst, outer, houter, rfl⟩ := exists_optional
            (fun s hs => ih s (List.mem_append_left _ (Option.mem_toList.2 hs))) h
          obtain ⟨second, hsecond, inner, hinner, rfl⟩ := exists_nodes
            (fun s hs => ih s (List.mem_append_right _ hs)) hfirst.reachable
          have happlied : second.Builds (.applied second.next outer raw inner) :=
            ⟨List.append_subset.2 ⟨List.Subset.trans houter hsecond.held, hinner⟩,
              fun cell hcell => (Option.some.inj hcell).symm⟩
          obtain ⟨larger, hlarger, hheld⟩ := (hfirst.trans hsecond).build happlied
          exact ⟨larger, hlarger, _, hheld, rfl⟩

/-- Equality is an equivalence relation that looks past kinds, arities and bounds, and past nothing
else. Every type can be stored in every state that comes about. Whichever cells are filled, in one
state or in two, digests are those of the types: equal types have equal digests, and under an
injective hash function types with equal digests are equal. -/
theorem equal_iff_equal_digests {memory' : Memory δ} (h : memory.Reachable hashOf)
    (h' : memory'.Reachable hashOf) :
    Equivalence (fun s t : Ty => (s == t) = true) ∧
    (∀ s t : Ty, (s == t) = true ↔ s.bare = t.bare) ∧
    (∀ t, ∃ larger : Memory δ, larger.Reachable hashOf ∧ larger.kept = memory.kept ∧
      memory.held ⊆ larger.held ∧ ∃ node ∈ larger.held, node.type = t) ∧
    ∀ node ∈ memory.held, ∀ node' ∈ memory'.held,
      let value := (node.digest hashOf memory.kept).1
      let value' := (node'.digest hashOf memory'.kept).1
      value = node.type.digest hashOf ∧
      ((node.type == node'.type) = true → value = value') ∧
      (Function.Injective hashOf → value = value' → (node.type == node'.type) = true) := by
  refine ⟨⟨fun _ => BEq.rfl, BEq.symm, BEq.trans⟩, fun s t => Ty.bare_eq_iff.symm, fun t => ?_, ?_⟩
  · obtain ⟨larger, hlarger, hnode⟩ := stored_type t memory h
    exact ⟨larger, hlarger.reachable, hlarger.kept, hlarger.held, hnode⟩
  · intro node hnode node' hnode'
    dsimp only
    rw [h.digest_eq hnode, h'.digest_eq hnode']
    exact ⟨rfl, Ty.digest_congr, fun hinjective => (Ty.digest_eq_iff hinjective).1⟩

/-- A digest that shows all that it was made from. -/
inductive Imprint where
  | of (chunks : List (Chunk Imprint))

/-- A class. -/
def wareNode : Node := .named ⟨"Ware", .classType, 0⟩

/-- A generic class applied to it. -/
def packedNode : Node := .applied 1 none ⟨⟨"Parcel", .classType, 1⟩, rfl⟩ [wareNode]

/-- The same stored once more, and taken for an interface. -/
def spareNode : Node := .applied 2 none ⟨⟨"Parcel", .interfaceType, 0⟩, rfl⟩ [wareNode]

/-- A state in which the digest of one of the two is kept. -/
def wares : Memory Imprint :=
  ⟨[spareNode, packedNode, wareNode], 3, (packedNode.digest .of .nothing).2⟩

/-- The two have one digest, and it is not that of their argument. -/
theorem wares_digests :
    wares.Reachable Imprint.of ∧ (wares.kept 1).isSome = true ∧ wares.kept 2 = none ∧
    (packedNode.digest .of wares.kept).1 = (spareNode.digest .of wares.kept).1 ∧
    (packedNode.digest .of wares.kept).1 ≠ (wareNode.digest .of wares.kept).1 := by
  have hware : Builds (⟨[], 0, .nothing⟩ : Memory Imprint) wareNode :=
    builds_of_no_cell (List.nil_subset _) rfl
  have hpacked : Builds (⟨[wareNode], 1, .nothing⟩ : Memory Imprint) packedNode :=
    ⟨List.Subset.refl _, fun _ hcell => (Option.some.inj hcell).symm⟩
  have hspare : Builds ⟨[packedNode, wareNode], 2, wares.kept⟩ spareNode :=
    ⟨List.subset_cons_self _ _, fun _ hcell => (Option.some.inj hcell).symm⟩
  have hreachable : wares.Reachable Imprint.of :=
    (((Reachable.start.build hware).build hpacked).digest List.mem_cons_self).build hspare
  have hinjective : Function.Injective Imprint.of := fun _ _ h => Imprint.of.inj h
  obtain ⟨_, _, _, hdigests⟩ := equal_iff_equal_digests hreachable hreachable
  have hsecond : packedNode ∈ wares.held := List.mem_cons_of_mem _ List.mem_cons_self
  have hthird : wareNode ∈ wares.held :=
    List.mem_cons_of_mem _ (List.mem_cons_of_mem _ List.mem_cons_self)
  refine ⟨hreachable, rfl, rfl,
    (hdigests packedNode hsecond spareNode List.mem_cons_self).2.1 (by decide), fun heq => ?_⟩
  have hequal := (hdigests packedNode hsecond wareNode hthird).2.2 hinjective heq
  cases hequal

end Memory

end Nominal
