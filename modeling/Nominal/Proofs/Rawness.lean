import Nominal.Proofs.CircularBounds
import Nominal.Proofs.TableRuns

/-!
# Raw uses

A raw use can be told in two ways. Assignability compares a type with its canonical form; the search
for supertypes looks up whether the declaration has parameters. The canonical form is built by a
constructor that may refuse, and then is the type itself, so the two ways can differ. In the tables
that come about they do not: each declaration has as many parameters as its arity says, and
`isRaw_iff_declared_generic` draws the consequences, for a name and for arrays over it.
-/

namespace Nominal

namespace Ty

/-- Arrays of the given depth over a type. -/
def tower : Nat → Ty → Ty
  | 0, t => t
  | depth + 1, t => .array (tower depth t)

/-- Arrays of one depth are equal when what they are over is. -/
theorem tower_beq_tower (depth : Nat) (s t : Ty) : (tower depth s == tower depth t) = (s == t) := by
  induction depth with
  | zero => rfl
  | succ depth ih => exact ih

end Ty

/-- Erasing arrays erases what they are over. -/
theorem erases_tower {heap : Heap} {t erased : Ty} (h : Erases heap [] t erased) (depth : Nat) :
    Erases heap [] (.tower depth t) (.tower depth erased) := by
  induction depth with
  | zero => exact h
  | succ depth ih => exact erases_array.2 ⟨_, ih, rfl⟩

namespace Env

/-! ## Canonical forms -/

/-- The canonical form of a name is the name or an applied type. -/
theorem canonicalNamed_cases (env : Env) (head : Named) :
    env.canonicalNamed head = .named head ∨
      ∃ raw args, env.canonicalNamed head = .applied none raw args := by
  unfold canonicalNamed
  split
  · exact .inl rfl
  · split
    · exact .inl rfl
    · split
      · exact .inl rfl
      · rename_i declaration _ _
        unfold Ty.applied?
        split
        · exact .inl rfl
        · split
          · exact .inl rfl
          · split
            · exact .inl rfl
            · exact .inr ⟨_, _, rfl⟩

/-- The canonical form of a declared name, where the declaration has parameters and the constructor
of applied types accepts them. -/
theorem canonicalNamed_generic {env : Env} {head : Named} {declaration : Declaration}
    (hhead : head.isPrimitive = false) (hfound : env.find? head.name = some declaration)
    (hparams : declaration.params ≠ []) (hraw : declaration.head.isPrimitive = false)
    (hlength : declaration.params.length = declaration.head.arity) :
    env.canonicalNamed head =
      .applied none ⟨declaration.head, hraw⟩ (declaration.params.map .var) := by
  have hargs : (declaration.params.map Ty.var).find? Ty.isPrimitive = none := by
    simp [Ty.isPrimitive]
  unfold canonicalNamed
  simp [hhead, hfound, hparams, Ty.applied?, Named.asClass?_eq_some hraw, hlength, hargs,
    Except.toOption]

/-- Canonical forms are canonical. -/
theorem canonical_canonical (env : Env) (t : Ty) :
    env.canonical (env.canonical t) = env.canonical t := by
  induction t using Ty.parts_induction with
  | step t ih =>
      cases t with
      | named head =>
          show env.canonical (env.canonicalNamed head) = env.canonicalNamed head
          rcases env.canonicalNamed_cases head with hnamed | ⟨raw, args, happlied⟩
          · rw [hnamed]
            exact hnamed
          · rw [happlied]
            rfl
      | array component =>
          have hcomponent := ih component (List.mem_singleton.2 rfl)
          by_cases hsame : (env.canonical component == component) = true
          · have harray : env.canonical (.array component) = .array component := by
              simp [canonical, hsame]
            rw [harray, harray]
          · have harray : env.canonical (.array component) = .array (env.canonical component) := by
              simp [canonical, hsame]
            rw [harray]
            simp [canonical, hcomponent]
      | applied | var | wildcard => rfl

/-- Canonical forms are not raw. -/
theorem isRaw_canonical (env : Env) (t : Ty) : env.isRaw (env.canonical t) = false := by
  unfold isRaw
  rw [canonical_canonical, bne, BEq.rfl, Bool.not_true]

/-- An array is raw when its component is. -/
theorem isRaw_array (env : Env) (component : Ty) :
    env.isRaw (.array component) = env.isRaw component := by
  unfold isRaw
  by_cases hsame : (env.canonical component == component) = true
  · simp [canonical, hsame, bne]
  · have hne : (Ty.array (env.canonical component) == .array component) = false :=
      Bool.eq_false_iff.2 hsame
    simp [canonical, hsame, bne, hne]

/-- Arrays over a type are raw when the type is. -/
theorem isRaw_tower (env : Env) (depth : Nat) (t : Ty) :
    env.isRaw (.tower depth t) = env.isRaw t := by
  induction depth with
  | zero => rfl
  | succ depth ih => rw [Ty.tower, isRaw_array, ih]

/-- The canonical form of arrays over a raw type is the arrays over its canonical form. -/
theorem canonical_tower {env : Env} {t : Ty} (h : env.isRaw t = true) (depth : Nat) :
    env.canonical (.tower depth t) = .tower depth (env.canonical t) := by
  induction depth with
  | zero => rfl
  | succ depth ih =>
      have hdiffers : (env.canonical (.tower depth t) == .tower depth t) = false := by
        have hraw := (env.isRaw_tower depth t).trans h
        unfold isRaw bne at hraw
        simpa using hraw
      show (if env.canonical (.tower depth t) == .tower depth t then _ else _) = _
      rw [hdiffers, ih]
      rfl

end Env

namespace Context

/-! ## Supertypes of a raw use -/

variable {context : Context} {head : Named} {declaration : Declaration}

/-- The direct supertypes of a raw use are erasures. -/
theorem isErased_of_direct_raw (hformed : context.heap.Formed)
    (hfound : context.env.find? head.name = some declaration) (hparams : declaration.params ≠ [])
    {s : Ty} (h : context.Direct (.named head) s) : s.isErased = true := by
  obtain ⟨types, htypes, hs⟩ := h
  cases hleaf : head.isTop || head.isPrimitive with
  | true =>
      rw [directs_leaf hleaf] at htypes
      rw [htypes] at hs
      cases hs
  | false =>
      obtain ⟨erased, herased, rfl⟩ :=
        (directs_raw hleaf hfound (List.isEmpty_eq_false_iff.2 hparams)).1 htypes
      rcases mem_of_mem_orTop_distinct hs with hmem | ⟨_, rfl⟩
      · obtain ⟨t, _, ht⟩ := herased.flip.exists_mem hmem
        exact Heap.isErased_of_erases hformed ht
      · rfl

/-- A raw use has direct supertypes where the declared ones have erasures. -/
theorem exists_directs_raw (hfound : context.env.find? head.name = some declaration)
    (hparams : declaration.params ≠ [])
    (h : ∀ s ∈ declaration.supertypes, ∃ erased, Erases context.heap [] s erased) :
    ∃ types, context.Directs (.named head) types := by
  cases hleaf : head.isTop || head.isPrimitive with
  | true => exact ⟨[], (directs_leaf hleaf).2 rfl⟩
  | false =>
      obtain ⟨erased, herased⟩ := List.exists_forall₂ h
      exact ⟨_, (directs_raw hleaf hfound (List.isEmpty_eq_false_iff.2 hparams)).2
        ⟨erased, herased, rfl⟩⟩

/-- Arrays over a type have direct supertypes where the type has. -/
theorem exists_directs_tower {t : Ty} (h : ∃ types, context.Directs t types) (depth : Nat) :
    ∃ types, context.Directs (.tower depth t) types := by
  induction depth with
  | zero => exact h
  | succ depth ih =>
      obtain ⟨types, htypes⟩ := ih
      exact ⟨_, directs_array.2 ⟨types, htypes, rfl⟩⟩

/-- If all direct supertypes of a type are erasures, so are those of arrays over it. -/
theorem isErased_of_direct_tower {t : Ty} (h : ∀ s, context.Direct t s → s.isErased = true)
    (depth : Nat) {s : Ty} (hs : context.Direct (.tower depth t) s) : s.isErased = true := by
  induction depth generalizing s with
  | zero => exact h s hs
  | succ depth ih =>
      obtain ⟨types, htypes, hmem⟩ := hs
      obtain ⟨types', htypes', rfl⟩ := directs_array.1 htypes
      rcases List.mem_append.1 hmem with hmem | hmem
      · obtain ⟨inner, hinner, rfl⟩ := List.mem_map.1 hmem
        show inner.isErased = true
        exact ih ⟨types', htypes', hinner⟩
      · have hnames := Ty.mem_of_mem_distinct hmem
        simp only [List.mem_cons, List.not_mem_nil, or_false] at hnames
        rcases hnames with rfl | rfl | rfl <;> rfl

end Context

namespace Table

variable {table : Table} {declaration : Declaration} {name : String}

/-- What a name finds has that name. -/
theorem name_of_find? (h : table.find? name = some declaration) : declaration.head.name = name := by
  have hname := List.find?_some h
  exact beq_iff_eq.1 hname

/-- A declaration with parameters is not one of a primitive, since primitives are never generic. -/
theorem Reachable.not_primitive (hreachable : table.Reachable)
    (hfound : table.find? name = some declaration) (hparams : declaration.params ≠ []) :
    declaration.head.isPrimitive = false := by
  have hentry := List.mem_of_find?_eq_some hfound
  have hlength : declaration.params.length = declaration.head.arity :=
    hreachable.saturates declaration hentry
  have hpositive := List.length_pos_of_ne_nil hparams
  refine Bool.eq_false_iff.2 fun hprimitive => ?_
  rw [Named.arity, if_pos hprimitive] at hlength
  omega

/-- In every table that comes about, a name that is no primitive is raw exactly when the table
declares it with parameters. Its canonical form then is the declared name applied to the declared
parameters, and erases to the name. The direct supertypes of the name are their own erasures; there
are such where the declared supertypes have erasures. All this holds of arrays over the name too.
Canonical forms are canonical and not raw. -/
theorem isRaw_iff_declared_generic (hreachable : table.Reachable)
    {head : Named} (hhead : head.isPrimitive = false) (depth : Nat) :
    let use := Ty.tower depth (.named head)
    (table.env.isRaw use = true ↔
      ∃ declaration, table.find? head.name = some declaration ∧ declaration.params ≠ []) ∧
    table.env.canonical (table.env.canonical use) = table.env.canonical use ∧
    table.env.isRaw (table.env.canonical use) = false ∧
    ∀ declaration, table.find? head.name = some declaration → declaration.params ≠ [] →
      (declaration.head == head) = true ∧
      (∃ raw : ClassName, raw.toNamed = declaration.head ∧ table.env.canonical use =
        .tower depth (.applied none raw (declaration.params.map .var))) ∧
      (∀ heap, ∃ erased,
        Erases heap [] (table.env.canonical use) erased ∧ (erased == use) = true) ∧
      ∀ context : Context, context.env = table.env → context.heap.Made →
        (∀ s, context.Direct use s → Erases context.heap [] s s) ∧
        ((∀ s ∈ declaration.supertypes, ∃ erased, Erases context.heap [] s erased) →
          ∃ types, context.Directs use types) := by
  intro use
  have hiff : table.env.isRaw use = true ↔
      ∃ declaration, table.find? head.name = some declaration ∧ declaration.params ≠ [] := by
    show table.env.isRaw (.tower depth (.named head)) = true ↔ _
    rw [Env.isRaw_tower, Env.isRaw_named_iff]
    constructor
    · rintro ⟨_, declaration, hfound, hparams, _⟩
      exact ⟨declaration, hfound, List.isEmpty_eq_false_iff.1 hparams⟩
    · rintro ⟨declaration, hfound, hparams⟩
      exact ⟨hhead, declaration, hfound, List.isEmpty_eq_false_iff.2 hparams,
        hreachable.not_primitive hfound hparams,
        hreachable.saturates declaration (List.mem_of_find?_eq_some hfound)⟩
  refine ⟨hiff, table.env.canonical_canonical use, table.env.isRaw_canonical use, ?_⟩
  intro declaration hfound hparams
  have hname : (declaration.head == head) = true := Named.beq_iff.2 (name_of_find? hfound)
  let raw : ClassName := ⟨declaration.head, hreachable.not_primitive hfound hparams⟩
  have hcanonical : table.env.canonical use =
      .tower depth (.applied none raw (declaration.params.map .var)) := by
    have hraw : table.env.isRaw (.named head) = true := by
      rw [← table.env.isRaw_tower depth]
      exact hiff.2 ⟨declaration, hfound, hparams⟩
    rw [Env.canonical_tower hraw depth]
    congr 1
    exact Env.canonicalNamed_generic hhead hfound hparams raw.reference
      (hreachable.saturates declaration (List.mem_of_find?_eq_some hfound))
  refine ⟨hname, ⟨raw, rfl, hcanonical⟩, fun heap => ?_, fun context henv hmade => ?_⟩
  · rw [hcanonical]
    exact ⟨_, erases_tower (erases_applied.2 rfl) depth, (Ty.tower_beq_tower ..).trans hname⟩
  · have hfound' : context.env.find? head.name = some declaration := henv ▸ hfound
    refine ⟨fun s hs => ?_, fun herasures => ?_⟩
    · exact context.heap.erases_self [] (Context.isErased_of_direct_tower
        (fun s => Context.isErased_of_direct_raw hmade.formed hfound' hparams) depth hs)
    · exact Context.exists_directs_tower
        (Context.exists_directs_raw hfound' hparams herasures) depth

/-- A class of boxes that can be compared with what is in them. -/
def orderedBox : Declaration :=
  ⟨⟨"Box", .classType, 1⟩, [boxed "T" (.owning 0)], none,
    [comparable (.var (boxed "T" (.owning 0)))]⟩

/-- The base table and the class of boxes. -/
def boxes : Table := ⟨Table.base.entries ++ [orderedBox]⟩

/-- Arrays of arrays of boxes are raw, also where the name is taken for that of an interface without
parameters. -/
theorem box_arrays_raw :
    let use := Ty.array (.array (.named ⟨"Box", .interfaceType, 0⟩))
    let context : Context := ⟨boxes.env, (Heap.empty.declare "T" "Box").2, true⟩
    boxes.env.isRaw use = true ∧
    boxes.env.canonical use =
      .array (.array (.applied none ⟨⟨"Box", .classType, 1⟩, rfl⟩ [.var (boxed "T" (.owning 0))])) ∧
    (∃ types, context.Directs use types) ∧
    ∀ s, context.Direct use s → Erases context.heap [] s s := by
  intro use context
  have hadd : Table.base.add orderedBox = .ok boxes := rfl
  have hreachable : boxes.Reachable := .add .base hadd
  have hparams : orderedBox.params ≠ [] := List.cons_ne_nil _ _
  have hhead : Named.isPrimitive ⟨"Box", .interfaceType, 0⟩ = false := rfl
  obtain ⟨hraw, _, _, hgeneric⟩ := isRaw_iff_declared_generic hreachable hhead 2
  obtain ⟨_, ⟨raw, hbox, hcanonical⟩, _, hdirect⟩ := hgeneric orderedBox rfl hparams
  obtain rfl : raw = ⟨⟨"Box", .classType, 1⟩, rfl⟩ := ClassName.eq_iff.2 hbox
  obtain ⟨herased, hexists⟩ := hdirect context rfl (.declare "T" "Box" .empty)
  refine ⟨hraw.2 ⟨orderedBox, rfl, hparams⟩, hcanonical, hexists fun s hs => ?_, herased⟩
  cases List.mem_singleton.1 hs
  exact ⟨_, erases_applied.2 rfl⟩

end Table

end Nominal
