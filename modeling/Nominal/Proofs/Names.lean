import Nominal.Proofs.Congruence

/-!
# Nominal containment is a matter of names

In a regular environment every declared supertype has a name at its head. Then the names at the
heads of all supertypes of a type depend on the name at its own head alone: not on its arguments,
its owner or whether it is used raw. `Env.Above` is the relation of declared names, and a name is
nominally contained in a type exactly when it can be reached from the type's head along it
(`nominallyContains_iff`). What arrays contain does not depend on their components
(`nominallyContains_array`).
-/

/-- If every member of a list is related to something, the list is related to a list. -/
theorem List.exists_forall₂ {α β : Type} {related : α → β → Prop} {list : List α}
    (h : ∀ s ∈ list, ∃ t, related s t) : ∃ other, List.Forall₂ related list other := by
  induction list with
  | nil => exact ⟨[], .nil⟩
  | cons first rest ih =>
      rw [List.forall_mem_cons] at h
      obtain ⟨⟨t, ht⟩, hrest⟩ := h
      obtain ⟨other, hother⟩ := ih hrest
      exact ⟨t :: other, .cons ht hother⟩

namespace Nominal

namespace Ty

/-- The class, interface or primitive at the head of a named or applied type. -/
def head? : Ty → Option Named
  | .named head => some head
  | .applied _ raw _ => some raw
  | _ => none

/-- The type has the name at its head and is no primitive. -/
def Headed (t : Ty) (name : String) : Prop := t.headName? = some name ∧ t.isPrimitive = false

/-- The universal supertype is headed by its name. -/
theorem headed_top : Ty.top.Headed Named.topName := ⟨rfl, rfl⟩

/-- A type with a head is neither a variable nor a wildcard, and is called by its head. -/
theorem shape_of_head {t : Ty} {head : Named} (h : t.head? = some head) :
    t.isVar = false ∧ t.isWildcard = false ∧ t.headName? = some head.name := by
  cases t with
  | named | applied =>
      cases Option.some.inj h
      exact ⟨rfl, rfl, rfl⟩
  | array | var | wildcard => cases h

/-- A type with a head that is no primitive is headed by it. -/
theorem headed_of_head {t : Ty} {head : Named} (h : t.head? = some head)
    (hprimitive : head.isPrimitive = false) : t.Headed head.name := by
  cases t with
  | named other =>
      cases Option.some.inj h
      exact ⟨rfl, hprimitive⟩
  | applied owner raw args =>
      cases Option.some.inj h
      exact ⟨rfl, rfl⟩
  | array | var | wildcard => cases h

/-- Substitution keeps the head. -/
theorem substitute_head {t : Ty} {head : Named} (map : Substitution) (h : t.head? = some head) :
    (t.substitute map).head? = some head := by
  rw [substitute]
  split
  · exact h
  · cases t with
    | named other => exact h
    | applied owner raw args =>
        rw [replace]
        split
        · exact h
        · exact h
    | array | var | wildcard => cases h

/-- A type that is equal to one with a head has an equal head. -/
theorem exists_head_congr {s t : Ty} {head : Named} (h : (s == t) = true)
    (hs : s.head? = some head) : ∃ head', t.head? = some head' ∧ (head == head') = true := by
  cases s with
  | named other =>
      cases Option.some.inj hs
      obtain ⟨head', rfl, hhead⟩ := named_beq h
      exact ⟨head', rfl, hhead⟩
  | applied owner raw args =>
      cases Option.some.inj hs
      obtain ⟨_, raw', _, rfl, hraw, _⟩ := applied_beq h
      exact ⟨raw', rfl, hraw⟩
  | array | var | wildcard => cases hs

/-- A type with a head erases to it. -/
theorem erases_head {heap : Heap} {seen : List TypeVar} {t : Ty} {head : Named}
    (h : t.head? = some head) : Erases heap seen t (.named head) := by
  cases t with
  | named other =>
      cases Option.some.inj h
      exact erases_named.2 rfl
  | applied owner raw args =>
      cases Option.some.inj h
      exact erases_applied.2 rfl
  | array | var | wildcard => cases h

/-- A type that is headed by a name has a head of that name. -/
theorem Headed.exists_head {t : Ty} {name : String} (h : t.Headed name) :
    ∃ head, t.head? = some head ∧ head.name = name := by
  cases t with
  | named head => exact ⟨head, rfl, Option.some.inj h.1⟩
  | applied owner raw args => exact ⟨raw, rfl, Option.some.inj h.1⟩
  | array | var | wildcard => cases h.1

/-- A type that is headed by a name erases to nothing else. -/
theorem Headed.erases {t : Ty} {name : String} (h : t.Headed name) {heap : Heap}
    {seen : List TypeVar} {found : Named} (herases : Erases heap seen t (.named found)) :
    found.name = name := by
  obtain ⟨head, hhead, rfl⟩ := h.exists_head
  cases (erases_head hhead).unique herases
  rfl

end Ty

/-- Every declared supertype is a name or an applied type, and the name at its head has the
property. -/
def Env.HeadedBy (env : Env) (holds : Named → Prop) : Prop :=
  ∀ {name : String} {declaration : Declaration}, env.find? name = some declaration →
    ∀ s ∈ declaration.supertypes, ∃ head, s.head? = some head ∧ holds head

/-- Every declared supertype is a name or an applied type. -/
def Env.Headed (env : Env) : Prop := env.HeadedBy fun _ => True

/-- Every declared supertype is a name or an applied type. Neither has a primitive at its head,
which for applied types their formation ensures. -/
def Env.Regular (env : Env) : Prop := env.HeadedBy fun head => head.isPrimitive = false

/-- In a regular environment declared supertypes have heads. -/
theorem Env.Regular.headed {env : Env} (h : env.Regular) : env.Headed := fun hfound s hs =>
  have ⟨head, hhead, _⟩ := h hfound s hs
  ⟨head, hhead, trivial⟩

/-- The universal supertype has no declared supertypes. -/
def Env.Rooted (env : Env) : Prop :=
  ∀ {declaration : Declaration}, env.find? Named.topName = some declaration →
    declaration.supertypes = []

/-- One name is declared directly above another. -/
def Env.Above (env : Env) (below above : String) : Prop :=
  below ≠ Named.topName ∧ ∃ declaration, env.find? below = some declaration ∧
    ∃ s ∈ orTop declaration.supertypes, s.headName? = some above

/-- The types in a list are headed by the names above a name. -/
structure Env.Lists (env : Env) (below : String) (types : List Ty) : Prop where
  sound : ∀ s ∈ types, ∃ above, env.Above below above ∧ s.Headed above
  complete : ∀ above, env.Above below above → ∃ s ∈ types, s.Headed above

/-- Two types have the same head, and it is no primitive. -/
def Ty.SameHead (s t : Ty) : Prop :=
  ∃ head, s.head? = some head ∧ t.head? = some head ∧ head.isPrimitive = false

/-- Removing repetitions and standing in the universal supertype keeps which heads there are. -/
theorem orTop_distinct_heads {declared types : List Ty}
    (h : List.Forall₂ Ty.SameHead declared types) :
    (∀ t ∈ orTop (Ty.distinct types), ∃ s ∈ orTop declared, s.SameHead t) ∧
      ∀ s ∈ orTop declared, ∃ t ∈ orTop (Ty.distinct types),
        ∃ name, s.Headed name ∧ t.Headed name := by
  have hflip : List.Forall₂ (fun t s => s.SameHead t) types declared := h.flip
  cases h with
  | nil =>
      constructor
      · intro t ht
        cases List.mem_singleton.1 ht
        exact ⟨.top, List.mem_singleton.2 rfl, .top, rfl, rfl, rfl⟩
      · intro s hs
        cases List.mem_singleton.1 hs
        exact ⟨.top, List.mem_singleton.2 rfl, _, Ty.headed_top, Ty.headed_top⟩
  | @cons first t declared types hfirst hrest =>
      have hnonempty : orTop (Ty.distinct (t :: types)) = Ty.distinct (t :: types) := by
        obtain ⟨other, hother, _⟩ := Ty.exists_mem_distinct (List.mem_cons_self : t ∈ t :: types)
        rw [orTop, if_neg]
        rw [List.isEmpty_iff]
        exact List.ne_nil_of_mem hother
      rw [hnonempty]
      constructor
      · intro u hu
        exact hflip.exists_mem (Ty.mem_of_mem_distinct hu)
      · intro s hs
        obtain ⟨u, hu, head, hhead, hhead', hprimitive⟩ :=
          (List.Forall₂.cons hfirst hrest).exists_mem hs
        obtain ⟨other, hother, heq⟩ := Ty.exists_mem_distinct hu
        obtain ⟨_, _, kept, _, hkept, hprimitive'⟩ :=
          hflip.exists_mem (Ty.mem_of_mem_distinct hother)
        -- the type that was kept is equal to the one that was dropped, so it has the same name
        have hheaded := Ty.headed_of_head hkept hprimitive'
        rw [Ty.Headed, ← Ty.headName_congr heq, (Ty.headed_of_head hhead' hprimitive).1] at hheaded
        refine ⟨other, hother, head.name, Ty.headed_of_head hhead hprimitive, ?_, hheaded.2⟩
        rw [← Ty.headName_congr heq, (Ty.headed_of_head hhead' hprimitive).1]

/-- Types with the heads of the declared supertypes are headed by the names above. -/
theorem Env.lists_of_declared {env : Env} {below : String} {declaration : Declaration}
    (hfound : env.find? below = some declaration) (htop : below ≠ Named.topName) {types : List Ty}
    (h : List.Forall₂ Ty.SameHead declaration.supertypes types) :
    env.Lists below (orTop (Ty.distinct types)) := by
  obtain ⟨hsound, hcomplete⟩ := orTop_distinct_heads h
  constructor
  · intro t ht
    obtain ⟨s, hs, head, hhead, hhead', hprimitive⟩ := hsound t ht
    have hname := (Ty.headed_of_head hhead hprimitive).1
    exact ⟨head.name, ⟨htop, declaration, hfound, s, hs, hname⟩,
      Ty.headed_of_head hhead' hprimitive⟩
  · rintro above ⟨_, other, hother, s, hs, hname⟩
    cases Option.some.inj (hfound.symm.trans hother)
    obtain ⟨t, ht, name, hname', hheaded⟩ := hcomplete s hs
    cases Option.some.inj (hname.symm.trans hname'.1)
    exact ⟨t, ht, hheaded⟩

/-- Nothing is listed above a name without a declaration, or above the universal supertype. -/
theorem Env.lists_nil {env : Env} {below : String}
    (h : below = Named.topName ∨ env.find? below = none) : env.Lists below [] := by
  refine ⟨List.forall_mem_nil _, ?_⟩
  rintro above ⟨htop, declaration, hfound, _⟩
  rcases h with h | h
  · exact absurd h htop
  · rw [h] at hfound
    cases hfound

namespace Context

variable {context : Context}

/-- If declared supertypes have heads, the raw supertypes of a declaration exist. -/
theorem exists_erased (hheaded : context.env.Headed) {name : String} {declaration : Declaration}
    (hfound : context.env.find? name = some declaration) :
    ∃ erased, List.Forall₂ (Erases context.heap []) declaration.supertypes erased := by
  refine List.exists_forall₂ fun s hs => ?_
  obtain ⟨head, hhead, _⟩ := hheaded hfound s hs
  exact ⟨.named head, Ty.erases_head hhead⟩

/-- In a regular environment every type has a list of direct supertypes. -/
theorem exists_directs (hregular : context.env.Regular) (t : Ty) :
    ∃ types, context.Directs t types := by
  induction t using Ty.parts_induction with
  | step t ih =>
      cases t with
      | named head =>
          cases hleaf : head.isTop || head.isPrimitive with
          | true => exact ⟨[], (directs_leaf hleaf).2 rfl⟩
          | false =>
              cases hfound : context.env.find? head.name with
              | none => exact ⟨[], (directs_missing hfound).2 rfl⟩
              | some declaration =>
                  cases hparams : declaration.params.isEmpty with
                  | true => exact ⟨_, (directs_plain hleaf hfound hparams).2 rfl⟩
                  | false =>
                      obtain ⟨erased, herased⟩ := exists_erased hregular.headed hfound
                      exact ⟨_, (directs_raw hleaf hfound hparams).2 ⟨erased, herased, rfl⟩⟩
      | applied owner raw args =>
          cases hfound : context.env.find? raw.name with
          | none => exact ⟨[], (directs_applied_missing hfound).2 rfl⟩
          | some declaration => exact ⟨_, (directs_applied hfound).2 rfl⟩
      | array component =>
          obtain ⟨types, htypes⟩ := ih component (List.mem_singleton.2 rfl)
          exact ⟨_, directs_array.2 ⟨types, htypes, rfl⟩⟩
      | var param => exact ⟨_, directs_var.2 rfl⟩
      | wildcard upper lower =>
          obtain ⟨types, htypes⟩ := ih upper List.mem_cons_self
          exact ⟨types, directs_wildcard.2 htypes⟩

/-- What the direct supertypes of a type with a head are: nothing, or types with the heads of the
declared supertypes. -/
theorem directs_declared (hregular : context.env.Regular) {t : Ty} {head : Named} {types : List Ty}
    (ht : t.head? = some head) (h : context.Directs t types) :
    (types = [] ∧ (head.isTop = true ∨ t.isPrimitive = true ∨ context.env.find? head.name = none)) ∨
      ∃ declaration list, context.env.find? head.name = some declaration ∧
        List.Forall₂ Ty.SameHead declaration.supertypes list ∧
        types = (if head.isTop then Ty.distinct list else orTop (Ty.distinct list)) := by
  cases t with
  | named _ =>
      cases Option.some.inj ht
      cases hleaf : head.isTop || head.isPrimitive with
      | true =>
          refine .inl ⟨(directs_leaf hleaf).1 h, ?_⟩
          rcases Bool.or_eq_true_iff.1 hleaf with htop | hprimitive
          · exact .inl htop
          · exact .inr (.inl hprimitive)
      | false =>
          cases hfound : context.env.find? head.name with
          | none => exact .inl ⟨(directs_missing hfound).1 h, .inr (.inr rfl)⟩
          | some declaration =>
              rw [(Bool.or_eq_false_iff.1 hleaf).1]
              cases hparams : declaration.params.isEmpty with
              | true =>
                  refine .inr ⟨declaration, _, rfl, List.forall₂_same.2 fun s hs => ?_,
                    (directs_plain hleaf hfound hparams).1 h⟩
                  obtain ⟨found, hhead, hprimitive⟩ := hregular hfound s hs
                  exact ⟨found, hhead, hhead, hprimitive⟩
              | false =>
                  obtain ⟨erased, herased, htypes⟩ := (directs_raw hleaf hfound hparams).1 h
                  have hboth := (List.forall₂_and_left _ _).2 ⟨hregular hfound, herased⟩
                  refine .inr ⟨declaration, erased, rfl, hboth.imp ?_, htypes⟩
                  rintro s t ⟨⟨found, hhead, hprimitive⟩, hst⟩
                  cases (Ty.erases_head hhead).unique hst
                  exact ⟨found, hhead, rfl, hprimitive⟩
  | applied owner raw args =>
      cases Option.some.inj ht
      cases hfound : context.env.find? raw.name with
      | none => exact .inl ⟨(directs_applied_missing hfound).1 h, .inr (.inr rfl)⟩
      | some declaration =>
          refine .inr ⟨declaration, _, rfl, ?_, (directs_applied hfound).1 h⟩
          refine List.forall₂_map_right_iff.2 (List.forall₂_same.2 fun s hs => ?_)
          obtain ⟨found, hhead, hprimitive⟩ := hregular hfound s hs
          exact ⟨found, hhead, Ty.substitute_head _ hhead, hprimitive⟩
  | array | var | wildcard => cases ht

/-- The direct supertypes of a type are headed by the names above its head. -/
theorem lists_of_directs (hregular : context.env.Regular) (hrooted : context.env.Rooted) {t : Ty}
    {below : String} {types : List Ty} (ht : t.Headed below) (h : context.Directs t types) :
    context.env.Lists below types := by
  obtain ⟨head, hhead, rfl⟩ := ht.exists_head
  rcases directs_declared hregular hhead h with
    ⟨rfl, htop | hprimitive | hfound⟩ | ⟨declaration, list, hfound, hheads, rfl⟩
  · exact Env.lists_nil (.inl (beq_iff_eq.1 htop))
  · rw [ht.2] at hprimitive
    cases hprimitive
  · exact Env.lists_nil (.inr hfound)
  · split
    · rename_i htop
      have hname := beq_iff_eq.1 htop
      rw [hrooted (hname ▸ hfound)] at hheads
      cases hheads
      exact Env.lists_nil (.inl hname)
    · rename_i htop
      exact Env.lists_of_declared hfound (fun hname => htop (beq_iff_eq.2 hname)) hheads

/-- The supertypes of a type are headed by the names that can be reached from its head. -/
theorem supertype_headed (hregular : context.env.Regular) (hrooted : context.env.Rooted) {t s : Ty}
    {below : String} (ht : t.Headed below) (h : context.Supertype t s) :
    ∃ above, Relation.ReflTransGen context.env.Above below above ∧ s.Headed above := by
  induction h with
  | refl => exact ⟨below, .refl, ht⟩
  | tail _ hdirect ih =>
      obtain ⟨middle, hmiddle, hheaded⟩ := ih
      obtain ⟨types, htypes, hs⟩ := hdirect
      obtain ⟨above, habove, hs⟩ := (lists_of_directs hregular hrooted hheaded htypes).sound _ hs
      exact ⟨above, hmiddle.tail habove, hs⟩

/-- Every name that can be reached from the head of a type is the head of a supertype. -/
theorem exists_supertype (hregular : context.env.Regular) (hrooted : context.env.Rooted) {t : Ty}
    {below above : String} (ht : t.Headed below)
    (h : Relation.ReflTransGen context.env.Above below above) :
    ∃ s, context.Supertype t s ∧ s.Headed above := by
  induction h with
  | refl => exact ⟨t, .refl, ht⟩
  | tail _ habove ih =>
      obtain ⟨middle, hmiddle, hheaded⟩ := ih
      obtain ⟨types, htypes⟩ := exists_directs hregular middle
      obtain ⟨s, hs, hheaded⟩ :=
        (lists_of_directs hregular hrooted hheaded htypes).complete _ habove
      exact ⟨s, hmiddle.tail ⟨types, htypes, hs⟩, hheaded⟩

/-- A type nominally contains the names that can be reached from its head. -/
theorem nominallyContains_iff (hregular : context.env.Regular) (hrooted : context.env.Rooted)
    {t : Ty} {below : String} (ht : t.Headed below) {head : Named} :
    context.NominallyContains head t ↔ Relation.ReflTransGen context.env.Above below head.name := by
  constructor
  · rintro ⟨s, found, hs, herases, hfound⟩
    obtain ⟨above, habove, hheaded⟩ := supertype_headed hregular hrooted ht hs
    rw [← Named.beq_iff.1 hfound, hheaded.erases herases]
    exact habove
  · intro h
    obtain ⟨s, hs, hheaded⟩ := exists_supertype hregular hrooted ht h
    obtain ⟨found, hfound, hname⟩ := hheaded.exists_head
    exact ⟨s, found, hs, Ty.erases_head hfound, Named.beq_iff.2 hname⟩

/-- The supertypes of all arrays are direct supertypes of each. -/
theorem direct_array (hregular : context.env.Regular) (component : Ty) {s : Ty}
    (hs : s ∈ context.arraySupertypes) : context.Direct (.array component) s := by
  obtain ⟨types, htypes⟩ := exists_directs hregular component
  exact ⟨_, directs_array.2 ⟨types, htypes, rfl⟩, List.mem_append_right _ hs⟩

/-- The supertypes of an array are arrays of those of its component, and what lies above the
supertypes of all arrays. -/
theorem supertype_array {component s : Ty} (h : context.Supertype (.array component) s) :
    (∃ s', s = .array s' ∧ context.Supertype component s') ∨
      ∃ marker ∈ context.arraySupertypes, context.Supertype marker s := by
  -- from the lower end of the chain, because only there the type is known to be an array
  generalize harray : Ty.array component = t at h
  induction h using Relation.ReflTransGen.head_induction_on generalizing component with
  | refl => exact .inl ⟨component, harray.symm, .refl⟩
  | head hdirect hrest ih =>
      subst harray
      obtain ⟨all, hall, hmem⟩ := hdirect
      obtain ⟨types, htypes, rfl⟩ := directs_array.1 hall
      rcases List.mem_append.1 hmem with hmem | hmem
      · obtain ⟨component', hcomponent, rfl⟩ := List.mem_map.1 hmem
        rcases ih rfl with ⟨s', rfl, hs'⟩ | hmarker
        · exact .inl ⟨s', rfl, hs'.head ⟨types, htypes, hcomponent⟩⟩
        · exact .inr hmarker
      · exact .inr ⟨_, hmem, hrest⟩

/-- Arrays nominally contain what the supertypes of all arrays do. -/
theorem nominallyContains_array (hregular : context.env.Regular) {head : Named} {component : Ty} :
    context.NominallyContains head (.array component) ↔
      ∃ s ∈ context.arraySupertypes, context.NominallyContains head s := by
  constructor
  · rintro ⟨s, found, hs, herases, hfound⟩
    rcases supertype_array hs with ⟨s', rfl, _⟩ | ⟨marker, hmarker, hs⟩
    · obtain ⟨_, _, heq⟩ := erases_array.1 herases
      cases heq
    · exact ⟨marker, hmarker, s, found, hs, herases, hfound⟩
  · rintro ⟨t, ht, s, found, hs, herases, hfound⟩
    exact ⟨s, found, hs.head (direct_array hregular component ht), herases, hfound⟩

/-- The supertypes of all arrays are names. -/
theorem exists_of_mem_arraySupertypes {s : Ty} (h : s ∈ context.arraySupertypes) :
    s = .top ∨ s = .named context.env.cloneable ∨ s = .named context.env.serializable := by
  have hmem := Ty.mem_of_mem_distinct h
  simpa only [List.mem_cons, List.not_mem_nil, or_false] using hmem

/-- Primitives and the universal supertype have no supertypes but themselves. -/
theorem supertype_leaf {head : Named} {s : Ty} (hleaf : (head.isTop || head.isPrimitive) = true)
    (h : context.Supertype (.named head) s) : s = .named head := by
  rcases h.cases_head with heq | ⟨_, ⟨types, htypes, hmem⟩, _⟩
  · exact heq.symm
  · rw [directs_leaf hleaf] at htypes
    subst htypes
    cases hmem

/-- A primitive has no supertypes but itself. -/
theorem supertype_primitive {primitive : Named} {s : Ty} (hprimitive : primitive.isPrimitive = true)
    (h : context.Supertype (.named primitive) s) : s = .named primitive :=
  supertype_leaf (by rw [hprimitive, Bool.or_true]) h

/-- A primitive nominally contains itself alone. -/
theorem nominallyContains_primitive {head primitive : Named}
    (hprimitive : primitive.isPrimitive = true)
    (h : context.NominallyContains head (.named primitive)) : (primitive == head) = true := by
  obtain ⟨s, found, hs, herases, hfound⟩ := h
  cases supertype_primitive hprimitive hs
  cases erases_named.1 herases
  exact hfound

/-- Direct supertypes of a type with a head have heads, and none is a primitive. -/
theorem direct_head (hregular : context.env.Regular) {t s : Ty} {head : Named}
    (ht : t.head? = some head) (h : context.Direct t s) :
    ∃ above, s.head? = some above ∧ above.isPrimitive = false := by
  obtain ⟨types, htypes, hs⟩ := h
  rcases directs_declared hregular ht htypes with ⟨rfl, _⟩ | ⟨declaration, list, _, hheads, rfl⟩
  · cases hs
  · have hflip : List.Forall₂ (fun t s => s.SameHead t) list declaration.supertypes := hheads.flip
    split at hs
    · obtain ⟨_, _, above, _, habove, hprimitive⟩ := hflip.exists_mem (Ty.mem_of_mem_distinct hs)
      exact ⟨above, habove, hprimitive⟩
    · obtain ⟨_, _, above, _, habove, hprimitive⟩ := (orTop_distinct_heads hheads).1 s hs
      exact ⟨above, habove, hprimitive⟩

/-- Supertypes of a type with a head have heads. -/
theorem supertype_head (hregular : context.env.Regular) {t s : Ty} {head : Named}
    (ht : t.head? = some head) (h : context.Supertype t s) : ∃ above, s.head? = some above := by
  induction h with
  | refl => exact ⟨head, ht⟩
  | tail _ hdirect ih =>
      obtain ⟨middle, hmiddle⟩ := ih
      obtain ⟨above, habove, _⟩ := direct_head hregular hmiddle hdirect
      exact ⟨above, habove⟩

/-- The interfaces of arrays have only names above them. -/
def MarkersNamed (context : Context) : Prop :=
  ∀ marker, marker = context.env.cloneable ∨ marker = context.env.serializable →
    ∀ s, context.Supertype (.named marker) s → ∃ head, s = .named head

/-- Only names lie above the supertypes of all arrays. -/
theorem MarkersNamed.exists_named (hmarkers : context.MarkersNamed) {marker s : Ty}
    (hmarker : marker ∈ context.arraySupertypes) (hs : context.Supertype marker s) :
    ∃ head, s = .named head := by
  rcases exists_of_mem_arraySupertypes hmarker with rfl | rfl | rfl
  · exact ⟨.top, supertype_leaf rfl hs⟩
  · exact hmarkers _ (.inl rfl) s hs
  · exact hmarkers _ (.inr rfl) s hs

end Context

/-! ## Lists

A small environment for examples. -/

/-- The parameter of a declaration of lists. -/
def element (declaration : String) (cell : CellId) : TypeVar := ⟨"E", declaration, .owning cell⟩

/-- The interface of lists. -/
def list : ClassName := ⟨⟨"List", .interfaceType, 1⟩, rfl⟩

/-- A class of lists. -/
def arrayList : ClassName := ⟨⟨"ArrayList", .classType, 1⟩, rfl⟩

/-- Lists, and a class of lists below them. -/
def listEnv : Env where
  find? name :=
    if name = "List" then some ⟨list, [element "List" 0], none, []⟩
    else if name = "ArrayList" then
      some ⟨arrayList, [element "ArrayList" 1], none,
        [.applied none list [.var (element "ArrayList" 1)]]⟩
    else none
  cloneable := .cloneable
  serializable := .serializable

/-- What is declared of lists. -/
theorem listEnv_cases {name : String} {declaration : Declaration}
    (hfound : listEnv.find? name = some declaration) {s : Ty} (hs : s ∈ declaration.supertypes) :
    name = "ArrayList" ∧ s = .applied none list [.var (element "ArrayList" 1)] := by
  change (if name = "List" then _ else if name = "ArrayList" then _ else _) = _ at hfound
  split at hfound
  · cases hfound
    cases hs
  · split at hfound
    · rename_i hname
      cases hfound
      exact ⟨hname, List.mem_singleton.1 hs⟩
    · cases hfound

/-- The declarations of lists are regular. -/
theorem listEnv_regular : listEnv.Regular := by
  intro name declaration hfound s hs
  obtain ⟨_, rfl⟩ := listEnv_cases hfound hs
  exact ⟨list, rfl, rfl⟩

/-- The universal supertype has no declaration among lists. -/
theorem listEnv_rooted : listEnv.Rooted := fun h => by cases h

end Nominal
