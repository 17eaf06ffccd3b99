import Nominal.Proofs.Decision
import Nominal.Proofs.Substitution

/-!
# Environments that know more

An environment is extended by another one if the other declares all that it declares, alike: with
equal parameters and with equal supertypes, whatever their order. Main results: where two contexts
agree about bounds and kinds, the larger environment finds every supertype that the smaller one
finds, and what is assignable in the smaller one is assignable in the larger one, as far as its
answer goes. A new declaration can keep the search for supertypes from ending, so that acceptance
itself need not carry over; the stages of acceptance in the smaller environment are those of a
relation that the comparisons in the larger one say yes to (`Foretold`).
-/

namespace Nominal

/-! ## Declarations that say the same -/

/-- Two declarations of one name with equal parameters and with equal supertypes, up to order and
repetition and however they are split between superclass and interfaces. -/
structure Declaration.Alike (declaration other : Declaration) : Prop where
  head : declaration.head = other.head
  params : List.Forall₂ (fun param param' => (param == param') = true) declaration.params
    other.params
  supertypes : ∀ t, declaration.supertypes.contains t = other.supertypes.contains t

namespace Declaration.Alike

variable {declaration other : Declaration}

/-- A declaration is like itself. -/
theorem refl (declaration : Declaration) : declaration.Alike declaration where
  head := rfl
  params := List.forall₂_same.2 fun _ _ => BEq.rfl
  supertypes _ := rfl

/-- Declarations are alike both ways. -/
theorem symm (h : declaration.Alike other) : other.Alike declaration where
  head := h.head.symm
  params := h.params.flip.imp fun _ _ => BEq.symm
  supertypes t := (h.supertypes t).symm

/-- What is declared is declared in a declaration that is alike, up to equality. -/
theorem exists_mem (h : declaration.Alike other) {t : Ty} (ht : t ∈ declaration.supertypes) :
    ∃ t' ∈ other.supertypes, (t == t') = true := by
  have hcontains : declaration.supertypes.contains t = true :=
    List.contains_iff_exists_mem_beq.2 ⟨t, ht, BEq.rfl⟩
  rw [h.supertypes] at hcontains
  exact List.contains_iff_exists_mem_beq.1 hcontains

/-- Where nothing is declared, nothing is declared in a declaration that is alike. -/
theorem supertypes_nil (h : declaration.Alike other) (hnone : declaration.supertypes = []) :
    other.supertypes = [] := by
  refine List.eq_nil_iff_forall_not_mem.2 fun t ht => ?_
  obtain ⟨t', ht', _⟩ := h.symm.exists_mem ht
  rw [hnone] at ht'
  cases ht'

/-- Declarations that are alike are generic together. -/
theorem isEmpty_params (h : declaration.Alike other) :
    declaration.params.isEmpty = other.params.isEmpty := by
  rw [Bool.eq_iff_iff, List.isEmpty_iff_length_eq_zero, List.isEmpty_iff_length_eq_zero,
    h.params.length_eq]

end Declaration.Alike

/-- Another environment declares all that an environment declares, alike, and its arrays have the
same interfaces. -/
structure Env.ExtendedBy (env larger : Env) : Prop where
  declared : ∀ {name declaration}, env.find? name = some declaration →
    ∃ declaration', larger.find? name = some declaration' ∧ declaration.Alike declaration'
  cloneable : (env.cloneable == larger.cloneable) = true
  serializable : (env.serializable == larger.serializable) = true

/-- Declarations that are alike give their parameters the same values. -/
theorem Substitution.lookup_ofArgs_congr {declaration other : Declaration}
    (h : declaration.Alike other) (args : List Ty) (key : TypeVar) :
    (Substitution.ofArgs declaration args).lookup key =
      (Substitution.ofArgs other args).lookup key :=
  Substitution.lookup_foldl_congr h.params args (fun _ => rfl) key

/-! ## Contexts that agree -/

namespace Context

/-- The types that can be met when one starts from the given ones and goes on to parts, bounds and
direct supertypes, and to what names are declared with. -/
inductive Met (context : Context) (roots : List Ty) : Ty → Prop where
  | root {t : Ty} : t ∈ roots → Met context roots t
  | part {t u : Ty} : Met context roots t → u ∈ t.parts → Met context roots u
  | bound {param : TypeVar} {bound : Ty} : Met context roots (.var param) →
      bound ∈ context.heap.bounds param → Met context roots bound
  | direct {t s : Ty} : Met context roots t → context.Direct t s → Met context roots s
  | declared {head : Named} {declaration : Declaration} {s : Ty} :
      Met context roots (.named head) → context.env.find? head.name = some declaration →
      s ∈ declaration.supertypes → Met context roots s

/-- Among the types that are met in any of the contexts, equal variables share their bounds and
equal names their kind. -/
structure Concordant (contexts : List Context) (roots : List Ty) : Prop where
  bounds : ∀ {context context' param param'}, context ∈ contexts → context' ∈ contexts →
    context.Met roots (.var param) → context'.Met roots (.var param') →
    (param == param') = true → (context.heap.bounds param == context'.heap.bounds param') = true
  kinds : ∀ {context context' head head'}, context ∈ contexts → context' ∈ contexts →
    context.Met roots (.named head) → context'.Met roots (.named head') →
    (head == head') = true → head.kind = head'.kind

variable {context first second : Context} {contexts : List Context} {roots : List Ty}

/-- What is reached is met. -/
theorem Reached.met {t : Ty} (h : context.Reached roots t) : context.Met roots t := by
  induction h with
  | root hroot => exact .root hroot
  | part _ hpart ih => exact ih.part hpart
  | bound _ hbound ih => exact ih.bound hbound
  | direct _ hdirect ih => exact ih.direct hdirect

/-- What is met lies in every list that has the given types and with each type its parts, its
bounds, its direct supertypes and what it is declared with. -/
theorem Met.mem_of_closed {pool : List Ty} (hroots : ∀ t ∈ roots, t ∈ pool)
    (hparts : ∀ t ∈ pool, ∀ part ∈ t.parts, part ∈ pool)
    (hbounds : ∀ param, .var param ∈ pool → ∀ bound ∈ context.heap.bounds param, bound ∈ pool)
    (hdirects : ∀ t ∈ pool, ∃ types, context.Directs t types ∧ ∀ s ∈ types, s ∈ pool)
    (hdeclared : ∀ head declaration, .named head ∈ pool →
      context.env.find? head.name = some declaration → ∀ s ∈ declaration.supertypes, s ∈ pool)
    {t : Ty} (h : context.Met roots t) : t ∈ pool := by
  induction h with
  | root hroot => exact hroots _ hroot
  | part _ hpart ih => exact hparts _ ih _ hpart
  | bound _ hbound ih => exact hbounds _ ih _ hbound
  | direct _ hdirect ih =>
      obtain ⟨types, htypes, hmem⟩ := hdirect
      obtain ⟨known, hknown, hclosed⟩ := hdirects _ ih
      exact hclosed _ (htypes.unique hknown ▸ hmem)
  | declared _ hfound hs ih => exact hdeclared _ _ ih hfound _ hs

/-- Contexts that agree are coherent. -/
theorem Concordant.coherent (hconcordant : Concordant contexts roots)
    (hcontext : context ∈ contexts) : context.Coherent roots where
  bounds hfirst hsecond heq := hconcordant.bounds hcontext hcontext hfirst.met hsecond.met heq
  kinds hfirst hsecond heq := hconcordant.kinds hcontext hcontext hfirst.met hsecond.met heq

/-- Contexts agree in whatever order they are given. -/
theorem Concordant.swap (h : Concordant [first, second] roots) :
    Concordant [second, first] roots := by
  have hmem {context : Context} (h : context ∈ [second, first]) : context ∈ [first, second] :=
    (List.Perm.swap ..).mem_iff.1 h
  exact ⟨fun hcontext hcontext' => h.bounds (hmem hcontext) (hmem hcontext'),
    fun hcontext hcontext' => h.kinds (hmem hcontext) (hmem hcontext')⟩

/-- Supertypes of a type that is met are met. -/
theorem Met.supertype {t s : Ty} (h : context.Met roots t) (hs : context.Supertype t s) :
    context.Met roots s := by
  induction hs with
  | refl => exact h
  | tail _ hdirect ih => exact ih.direct hdirect

/-- The second context declares what the first declares, and agrees with it. It knows an enclosing
type of one that is met in the first only if the first does. -/
structure Extended (first second : Context) (roots : List Ty) : Prop where
  concordant : Concordant [first, second] roots
  declared : first.env.ExtendedBy second.env
  owners : ∀ {outer outerRaw outerArgs raw args},
    first.Met roots (.applied (some (.applied outer outerRaw outerArgs)) raw args) →
    first.env.find? outerRaw.name = none → second.env.find? outerRaw.name = none

/-- A type that is met in the first context and an equal one that is met in the second. -/
structure Across (first second : Context) (roots : List Ty) (t t' : Ty) : Prop where
  left : first.Met roots t
  right : second.Met roots t'
  equal : (t == t') = true

/-- Members of equal lists lie across when they are met. -/
theorem Across.of_matches {types types' : List Ty} (h : Ty.Matches types types')
    (hleft : ∀ t ∈ types, first.Met roots t) (hright : ∀ t ∈ types', second.Met roots t) :
    List.Forall₂ (Across first second roots) types types' :=
  (h.within hleft hright).imp fun _ _ h => ⟨h.1, h.2.1, h.2.2⟩

/-- Equal types of the two contexts have such parts. -/
theorem Across.congruent : Ty.Congruent (Across first second roots) where
  equal h := h.equal
  parts h := of_matches (Ty.matches_parts h.equal) (fun _ => h.left.part) (fun _ => h.right.part)

namespace Extended

/-- Equal variables of the two contexts have equal bounds. -/
theorem bounds (hextended : Extended first second roots) {param param' : TypeVar}
    (h : Across first second roots (.var param) (.var param')) :
    List.Forall₂ (Across first second roots) (first.heap.bounds param)
      (second.heap.bounds param') := by
  have hequal := hextended.concordant.bounds (.head _) (.tail _ (.head _)) h.left h.right h.equal
  exact Across.of_matches (Ty.list_beq_iff.1 hequal) (fun _ => h.left.bound)
    (fun _ => h.right.bound)

/-- Equal names of the two contexts have one kind. -/
theorem kinds (hextended : Extended first second roots) {head head' : Named}
    (h : Across first second roots (.named head) (.named head')) : head.kind = head'.kind :=
  hextended.concordant.kinds (.head _) (.tail _ (.head _)) h.left h.right h.equal

end Extended

/-! ## Supertypes -/

/-- Where a list has what another has, this stays so when repetitions are removed and the universal
supertype stands in for no types. -/
theorem contains_orTop_distinct {types types' : List Ty}
    (h : ∀ s ∈ types, ∃ s' ∈ types', (s == s') = true) (hnone : types = [] → types' = []) {s : Ty}
    (hs : s ∈ orTop (Ty.distinct types)) : (orTop (Ty.distinct types')).contains s = true := by
  rw [List.contains_iff_exists_mem_beq]
  rcases mem_of_mem_orTop_distinct hs with hs | ⟨hnil, rfl⟩
  · obtain ⟨t, ht, heq⟩ := h s hs
    obtain ⟨s', hs', heq'⟩ := Ty.exists_mem_distinct ht
    refine ⟨s', ?_, BEq.trans heq heq'⟩
    rw [orTop, if_neg (by simpa using List.ne_nil_of_mem hs')]
    exact hs'
  · rw [hnone hnil]
    exact ⟨.top, List.mem_singleton.2 rfl, BEq.rfl⟩

/-- The supertypes of all arrays are the same in an environment that knows more. -/
theorem mem_arraySupertypes (h : first.env.ExtendedBy second.env) {s : Ty}
    (hs : s ∈ first.arraySupertypes) : ∃ s' ∈ second.arraySupertypes, (s == s') = true := by
  have hmatches : Ty.Matches [.top, .named first.env.cloneable, .named first.env.serializable]
      [.top, .named second.env.cloneable, .named second.env.serializable] :=
    .cons BEq.rfl (.cons h.cloneable (.cons h.serializable .nil))
  exact (Ty.distinct_congr hmatches).exists_mem hs

namespace Extended

/-- The second context finds the direct supertypes of names that the first finds. -/
theorem directs_named (hextended : Extended first second roots) {head head' : Named} {s : Ty}
    {types : List Ty} (hacross : Across first second roots (.named head) (.named head'))
    (h : first.Direct (.named head) s) (h' : second.Directs (.named head') types) :
    types.contains s = true := by
  obtain ⟨_, h, hs⟩ := h
  have hname : head.name = head'.name := Named.beq_iff.1 hacross.equal
  have hleaves : (head.isTop || head.isPrimitive) = (head'.isTop || head'.isPrimitive) := by
    rw [Named.isTop, Named.isTop, Named.isPrimitive, Named.isPrimitive, hname,
      hextended.kinds hacross]
  cases hleaf : head.isTop || head.isPrimitive with
  | true =>
      cases (directs_leaf hleaf).1 h
      cases hs
  | false =>
      cases hfound : first.env.find? head.name with
      | none =>
          cases (directs_missing hfound).1 h
          cases hs
      | some declaration =>
          obtain ⟨other, hfound', halike⟩ := hextended.declared.declared hfound
          rw [hname] at hfound'
          rw [hleaves] at hleaf
          cases hparams : declaration.params.isEmpty with
          | true =>
              rw [directs_plain (hleaves.trans hleaf) hfound hparams] at h
              rw [directs_plain hleaf hfound' (halike.isEmpty_params ▸ hparams)] at h'
              subst h h'
              exact contains_orTop_distinct (fun _ => halike.exists_mem) halike.supertypes_nil hs
          | false =>
              obtain ⟨erased, herased, rfl⟩ :=
                (directs_raw (hleaves.trans hleaf) hfound hparams).1 h
              obtain ⟨erased', herased', rfl⟩ :=
                (directs_raw hleaf hfound' (halike.isEmpty_params ▸ hparams)).1 h'
              refine contains_orTop_distinct (fun u hu => ?_) (fun hnone => ?_) hs
              · -- what is declared for the name is met, so its erasures are equal
                obtain ⟨t, ht, herases⟩ := herased.flip.exists_mem hu
                obtain ⟨t', ht', heq⟩ := halike.exists_mem ht
                obtain ⟨u', hu', herases'⟩ := herased'.exists_mem ht'
                obtain ⟨_, hunique, hequal⟩ := erases_congr Across.congruent hextended.bounds
                  ⟨hacross.left.declared hfound ht, hacross.right.declared hfound' ht', heq⟩ .nil
                  herases
                exact ⟨u', hu', herases'.unique hunique ▸ hequal⟩
              · rw [hnone] at herased
                rw [halike.supertypes_nil (List.forall₂_nil_right_iff.1 herased)] at herased'
                exact List.forall₂_nil_left_iff.1 herased'

/-- What is declared gets the same values in both contexts. -/
theorem lookup_argumentsOf (hextended : Extended first second roots)
    {declaration other : Declaration} (halike : declaration.Alike other) {owner : Option Ty}
    {raw : ClassName} {args : List Ty} (h : first.Met roots (.applied owner raw args))
    (key : TypeVar) :
    (first.argumentsOf declaration owner args).lookup key =
      (second.argumentsOf other owner args).lookup key := by
  have hown := Substitution.lookup_ofArgs_congr halike args key
  cases owner with
  | none => exact hown
  | some outer =>
      cases outer with
      | applied outerOwner outerRaw outerArgs =>
          rw [argumentsOf, argumentsOf]
          cases hfound : first.env.find? outerRaw.name with
          | none =>
              rw [hextended.owners h hfound]
              exact hown
          | some enclosing =>
              obtain ⟨enclosing', hfound', halike'⟩ := hextended.declared.declared hfound
              rw [hfound']
              dsimp only
              rw [Substitution.lookup_insertNew_all, Substitution.lookup_insertNew_all, hown,
                Substitution.lookup_ofArgs_congr halike' outerArgs]
      | named | array | var | wildcard => exact hown

/-- The second context finds the direct supertypes of applied types that the first finds. -/
theorem direct_applied (hextended : Extended first second roots) {owner owner' : Option Ty}
    {raw raw' : ClassName} {args args' : List Ty}
    (hacross : Across first second roots (.applied owner raw args) (.applied owner' raw' args'))
    {s : Ty} (h : first.Direct (.applied owner raw args) s) :
    ∃ s', second.Direct (.applied owner' raw' args') s' ∧ (s == s') = true := by
  obtain ⟨_, _, _, heq, hraw, howner, hargs⟩ := Ty.applied_beq hacross.equal
  cases heq
  have hname : raw.name = raw'.name := Named.beq_iff.1 hraw
  obtain ⟨declaration, hfound, hcases⟩ := direct_applied_cases h
  obtain ⟨other, hfound', halike⟩ := hextended.declared.declared hfound
  rw [hname] at hfound'
  rcases hcases with ⟨t, ht, rfl⟩ | ⟨hnone, htop, rfl⟩
  · obtain ⟨t', ht', hequal⟩ := halike.exists_mem ht
    obtain ⟨s', hs', hequal'⟩ := @Context.direct_applied second owner' raw' args' _ hfound' _ ht'
    refine ⟨s', hs', BEq.trans ?_ hequal'⟩
    -- the same values, then equal types, then equal values
    rw [Ty.substitute_of_lookup (hextended.lookup_argumentsOf halike hacross.left)]
    exact BEq.trans (Ty.substitute_congr_type _ hequal)
      (Ty.substitute_congr (second.related_argumentsOf other howner hargs) t')
  · have htop' : raw'.isTop = false := by rw [← htop, Named.isTop, Named.isTop, hname]
    exact ⟨.top, direct_applied_top hfound' (halike.supertypes_nil hnone) htop', BEq.rfl⟩

/-- The second context finds the direct supertypes that the first finds, if it finds any list of
them at all. -/
theorem directs (hextended : Extended first second roots) {t t' s : Ty} {types : List Ty}
    (hacross : Across first second roots t t') (h : first.Direct t s)
    (h' : second.Directs t' types) : types.contains s = true := by
  induction t using Ty.parts_induction generalizing t' s types with
  | step t ih =>
      cases t with
      | named head =>
          obtain ⟨head', rfl, _⟩ := Across.congruent.named hacross
          exact hextended.directs_named hacross h h'
      | applied owner raw args =>
          obtain ⟨_, _, _, rfl, _⟩ := Across.congruent.applied hacross
          obtain ⟨s', ⟨known, hknown, hs'⟩, heq⟩ := hextended.direct_applied hacross h
          cases hknown.unique h'
          exact List.contains_iff_exists_mem_beq.2 ⟨s', hs', heq⟩
      | array component =>
          obtain ⟨component', rfl, hcomponent⟩ := Across.congruent.array hacross
          obtain ⟨_, harray, hs⟩ := h
          obtain ⟨inner, hinner, rfl⟩ := directs_array.1 harray
          obtain ⟨inner', hinner', rfl⟩ := directs_array.1 h'
          rw [List.contains_iff_exists_mem_beq]
          rcases List.mem_append.1 hs with hs | hs
          · obtain ⟨u, hu, rfl⟩ := List.mem_map.1 hs
            have hcontains := ih component (List.mem_singleton.2 rfl) hcomponent
              ⟨inner, hinner, hu⟩ hinner'
            obtain ⟨u', hu', heq⟩ := List.contains_iff_exists_mem_beq.1 hcontains
            exact ⟨.array u', List.mem_append_left _ (List.mem_map_of_mem hu'), heq⟩
          · obtain ⟨s', hs', heq⟩ := mem_arraySupertypes hextended.declared hs
            exact ⟨s', List.mem_append_right _ hs', heq⟩
      | var param =>
          obtain ⟨param', rfl, _⟩ := Across.congruent.var hacross
          obtain ⟨_, hbounds, hs⟩ := h
          rw [directs_var] at hbounds h'
          subst hbounds h'
          obtain ⟨s', hs', hbound⟩ :=
            (hextended.bounds hacross).exists_mem (Ty.mem_of_mem_distinct hs)
          obtain ⟨kept, hkept, heq⟩ := Ty.exists_mem_distinct hs'
          exact List.contains_iff_exists_mem_beq.2 ⟨kept, hkept, BEq.trans hbound.equal heq⟩
      | wildcard upper lower =>
          obtain ⟨_, _, rfl, _⟩ := Ty.wildcard_beq hacross.equal
          have hparts := Across.congruent.parts hacross
          cases hparts with
          | cons hupper _ => exact ih upper List.mem_cons_self hupper h h'

/-- A closure in the second context has all supertypes that the first finds. -/
theorem exists_mem (hextended : Extended first second roots) {t t' s : Ty} {members : List Ty}
    (hacross : Across first second roots t t') (h : second.ClosureOf t' members)
    (hs : first.Supertype t s) :
    ∃ member ∈ members, Across first second roots s member := by
  induction hs with
  | refl => exact ⟨t', h.self, hacross⟩
  | tail _ hdirect ih =>
      obtain ⟨member, hmember, hpair⟩ := ih
      obtain ⟨types, htypes, hfollowed⟩ := h.followed member hmember
      obtain ⟨next, hnext, heq⟩ :=
        List.contains_iff_exists_mem_beq.1 (hextended.directs hpair hdirect htypes)
      obtain ⟨last, hlast, heq'⟩ := List.contains_iff_exists_mem_beq.1 (hfollowed next hnext)
      exact ⟨last, hlast, hpair.left.direct hdirect,
        hacross.right.supertype (h.reached last hlast), BEq.trans heq heq'⟩

end Extended

/-! ## Acceptance -/

/-- Names that are raw in an environment are so in one that knows more. -/
theorem isRaw_extended {env larger : Env} (h : env.ExtendedBy larger) {head : Named}
    (hraw : env.isRaw (.named head) = true) : larger.isRaw (.named head) = true := by
  obtain ⟨hprimitive, declaration, hfound, hparams, hhead, hlength⟩ := Env.isRaw_named_iff.1 hraw
  obtain ⟨other, hfound', halike⟩ := h.declared hfound
  rw [halike.isEmpty_params] at hparams
  rw [halike.head] at hhead
  rw [halike.params.length_eq, halike.head] at hlength
  exact Env.isRaw_named_iff.2 ⟨hprimitive, other, hfound', hparams, hhead, hlength⟩

namespace Extended

/-- The rules of the first context carry over to the second, as far as closures are known there. -/
theorem carries (hextended : Extended first second roots) :
    Carries first second (Across first second roots) fun t =>
      second.Reached roots t ∧ second.ClosureKnown roots t where
  toCongruent := Across.congruent
  bounds := hextended.bounds
  raw h hraw := by
    rw [← second.env.isRaw_congr h.equal (hextended.kinds h)]
    exact isRaw_extended hextended.declared hraw
  supertype h hknown hs := by
    obtain ⟨ht', known, members, hreached, heq, hclosure⟩ := hknown
    obtain ⟨member, hmember, hpair⟩ :=
      hextended.exists_mem ⟨h.left, hreached.met, BEq.trans h.equal heq⟩ hclosure hs
    -- the closure is that of an equal type
    have hcoherent := hextended.concordant.coherent (.tail _ (.head _))
    obtain ⟨s', hs', hequal⟩ :=
      hcoherent.uniform.supertype hreached ht' (BEq.symm heq) (hclosure.reached member hmember)
    exact ⟨s', hs', hpair.left, (ht'.supertype hs').met, BEq.trans hpair.equal hequal⟩

end Extended

/-- Equal types are accepted in the first context, within a height. -/
def Foretold (first second : Context) (roots : List Ty) (height : Nat) (variance : Variance)
    (receiver payload : Ty) : Prop :=
  ∃ receiver' payload', Across first second roots receiver' receiver ∧
    Across first second roots payload' payload ∧ first.Within height variance receiver' payload'

namespace Extended

/-- What is accepted in the first context follows, stage by stage, by the rules of the second. -/
theorem staged (hextended : Extended first second roots) :
    second.Staged roots (Foretold first second roots) where
  zero := fun ⟨_, _, _, _, h⟩ => h
  mono hle := fun ⟨receiver, payload, hreceiver, hpayload, h⟩ =>
    ⟨receiver, payload, hreceiver, hpayload, h.mono hle⟩
  twins hreceiver hpayload := fun ⟨receiver, payload, hreceiver', hpayload', h⟩ =>
    ⟨receiver, payload,
      ⟨hreceiver'.left, hreceiver.right.met, BEq.trans hreceiver'.equal hreceiver.equal⟩,
      ⟨hpayload'.left, hpayload.right.met, BEq.trans hpayload'.equal hpayload.equal⟩, h⟩
  rule _ hpayload hknown := fun ⟨_, _, hreceiver', hpayload', h⟩ =>
    hextended.carries.rule (fun hs ht h => ⟨_, _, hs, ht, h⟩) hreceiver' hpayload'
      (fun hvariance hlooks => ⟨hpayload, hknown hvariance hlooks⟩) h

/-- A closure in the second context has the members of one in the first, up to equality. -/
theorem lists (hextended : Extended first second roots) {t : Ty} (ht : t ∈ roots)
    {members members' : List Ty} (h : first.Lists roots t members)
    (h' : second.Lists roots t members') {s : Ty} (hs : s ∈ members) :
    members'.contains s = true := by
  obtain ⟨fuel, trail, after, hmemo, hrun⟩ := h
  obtain ⟨fuel', trail', after', hmemo', hrun'⟩ := h'
  obtain ⟨_, u, hu, heq, _, hclosure⟩ :=
    supertypes_closure (.root ht) fuel trail hmemo members after hrun
  obtain ⟨_, u', hu', heq', _, hclosure'⟩ :=
    supertypes_closure (.root ht) fuel' trail' hmemo' members' after' hrun'
  obtain ⟨member, hmember, hpair⟩ := hextended.exists_mem
    ⟨hu.met, hu'.met, BEq.trans (BEq.symm heq) heq'⟩ (closure_closureOf hclosure')
    ((closure_closureOf hclosure).reached s hs)
  exact List.contains_iff_exists_mem_beq.2 ⟨member, hmember, hpair.equal⟩

/-- What is assignable in the first context is assignable in the second, if there is an answer. -/
theorem answers (hextended : Extended first second roots) {boxing : Boxing}
    {options : AssignOptions} {receiver payload : Ty}
    (hreceiver : (if options.boxing then boxing.box receiver else receiver) ∈ roots)
    (hpayload : (if options.boxing then boxing.box payload else payload) ∈ roots) {answer : Bool}
    (h : first.Answers roots boxing options receiver payload true)
    (h' : second.Answers roots boxing options receiver payload answer) : answer = true := by
  obtain ⟨fuel, trail, after, hmemo, hrun⟩ := h
  obtain ⟨fuel', trail', after', hmemo', hrun'⟩ := h'
  rw [isAssignable_eq] at hrun hrun'
  have hcoherent := hextended.concordant.coherent (.head _)
  have hcoherent' := hextended.concordant.coherent (.tail _ (.head _))
  have haccepts := (compare_ensures hcoherent (.root hreceiver) (.root hpayload) fuel
    options.variance trail hmemo true after hrun).2.1 rfl
  obtain ⟨height, hwithin⟩ := accepts_iff_within.1 haccepts
  have hdecides := @compares_of_staged second roots _ hcoherent' hextended.staged fuel' height []
    (List.forall_mem_nil _) options.variance _ _ (.root hreceiver) (.root hpayload) trail' hmemo'
    answer after' hrun'
  exact hdecides.2.2 ⟨_, _, ⟨.root hreceiver, .root hreceiver, BEq.rfl⟩,
    ⟨.root hpayload, .root hpayload, BEq.rfl⟩, hwithin⟩

end Extended

end Context

end Nominal
