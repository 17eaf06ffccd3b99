import Nominal.Proofs.Decision

/-!
# Boxing once

Boxing takes one step: a primitive that the table knows becomes the type that was inserted for it.
Nothing keeps that type from being a primitive that the table knows as well, and boxing it again
takes a further step. `boxes_once` says what holds of all tables that insertions make. Boxing both
types of a comparison is the only thing that the option does. A second boxing changes nothing where
no boxing leads to a primitive that is boxed again, in particular where the last type inserted for
each name is a reference type; the equality of types overlooks one more case, a primitive that is
boxed to a type of its own name.
-/

namespace Nominal

namespace Boxing

/-- The table that insertions, in this order, make of the empty or of the standard table. -/
inductive Made : List (String × Named) → Boxing → Prop where
  | empty : Made [] .empty
  | standard : Made [] .standard
  | insert {insertions : List (String × Named)} {boxing : Boxing} (primitive : String)
      (reference : Named) (hmade : Made insertions boxing) :
      Made (insertions ++ [(primitive, reference)]) (boxing.insert primitive reference)

/-- A primitive is boxed to a primitive that is boxed in its turn. -/
structure Chain (boxing : Boxing) (first second third : Named) : Prop where
  first_boxed : boxing.boxed? first = some second
  second_boxed : boxing.boxed? second = some third

/-- What primitives are boxed to is never boxed in its turn. -/
def Unchained (boxing : Boxing) : Prop := ∀ first second third, ¬ boxing.Chain first second third

/-- The type is not a primitive that the table can box. -/
def Settled (boxing : Boxing) (t : Ty) : Prop := ∀ head, t = .named head → boxing.boxed? head = none

/-- Boxing the two types of a comparison beforehand does not change what the comparison does. -/
def Transparent (boxing : Boxing) : Prop :=
  ∀ (context : Context) (fuel : Nat) (variance : Variance) (receiver payload : Ty),
    context.isAssignable fuel boxing ⟨variance, true⟩ (boxing.box receiver) (boxing.box payload) =
      context.isAssignable fuel boxing ⟨variance, true⟩ receiver payload

variable {boxing : Boxing} {insertions : List (String × Named)}

/-! ## What insertions leave in a table -/

/-- The entry of a name is what was inserted last for it, or a reference type that the table had at
the start. -/
theorem Made.lookup_cases (hmade : Made insertions boxing) {name : String} {reference : Named}
    (h : boxing.entries.lookup name = some reference) :
    insertions.reverse.lookup name = some reference ∨ reference.isPrimitive = false := by
  induction hmade with
  | empty => cases h
  | standard =>
      have hentries : Boxing.standard.entries.all fun entry => !entry.2.isPrimitive := by decide
      obtain ⟨before, after, hsplit, _⟩ := List.lookup_eq_some_iff.1 h
      have hmem : (name, reference) ∈ Boxing.standard.entries := hsplit ▸ List.mem_append_cons_self
      exact .inr (by simpa using List.all_eq_true.1 hentries _ hmem)
  | insert primitive inserted _ ih =>
      rw [lookup_insert] at h
      rw [List.reverse_concat, List.lookup_cons]
      by_cases hname : name = primitive
      · rw [if_pos hname] at h
        rw [beq_iff_eq.2 hname]
        exact .inl h
      · rw [if_neg hname] at h
        rw [beq_eq_false_iff_ne.2 hname]
        exact ih h

/-- Only primitives are boxed, by the entry of their name. -/
theorem boxed?_eq_some_iff {head reference : Named} :
    boxing.boxed? head = some reference ↔
      head.isPrimitive = true ∧ boxing.entries.lookup head.name = some reference := by
  rw [boxed?, Option.ite_none_right_eq_some]

/-- There are no chains where the last type inserted for each name is a reference type. -/
theorem Made.unchained (hmade : Made insertions boxing)
    (hlast : ∀ name reference, insertions.reverse.lookup name = some reference →
      reference.isPrimitive = false) : boxing.Unchained := by
  rintro first second third ⟨hfirst, hsecond⟩
  have hprimitive := (boxed?_eq_some_iff.1 hsecond).1
  have hreference : second.isPrimitive = false := by
    rcases hmade.lookup_cases (boxed?_eq_some_iff.1 hfirst).2 with hinserted | hreference
    · exact hlast _ _ hinserted
    · exact hreference
  exact Bool.false_ne_true (hreference.symm.trans hprimitive)

/-! ## Boxing again -/

/-- A boxable primitive becomes its reference type. -/
theorem box_named {head reference : Named} (h : boxing.boxed? head = some reference) :
    boxing.box (.named head) = .named reference := by
  rw [box, h, Option.getD_some]

/-- Boxing leaves alone what it does not apply to. -/
theorem Settled.box_eq {t : Ty} (h : boxing.Settled t) : boxing.box t = t := by
  cases t with
  | named head => rw [box, h head rfl, Option.getD_none]
  | applied | array | var | wildcard => rfl

/-- Boxing applies to a type or it does not. -/
theorem settled_or_boxed (boxing : Boxing) (t : Ty) :
    boxing.Settled t ∨ ∃ head reference, t = .named head ∧ boxing.boxed? head = some reference := by
  cases t with
  | named head =>
      cases h : boxing.boxed? head with
      | none => exact .inl fun other heq => by cases heq; exact h
      | some reference => exact .inr ⟨head, reference, rfl, h⟩
  | applied | array | var | wildcard => exact .inl nofun

/-- What boxing gives is settled exactly when there are no chains. -/
theorem unchained_iff_settled : boxing.Unchained ↔ ∀ t, boxing.Settled (boxing.box t) := by
  constructor
  · intro hunchained t
    rcases boxing.settled_or_boxed t with hsettled | ⟨first, second, rfl, hfirst⟩
    · rwa [hsettled.box_eq]
    · rw [box_named hfirst]
      rintro head heq
      cases heq
      refine Option.eq_none_iff_forall_ne_some.2 fun third hsecond => ?_
      exact hunchained first second third ⟨hfirst, hsecond⟩
  · rintro hsettled first second third ⟨hfirst, hsecond⟩
    have hnone := hsettled (.named first) second (box_named hfirst)
    cases hnone.symm.trans hsecond

/-- Whether a second boxing keeps a type, up to a reflexive relation, is decided by the chains. -/
theorem box_box_iff (same : Ty → Ty → Prop) (hrefl : ∀ t, same t t) :
    (∀ t, same (boxing.box (boxing.box t)) (boxing.box t)) ↔
      ∀ first second third, boxing.Chain first second third →
        same (.named third) (.named second) := by
  constructor
  · rintro hbox first second third ⟨hfirst, hsecond⟩
    have hsame := hbox (.named first)
    rwa [box_named hfirst, box_named hsecond] at hsame
  · intro hchain t
    rcases boxing.settled_or_boxed t with hsettled | ⟨first, second, rfl, hfirst⟩
    · rw [hsettled.box_eq, hsettled.box_eq]
      exact hrefl t
    · rw [box_named hfirst]
      rcases boxing.settled_or_boxed (.named second) with hsettled | ⟨_, third, heq, hsecond⟩
      · rw [hsettled.box_eq]
        exact hrefl _
      · cases heq
        rw [box_named hsecond]
        exact hchain first second third ⟨hfirst, hsecond⟩

/-! ## Comparisons -/

/-- A comparison with boxing is the comparison of the boxed types without it. -/
theorem isAssignable_boxing (boxing : Boxing) (context : Context) (fuel : Nat) (variance : Variance)
    (receiver payload : Ty) :
    context.isAssignable fuel boxing ⟨variance, true⟩ receiver payload =
      context.isAssignable fuel boxing ⟨variance, false⟩ (boxing.box receiver)
        (boxing.box payload) := by
  rw [Context.isAssignable_eq, Context.isAssignable_eq]
  rfl

/-- Where a second boxing changes no type, it changes no answer. -/
theorem transparent_of_box_box (h : ∀ t, boxing.box (boxing.box t) = boxing.box t) :
    boxing.Transparent := by
  intro context fuel variance receiver payload
  rw [isAssignable_boxing, isAssignable_boxing, h, h]

/-- Where a second boxing changes no answer, it keeps types up to equality. The question that tells
two links of a chain apart has a class for its receiver, so that only the payload is boxed. -/
theorem Transparent.beq_of_chain (h : boxing.Transparent) {first second third : Named}
    (hchain : boxing.Chain first second third) : (third == second) = true := by
  let receiver : Named := ⟨second.name, .classType, 0⟩
  have hsettled : boxing.Settled (.named receiver) := by
    rintro head heq
    cases heq
    rfl
  let context : Context := ⟨⟨fun _ => none, .cloneable, .serializable⟩, .empty, false⟩
  have hanswer := congrArg Query.answer (h context 1 .invariant (.named receiver) (.named first))
  rw [isAssignable_boxing, isAssignable_boxing, hsettled.box_eq, hsettled.box_eq,
    box_named hchain.first_boxed, box_named hchain.second_boxed] at hanswer
  have hbeq : (receiver == third) = (receiver == second) := Option.some.inj hanswer
  have hsecond : (receiver == second) = true := Named.beq_iff.2 rfl
  rw [hsecond] at hbeq
  exact Named.beq_iff.2 (Named.beq_iff.1 hbeq).symm

/-- Boxing is the boxing of the two types as a whole. It settles a type, so that boxing again or
beforehand changes nothing, exactly when the table has no chains, and it has none when the last type
inserted for each name is a reference type. Up to equality, types stay the same exactly when the
links of all chains are equal, and only then boxing beforehand can leave all answers as they are. -/
theorem boxes_once (hmade : Made insertions boxing) :
    ((∀ name reference, insertions.reverse.lookup name = some reference →
      reference.isPrimitive = false) → boxing.Unchained) ∧
    (boxing.Unchained ↔ ∀ t, boxing.Settled (boxing.box t)) ∧
    ((∀ t, (boxing.box (boxing.box t) == boxing.box t) = true) ↔
      ∀ first second third, boxing.Chain first second third → (third == second) = true) ∧
    (∀ (context : Context) (fuel : Nat) (variance : Variance) (receiver payload : Ty),
      context.isAssignable fuel boxing ⟨variance, true⟩ receiver payload =
        context.isAssignable fuel boxing ⟨variance, false⟩ (boxing.box receiver)
          (boxing.box payload)) ∧
    (boxing.Unchained →
      (∀ t, boxing.box (boxing.box t) = boxing.box t) ∧ boxing.Transparent) ∧
    (boxing.Transparent → ∀ t, (boxing.box (boxing.box t) == boxing.box t) = true) := by
  have hbeq : (∀ t, (boxing.box (boxing.box t) == boxing.box t) = true) ↔
      ∀ first second third, boxing.Chain first second third → (third == second) = true :=
    box_box_iff (fun s t => (s == t) = true) fun _ => BEq.rfl
  refine ⟨hmade.unchained, unchained_iff_settled, hbeq, boxing.isAssignable_boxing,
    fun hunchained => ?_, fun htransparent => ?_⟩
  · have hsame : ∀ t, boxing.box (boxing.box t) = boxing.box t :=
      fun t => (unchained_iff_settled.1 hunchained t).box_eq
    exact ⟨hsame, transparent_of_box_box hsame⟩
  · exact hbeq.2 fun _ _ _ hchain => htransparent.beq_of_chain hchain

section Words

/-- Machine words are a primitive of their own. -/
def word : Named := ⟨"word", .primitiveType, 0⟩

/-- Integers as the language has them. -/
def int : Named := ⟨"int", .primitiveType, 0⟩

/-- The reference type of integers. -/
def integer : Named := ⟨"java.lang.Integer", .classType, 0⟩

/-- The reference type of words. -/
def boxedWord : Named := ⟨"Word", .classType, 0⟩

/-- Words were integers first and have a reference type of their own now. -/
def ownWords : Boxing := (standard.insert "word" int).insert "word" boxedWord

/-- A chain that a later insertion has broken does no harm. -/
theorem ownWords_box_once :
    Made [("word", int), ("word", boxedWord)] ownWords ∧ ownWords.Unchained ∧
    ownWords.box (.named word) = .named boxedWord ∧ ownWords.Settled (.named boxedWord) ∧
    ownWords.Transparent := by
  have hmade : Made [("word", int), ("word", boxedWord)] ownWords :=
    .insert "word" boxedWord (.insert "word" int .standard)
  obtain ⟨hlast, hsettled, _, _, honce, _⟩ := boxes_once hmade
  have hunchained : ownWords.Unchained := by
    refine hlast fun name reference hlookup => ?_
    rw [List.reverse_cons, List.reverse_singleton, List.singleton_append, List.lookup_cons,
      List.lookup_cons] at hlookup
    split at hlookup
    · cases hlookup
      rfl
    · cases hlookup
  have hbox : ownWords.box (.named word) = .named boxedWord := rfl
  exact ⟨hmade, hunchained, hbox, hbox ▸ hsettled.1 hunchained _, (honce hunchained).2⟩

/-- Words are integers. -/
def sharedWords : Boxing := standard.insert "word" int

/-- Where words are boxed to integers, they are boxed to a primitive that is boxed in its turn. A
second boxing gives another type, and if the types are boxed beforehand, the reference type of
integers accepts words, which it does not otherwise. -/
theorem sharedWords_box_twice :
    Made [("word", int)] sharedWords ∧
    sharedWords.box (.named word) = .named int ∧ ¬ sharedWords.Settled (.named int) ∧
    sharedWords.box (.named int) = .named integer ∧
    ¬ (∀ t, (sharedWords.box (sharedWords.box t) == sharedWords.box t) = true) ∧
    ∀ context : Context,
      (context.isAssignable 1 sharedWords ⟨.invariant, true⟩ (.named integer)
        (.named word)).answer = some false ∧
      (context.isAssignable 1 sharedWords ⟨.invariant, true⟩ (sharedWords.box (.named integer))
        (sharedWords.box (.named word))).answer = some true := by
  have hword : sharedWords.boxed? word = some int := rfl
  have hint : sharedWords.boxed? int = some integer := rfl
  refine ⟨.insert "word" int .standard, box_named hword, fun hsettled => ?_, box_named hint,
    fun hsame => ?_, fun context => ⟨rfl, rfl⟩⟩
  · cases (hsettled int rfl).symm.trans hint
  · have hbox := hsame (.named word)
    rw [box_named hword, box_named hint] at hbox
    exact absurd hbox (by decide)

end Words

end Boxing

end Nominal
