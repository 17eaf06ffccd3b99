import Nominal.Proofs.Extension

/-!
# The order of declared supertypes

Two environments that declare the same names alike extend each other, whatever the order of the
declared supertypes, their repetitions and their split between superclass and interfaces. So the
closures of a type have the same members in both, and questions of assignability get the same
answers.
-/

namespace Nominal

/-- Two environments that declare the same names, alike, and whose arrays have the same
interfaces. -/
structure Env.Reordered (env other : Env) : Prop where
  declared : ∀ name, Option.Rel Declaration.Alike (env.find? name) (other.find? name)
  cloneable : (env.cloneable == other.cloneable) = true
  serializable : (env.serializable == other.serializable) = true

namespace Env.Reordered

variable {env other : Env}

/-- A name that is missing in one environment is missing in the other. -/
theorem missing (h : env.Reordered other) {name : String} (hmissing : env.find? name = none) :
    other.find? name = none := by
  have hdeclared := h.declared name
  rw [hmissing] at hdeclared
  cases hfound : other.find? name with
  | none => rfl
  | some declaration =>
      rw [hfound] at hdeclared
      cases hdeclared

/-- Each environment is extended by the other. -/
theorem extendedBy (h : env.Reordered other) : env.ExtendedBy other where
  declared {name declaration} hfound := by
    have hdeclared := h.declared name
    rw [hfound] at hdeclared
    cases hfound' : other.find? name with
    | none =>
        rw [hfound'] at hdeclared
        cases hdeclared
    | some declaration' =>
        rw [hfound'] at hdeclared
        cases hdeclared with
        | some halike => exact ⟨declaration', rfl, halike⟩
  cloneable := h.cloneable
  serializable := h.serializable

/-- Environments are reordered both ways. -/
theorem symm (h : env.Reordered other) : other.Reordered env where
  declared name := by
    cases hfound : env.find? name with
    | none =>
        rw [h.missing hfound]
        exact .none
    | some declaration =>
        obtain ⟨declaration', hfound', halike⟩ := h.extendedBy.declared hfound
        rw [hfound']
        exact .some halike.symm
  cloneable := BEq.symm h.cloneable
  serializable := BEq.symm h.serializable

end Env.Reordered

namespace Context

variable {first second : Context} {roots : List Ty}

/-- Contexts that agree extend each other if their environments are reordered. -/
theorem Concordant.extended (hconcordant : Concordant [first, second] roots)
    (h : first.env.Reordered second.env) : Extended first second roots where
  concordant := hconcordant
  declared := h.extendedBy
  owners _ := h.missing

/-- Lists that have each other's members have the same members, up to equality. -/
theorem contains_eq_of_mutual {types types' : List Ty}
    (h : ∀ s ∈ types, types'.contains s = true) (h' : ∀ s ∈ types', types.contains s = true)
    (s : Ty) : types.contains s = types'.contains s := by
  have hcontains {list list' : List Ty} (h : ∀ s ∈ list, list'.contains s = true)
      (hs : list.contains s = true) : list'.contains s = true := by
    obtain ⟨member, hmember, heq⟩ := List.contains_iff_exists_mem_beq.1 hs
    obtain ⟨member', hmember', heq'⟩ := List.contains_iff_exists_mem_beq.1 (h member hmember)
    exact List.contains_iff_exists_mem_beq.2 ⟨member', hmember', BEq.trans heq heq'⟩
  exact Bool.eq_iff_iff.2 ⟨hcontains h, hcontains h'⟩

/-- The order in which supertypes are declared does not matter. In two environments that declare
the same names with the same parameters and the same set of supertypes, the supertypes of a type are
the same set, and every question of assignability that is answered in both gets the same answer. -/
theorem reordered_answers_agree (h : first.env.Reordered second.env)
    (hconcordant : Concordant [first, second] roots) :
    (∀ {t members members'}, t ∈ roots → first.Lists roots t members →
      second.Lists roots t members' → ∀ s, members.contains s = members'.contains s) ∧
    ∀ (boxing : Boxing) (options : AssignOptions) (receiver payload : Ty) (answer answer' : Bool),
      (if options.boxing then boxing.box receiver else receiver) ∈ roots →
      (if options.boxing then boxing.box payload else payload) ∈ roots →
      first.Answers roots boxing options receiver payload answer →
      second.Answers roots boxing options receiver payload answer' → answer = answer' := by
  have hforth := hconcordant.extended h
  have hback := hconcordant.swap.extended h.symm
  constructor
  · intro t members members' ht hlists hlists'
    exact contains_eq_of_mutual (fun _ => hforth.lists ht hlists hlists')
      (fun _ => hback.lists ht hlists' hlists)
  · intro boxing options receiver payload answer answer' hreceiver hpayload hanswer hanswer'
    cases answer with
    | true => exact (hforth.answers hreceiver hpayload hanswer hanswer').symm
    | false =>
        cases answer' with
        | true => exact hback.answers hreceiver hpayload hanswer' hanswer
        | false => rfl

/-- The parameter of ledgers. Its cell does not matter. -/
def entryOf (cell : CellId) : TypeVar := ⟨"T", "Ledger", .owning cell⟩

/-- A class without a declaration. -/
def page : Named := ⟨"Page", .classType, 0⟩

/-- A class above ledgers. -/
def book : Named := ⟨"Book", .classType, 0⟩

/-- An interface for what is in order. -/
def inOrder (t : Ty) : Ty := .applied none ⟨⟨"InOrder", .interfaceType, 1⟩, rfl⟩ [t]

/-- The class of ledgers. -/
def ledger (t : Ty) : Ty := .applied none ⟨⟨"Ledger", .classType, 1⟩, rfl⟩ [t]

/-- A context in which ledgers have the given parameter and supertypes. -/
def ledgers (param : TypeVar) (superclass : Option Ty) (interfaces : List Ty) : Context :=
  let find? (name : String) : Option Declaration :=
    if name = "Ledger" then some ⟨⟨"Ledger", .classType, 1⟩, [param], superclass, interfaces⟩
    else if name = "Book" then some ⟨book, [], none, []⟩
    else none
  ⟨⟨find?, .cloneable, .serializable⟩, .empty, true⟩

/-- Ledgers are books, and in order. -/
def booksInOrder : Context := ledgers (entryOf 0) (some (.named book)) [inOrder (.var (entryOf 0))]

/-- Ledgers are in order and are books, and are in order. -/
def orderedBooks : Context :=
  ledgers (entryOf 1) none
    [inOrder (.var (entryOf 1)), .named book, inOrder (.var (entryOf 1))]

/-- A ledger of pages. -/
def ledgerOfPages : Ty := ledger (.named page)

/-- Pages in order. -/
def pagesInOrder : Ty := inOrder (.named page)

/-- The types that are met from a ledger of pages. -/
def shelf : List Ty := [ledgerOfPages, pagesInOrder, .named book, .named page, .top]

/-- The two environments declare the same names alike. -/
theorem books_reordered : booksInOrder.env.Reordered orderedBooks.env where
  declared name := by
    simp only [booksInOrder, orderedBooks, ledgers]
    by_cases hname : name = "Ledger"
    · rw [if_pos hname, if_pos hname]
      refine .some ⟨rfl, .cons rfl .nil, fun t => ?_⟩
      -- equal variables stand in the two declarations
      have hequal : (t == inOrder (.var (entryOf 0))) = (t == inOrder (.var (entryOf 1))) :=
        BEq.congr_right rfl
      show List.contains [.named book, _] t = List.contains [_, .named book, _] t
      simp only [List.contains_cons, hequal]
      cases t == .named book <;> cases t == inOrder (.var (entryOf 1)) <;> rfl
    · rw [if_neg hname, if_neg hname]
      split
      · exact .some (.refl _)
      · exact .none
  cloneable := rfl
  serializable := rfl

/-- The names on the shelf. -/
theorem mem_of_named_mem_shelf {head : Named} (h : .named head ∈ shelf) :
    head ∈ [book, page, .top] := by
  simpa [shelf, ledgerOfPages, pagesInOrder, ledger, inOrder, Ty.top] using h

/-- Only these types are met in the two environments. -/
theorem mem_shelf {context : Context} (hcontext : context ∈ [booksInOrder, orderedBooks]) {t : Ty}
    (h : context.Met shelf t) : t ∈ shelf := by
  refine h.mem_of_closed (fun _ => id) ?_ ?_ ?_ ?_
  · simp [shelf, Ty.parts, ledgerOfPages, pagesInOrder, ledger, inOrder, Ty.top]
  · simp [shelf, ledgerOfPages, pagesInOrder, ledger, inOrder, Ty.top]
  · simp only [shelf, List.forall_mem_cons]
    rcases List.mem_pair.1 hcontext with rfl | rfl
    · exact ⟨⟨[.named book, pagesInOrder], ⟨0, rfl⟩, by simp⟩, ⟨[], ⟨0, rfl⟩, by simp⟩,
        ⟨[.top], ⟨0, rfl⟩, by simp⟩, ⟨[], ⟨0, rfl⟩, by simp⟩, ⟨[], ⟨0, rfl⟩, by simp⟩,
        List.forall_mem_nil _⟩
    · exact ⟨⟨[pagesInOrder, .named book], ⟨0, rfl⟩, by simp⟩, ⟨[], ⟨0, rfl⟩, by simp⟩,
        ⟨[.top], ⟨0, rfl⟩, by simp⟩, ⟨[], ⟨0, rfl⟩, by simp⟩, ⟨[], ⟨0, rfl⟩, by simp⟩,
        List.forall_mem_nil _⟩
  · intro head declaration hhead hfound s hs
    -- no name has declared supertypes
    have hheads := mem_of_named_mem_shelf hhead
    simp only [List.mem_cons, List.not_mem_nil, or_false] at hheads
    rcases List.mem_pair.1 hcontext with rfl | rfl <;> rcases hheads with rfl | rfl | rfl <;>
      cases hfound <;> cases hs

/-- The two environments agree. -/
theorem shelf_concordant : Concordant [booksInOrder, orderedBooks] shelf := by
  constructor
  · intro context context' param param' hcontext _ hparam _ _
    have hmem := mem_shelf hcontext hparam
    simp [shelf, ledgerOfPages, pagesInOrder, ledger, inOrder, Ty.top] at hmem
  · intro context context' head head' hcontext hcontext' hhead hhead' heq
    have hkinds : ∀ head ∈ [book, page, .top], ∀ head' ∈ [book, page, .top],
        (head == head') = true → head.kind = head'.kind := by decide
    exact hkinds head (mem_of_named_mem_shelf (mem_shelf hcontext hhead)) head'
      (mem_of_named_mem_shelf (mem_shelf hcontext' hhead')) heq

set_option maxRecDepth 4000 in
/-- A ledger of pages has the same supertypes in another order, and what it is assignable to is the
same. -/
theorem ledgers_agree :
    let answers (context : Context) :=
      context.Answers shelf .empty ⟨.covariant, false⟩ pagesInOrder ledgerOfPages
    booksInOrder.Lists shelf ledgerOfPages [ledgerOfPages, .named book, pagesInOrder, .top] ∧
    orderedBooks.Lists shelf ledgerOfPages [ledgerOfPages, pagesInOrder, .named book, .top] ∧
    (∀ s, List.contains [ledgerOfPages, .named book, pagesInOrder, .top] s =
      List.contains [ledgerOfPages, pagesInOrder, .named book, .top] s) ∧
    answers booksInOrder true ∧ answers orderedBooks true ∧
      ∀ answer, answers orderedBooks answer → true = answer := by
  intro answers
  have hlists : booksInOrder.Lists shelf ledgerOfPages
      [ledgerOfPages, .named book, pagesInOrder, .top] := ⟨6, .empty, _, memoSound_empty, rfl⟩
  have hlists' : orderedBooks.Lists shelf ledgerOfPages
      [ledgerOfPages, pagesInOrder, .named book, .top] := ⟨6, .empty, _, memoSound_empty, rfl⟩
  have hyes : answers booksInOrder true := ⟨6, .empty, _, memoSound_empty, rfl⟩
  have hyes' : answers orderedBooks true := ⟨6, .empty, _, memoSound_empty, rfl⟩
  have hagree := reordered_answers_agree books_reordered shelf_concordant
  refine ⟨hlists, hlists', hagree.1 (.head _) hlists hlists', hyes, hyes', fun answer h => ?_⟩
  exact hagree.2 _ ⟨_, false⟩ _ _ true answer (.tail _ (.head _)) (.head _) hyes h

end Context

end Nominal
