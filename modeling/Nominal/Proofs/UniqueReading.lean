import Nominal.Proofs.Congruence
import Nominal.Proofs.Substitution

/-!
# The text of a type tells it apart

Equal types have the same text. Conversely, a type without owners can be read off its text if the
names in it have none of the marks that the text puts between them. A type is read from the left: a
word, then arguments in brackets or the declaration of a variable, and then pairs of brackets for
arrays. So an array is read as its element type and the number of its dimensions. The induction is
over types with any text behind them; only a wildcard needs to know that no array follows, since
its bound would take the brackets.
-/

namespace Nominal

/-! ## Words and what follows them -/

/-- The characters that stand between names in the text of a type. -/
def isMark (c : Char) : Bool := ['<', '>', ',', ' ', '?', '[', ']', '@'].contains c

/-- A text without marks. -/
def Unmarked (text : String) : Prop := ∀ c ∈ text.toList, isMark c = false

instance (text : String) : Decidable (Unmarked text) :=
  List.decidableBAll (fun c => isMark c = false) text.toList

/-- A text is at its end or goes on with one of the given characters. -/
def GoesOnWith (marks rest : List Char) : Prop := ∀ c ∈ rest.head?, c ∈ marks

/-- What follows a type in the text of another one. -/
abbrev AfterType (rest : List Char) : Prop := GoesOnWith [',', '>'] rest

/-- What follows the element type of an array. -/
abbrev AfterElement (rest : List Char) : Prop := GoesOnWith ['[', ',', '>'] rest

/-- What follows the first word of a type. -/
abbrev AfterWord (rest : List Char) : Prop := GoesOnWith ['<', '@', '[', ',', '>'] rest

/-- What follows a type may follow an element type. -/
theorem GoesOnWith.afterElement {rest : List Char} (h : AfterType rest) : AfterElement rest :=
  fun c hc => List.mem_cons_of_mem _ (h c hc)

/-- What follows an element type may follow a word. -/
theorem GoesOnWith.afterWord {rest : List Char} (h : AfterElement rest) : AfterWord rest :=
  fun c hc => List.mem_cons_of_mem _ (List.mem_cons_of_mem _ (h c hc))

/-- What follows a word starts with a mark. -/
theorem GoesOnWith.isMark {rest : List Char} (h : AfterWord rest) :
    ∀ c ∈ rest.head?, isMark c = true := by
  have hmarks : ['<', '@', '[', ',', '>'].all Nominal.isMark = true := by decide
  exact fun c hc => List.all_eq_true.1 hmarks c (h c hc)

/-- A word is read up to the first mark. -/
theorem word_append_inj {first second : String} {rest rest' : List Char} (hfirst : Unmarked first)
    (hsecond : Unmarked second) (hrest : AfterWord rest) (hrest' : AfterWord rest')
    (h : first.toList ++ rest = second.toList ++ rest') : first = second ∧ rest = rest' := by
  have hread {word : String} {rest : List Char} (hword : Unmarked word) (hrest : AfterWord rest) :
      (word.toList ++ rest).takeWhile (fun c => !isMark c) = word.toList := by
    have hstop : rest.takeWhile (fun c => !isMark c) = [] := by
      cases rest with
      | nil => rfl
      | cons c rest => simp [hrest.isMark c rfl]
    rw [List.takeWhile_append_of_pos (fun c hc => by rw [hword c hc, Bool.not_false]), hstop,
      List.append_nil]
  have hword : first.toList = second.toList := by
    rw [← hread hfirst hrest, h, hread hsecond hrest']
  rw [hword] at h
  exact ⟨String.toList_inj.1 hword, List.append_cancel_left h⟩

/-- The brackets of an array with some dimensions. -/
def brackets : Nat → List Char
  | 0 => []
  | count + 1 => '[' :: ']' :: brackets count

/-- The brackets of one more dimension may come last. -/
theorem brackets_append (count : Nat) : brackets count ++ ['[', ']'] = brackets (count + 1) := by
  induction count with
  | zero => rfl
  | succ count ih =>
      rw [brackets, List.cons_append, List.cons_append, ih]
      rfl

/-- What follows a type may follow an element type and its brackets. -/
theorem afterElement_brackets (count : Nat) {rest : List Char} (h : AfterElement rest) :
    AfterElement (brackets count ++ rest) := by
  cases count with
  | zero => exact h
  | succ count =>
      intro c hc
      cases hc
      exact List.mem_cons_self

/-- Dimensions are counted by their brackets. -/
theorem brackets_inj {count count' : Nat} {rest rest' : List Char} (hrest : AfterType rest)
    (hrest' : AfterType rest') (h : brackets count ++ rest = brackets count' ++ rest') :
    count = count' ∧ rest = rest' := by
  have hstop {rest : List Char} (hrest : AfterType rest) (count : Nat) (other : List Char) :
      rest ≠ brackets (count + 1) ++ other := by
    rintro rfl
    have hmark := hrest '[' rfl
    simp at hmark
  induction count generalizing count' with
  | zero =>
      cases count' with
      | zero => exact ⟨rfl, h⟩
      | succ count' => exact absurd h (hstop hrest count' rest')
  | succ count ih =>
      cases count' with
      | zero => exact absurd h.symm (hstop hrest' count rest)
      | succ count' =>
          simp only [brackets, List.cons_append, List.cons.injEq, true_and] at h
          obtain ⟨rfl, hrests⟩ := ih h
          exact ⟨rfl, hrests⟩

namespace Ty

/-! ## Texts of types -/

/-- The characters of the text of a type. -/
def letters (t : Ty) : List Char := t.display.toList

/-- The text of arguments behind the first one. -/
def moreLetters (args : List Ty) : List Char := args.flatMap fun arg => ',' :: ' ' :: arg.letters

/-- A variable is written with its declaration. -/
theorem letters_var (param : TypeVar) :
    (Ty.var param).letters = param.name.toList ++ '@' :: param.declaration.toList := by
  show (param.name ++ "@" ++ param.declaration).toList = _
  simp [String.toList_append]

/-- An array is written with brackets behind its component. -/
theorem letters_array (component : Ty) :
    (Ty.array component).letters = component.letters ++ ['[', ']'] := by
  show (component.display ++ "[]").toList = _
  rw [String.toList_append]
  rfl

/-- The texts of several types. -/
theorem displayAll_eq (types : List Ty) : displayAll types = types.map display := by
  induction types with
  | nil => rfl
  | cons first rest ih => rw [displayAll, ih, List.map_cons]

/-- An applied type is written with its arguments in angle brackets. -/
theorem letters_applied (raw : ClassName) (first : Ty) (rest : List Ty) :
    (Ty.applied none raw (first :: rest)).letters =
      raw.name.toList ++ '<' :: (first.letters ++ moreLetters rest ++ ['>']) := by
  have hcommas (text : List Char) : [',', ' '].intercalate (text :: rest.map letters) =
      text ++ moreLetters rest := by
    induction rest generalizing text with
    | nil => simp [moreLetters]
    | cons next rest ih => simp [moreLetters, List.intercalate_cons_cons, ih]
  show (raw.name ++ bracketed (displayAll (first :: rest))).toList = _
  rw [displayAll_eq, bracketed, List.map_cons, List.isEmpty_cons, if_neg Bool.false_ne_true,
    commaSeparated]
  simp only [String.toList_append, String.toList_intercalate, List.map_cons, List.map_map]
  have hmap : rest.map (String.toList ∘ display) = rest.map letters := rfl
  rw [hmap]
  exact congrArg (fun text => raw.name.toList ++ (['<'] ++ text ++ ['>'])) (hcommas first.letters)

/-- A wildcard with a lower bound is written with the lower bound alone. -/
theorem letters_super (upper lower : Ty) :
    (Ty.wildcard upper (some lower)).letters = "? super ".toList ++ lower.letters := by
  show ("? super " ++ lower.display).toList = _
  rw [String.toList_append]
  rfl

/-- A wildcard without a proper bound is a question mark. -/
theorem letters_unbounded {upper : Ty} (h : upper.isTop = true) :
    (Ty.wildcard upper none).letters = ['?'] := by
  rw [letters, display, if_pos h]
  rfl

/-- A wildcard with an upper bound is written with it. -/
theorem letters_extends {upper : Ty} (h : upper.isTop = false) :
    (Ty.wildcard upper none).letters = "? extends ".toList ++ upper.letters := by
  rw [letters, display, if_neg (Bool.eq_false_iff.1 h), String.toList_append]
  rfl

/-- Members of equal names are written alike in equal owners. -/
theorem memberName_congr {owner owner' : Ty} {raw raw' : ClassName}
    (howner : (owner == owner') = true) (hraw : (raw.toNamed == raw') = true) :
    memberName owner raw = memberName owner' raw' := by
  have hname : raw.name = raw'.name := Named.beq_iff.1 hraw
  have hsimple : raw.simpleName = raw'.simpleName := by
    rw [Named.simpleName, hname, Named.simpleName]
  rw [memberName, memberName, headName_congr howner]
  cases owner'.headName? with
  | none => exact hname
  | some enclosing =>
      dsimp only
      rw [Named.isNestedIn, Named.isNestedIn, hsimple, hname]

/-- Equal types have the same text. -/
theorem display_congr {s t : Ty} (h : (s == t) = true) : s.display = t.display := by
  induction s using parts_induction generalizing t with
  | step s ih =>
      cases s with
      | named head =>
          obtain ⟨head', rfl, hhead⟩ := named_beq h
          exact Named.beq_iff.1 hhead
      | var param =>
          obtain ⟨param', rfl, hparam⟩ := var_beq h
          obtain ⟨hname, hdeclaration⟩ := TypeVar.beq_iff.1 hparam
          rw [display, display, TypeVar.display, TypeVar.display, hname, hdeclaration]
      | array component =>
          obtain ⟨component', rfl, hcomponent⟩ := array_beq h
          rw [display, display, ih component (List.mem_singleton.2 rfl) hcomponent]
      | applied owner raw args =>
          obtain ⟨owner', raw', args', rfl, hraw, howner, hargs⟩ := applied_beq h
          have hname : raw.name = raw'.name := Named.beq_iff.1 hraw
          have htexts : displayAll args = displayAll args' := by
            have hboth := (List.forall₂_and_left _ _).2
              ⟨fun arg harg => @ih arg (List.mem_append_right _ harg), hargs⟩
            rw [displayAll_eq, displayAll_eq, ← List.forall₂_eq_eq_eq,
              List.forall₂_map_left_iff, List.forall₂_map_right_iff]
            exact hboth.imp fun _ _ hpair => hpair.1 hpair.2
          rcases option_beq howner with ⟨rfl, rfl⟩ | ⟨outer, outer', rfl, rfl, houter⟩
          · rw [display, display, hname, htexts]
          · rw [display, display, memberName_congr houter hraw, htexts,
              ih outer (List.mem_append_left _ (List.mem_singleton.2 rfl)) houter]
      | wildcard upper lower =>
          obtain ⟨upper', lower', rfl, hupper, hlower⟩ := wildcard_beq h
          rcases option_beq hlower with ⟨rfl, rfl⟩ | ⟨bound, bound', rfl, rfl, hbound⟩
          · rw [display, display, isTop_congr hupper, ih upper List.mem_cons_self hupper]
          · rw [display, display,
              ih bound (List.mem_cons_of_mem _ (List.mem_singleton.2 rfl)) hbound]

/-! ## Types that can be read -/

/-- A node without owner and with some argument if it is applied, without a wildcard as component or
bound, and with names that have no marks. A wildcard is as the checked constructors make it: beside
a lower bound it has no other upper bound than the universal supertype. -/
def LegibleAt : Ty → Prop
  | .named head => Unmarked head.name
  | .applied owner raw args => owner = none ∧ args ≠ [] ∧ Unmarked raw.name
  | .array component => component.isWildcard = false
  | .var param => Unmarked param.name ∧ Unmarked param.declaration
  | .wildcard upper lower => FormedAt (.wildcard upper lower)

/-- All nodes of a type can be told apart in its text. -/
def Legible (t : Ty) : Prop := t.Everywhere LegibleAt

/-- What an array has in its cells, through all dimensions. -/
def element : Ty → Ty
  | .array component => element component
  | t => t

/-- How many dimensions an array has. -/
def dimensions : Ty → Nat
  | .array component => dimensions component + 1
  | _ => 0

/-- The text of a type is that of its element type with the brackets of its dimensions. -/
theorem letters_element (t : Ty) : t.letters = t.element.letters ++ brackets t.dimensions := by
  induction t using parts_induction with
  | step t ih =>
      cases t with
      | array component =>
          rw [letters_array, ih component (List.mem_singleton.2 rfl), element, dimensions,
            List.append_assoc, brackets_append]
      | named | applied | var | wildcard => exact (List.append_nil _).symm

/-- Arrays of equal element types with as many dimensions are equal. -/
theorem beq_of_element {s t : Ty} (helement : (s.element == t.element) = true)
    (hdimensions : s.dimensions = t.dimensions) : (s == t) = true := by
  induction s using parts_induction generalizing t with
  | step s ih =>
      cases s with
      | array component =>
          cases t with
          | array component' =>
              exact @ih component (List.mem_singleton.2 rfl) component' helement
                (Nat.succ.inj hdimensions)
          | named | applied | var | wildcard => cases hdimensions
      | named | applied | var | wildcard =>
          cases t with
          | array component' => cases hdimensions
          | named | applied | var | wildcard => exact helement

/-- A type whose text starts with a word: it is legible, and neither an array nor a wildcard. -/
structure Stem (t : Ty) : Prop where
  legible : t.Legible
  dimensions : t.dimensions = 0
  isWildcard : t.isWildcard = false

/-- The element type of a legible type that is no wildcard starts with a word. -/
theorem Legible.stem {t : Ty} (h : t.Legible) (hwild : t.isWildcard = false) : t.element.Stem := by
  induction t using parts_induction with
  | step t ih =>
      cases t with
      | array component =>
          have hpart : component ∈ (Ty.array component).parts := List.mem_singleton.2 rfl
          exact ih component hpart (h.part hpart) h.self
      | named | applied | var => exact ⟨h, rfl, rfl⟩
      | wildcard => cases hwild

/-- The word at the start of a text. -/
def word : Ty → String
  | .named head => head.name
  | .applied _ raw _ => raw.name
  | .var param => param.name
  | .array _ | .wildcard _ _ => ""

/-- What the text has behind its first word: nothing, arguments or a declaration. -/
def tail : Ty → List Char
  | .applied _ _ (first :: rest) => '<' :: (first.letters ++ moreLetters rest ++ ['>'])
  | .var param => '@' :: param.declaration.toList
  | _ => []

/-- A type that starts with a word is a name, a name with some arguments or a variable. -/
theorem Stem.shape {t : Ty} (h : t.Stem) : (∃ head, t = .named head) ∨
    (∃ raw first rest, t = .applied none raw (first :: rest)) ∨ ∃ param, t = .var param := by
  cases t with
  | named head => exact .inl ⟨head, rfl⟩
  | var param => exact .inr (.inr ⟨param, rfl⟩)
  | applied owner raw args =>
      obtain ⟨rfl, hargs, _⟩ := h.legible.self
      obtain ⟨first, rest, rfl⟩ := List.exists_cons_of_ne_nil hargs
      exact .inr (.inl ⟨raw, first, rest, rfl⟩)
  | array => cases h.dimensions
  | wildcard => cases h.isWildcard

/-- The text of a type that starts with a word. -/
theorem Stem.letters {t : Ty} (h : t.Stem) : t.letters = t.word.toList ++ t.tail := by
  obtain ⟨head, rfl⟩ | ⟨raw, first, rest, rfl⟩ | ⟨param, rfl⟩ := h.shape
  · exact (List.append_nil _).symm
  · exact letters_applied raw first rest
  · exact letters_var param

/-- The first word has no marks. -/
theorem Stem.unmarked {t : Ty} (h : t.Stem) : Unmarked t.word := by
  obtain ⟨head, rfl⟩ | ⟨raw, first, rest, rfl⟩ | ⟨param, rfl⟩ := h.shape
  · exact h.legible.self
  · exact h.legible.self.2.2
  · exact h.legible.self.1

/-- What a type has behind its first word, and what follows the type, may follow a word. -/
theorem afterWord_tail (t : Ty) {rest : List Char} (hrest : AfterElement rest) :
    AfterWord (t.tail ++ rest) := by
  cases t with
  | var param =>
      rintro _ ⟨⟩
      exact List.mem_cons_of_mem _ List.mem_cons_self
  | applied owner raw args =>
      cases args with
      | nil => exact hrest.afterWord
      | cons first more =>
          rintro _ ⟨⟩
          exact List.mem_cons_self
  | named | array | wildcard => exact hrest.afterWord

/-! ## Reading -/

/-- A type is read off a text that starts with it. If it is no wildcard, its element type and its
dimensions can be told even if more brackets follow. -/
structure Reads (s : Ty) : Prop where
  element : s.isWildcard = false → ∀ {t : Ty} {rest rest' : List Char}, t.Legible →
    t.isWildcard = false → AfterElement rest → AfterElement rest' →
    s.letters ++ rest = t.letters ++ rest' → (s.element == t.element) = true ∧
      brackets s.dimensions ++ rest = brackets t.dimensions ++ rest'
  whole : ∀ {t : Ty} {rest rest' : List Char}, t.Legible → AfterType rest → AfterType rest' →
    s.letters ++ rest = t.letters ++ rest' → (s == t) = true ∧ rest = rest'

/-- Behind an argument comes another one or the closing bracket. -/
theorem afterType_arguments (args : List Ty) (rest : List Char) :
    AfterType (moreLetters args ++ '>' :: rest) := by
  cases args with
  | nil =>
      rintro _ ⟨⟩
      exact List.mem_cons_of_mem _ List.mem_cons_self
  | cons arg args =>
      rintro _ ⟨⟩
      exact List.mem_cons_self

/-- Arguments are read one after the other up to the closing bracket. -/
theorem read_arguments {args args' : List Ty} (hargs : ∀ arg ∈ args, arg.Reads)
    (hargs' : ∀ arg ∈ args', arg.Legible) {rest rest' : List Char}
    (h : moreLetters args ++ '>' :: rest = moreLetters args' ++ '>' :: rest') :
    Matches args args' ∧ rest = rest' := by
  induction args generalizing args' with
  | nil =>
      cases args' with
      | nil => exact ⟨.nil, (List.cons.inj h).2⟩
      | cons arg' args' => cases (List.cons.inj h).1
  | cons arg args ih =>
      cases args' with
      | nil => cases (List.cons.inj h).1
      | cons arg' args' =>
          rw [List.forall_mem_cons] at hargs hargs'
          simp only [moreLetters, List.flatMap_cons, List.cons_append, List.append_assoc,
            List.cons.injEq, true_and] at h
          obtain ⟨heq, hmore⟩ := hargs.1.whole hargs'.1 (afterType_arguments args rest)
            (afterType_arguments args' rest') h
          obtain ⟨heqs, hrests⟩ := ih hargs.2 hargs'.2 hmore
          exact ⟨.cons heq heqs, hrests⟩

/-- A type that starts with a word is read: the word first, and then what the mark behind it
says. -/
theorem Stem.read {s t : Ty} (hs : s.Stem) (ht : t.Stem) (hparts : ∀ part ∈ s.parts, part.Reads)
    {rest rest' : List Char} (hrest : AfterElement rest) (hrest' : AfterElement rest')
    (h : s.letters ++ rest = t.letters ++ rest') : (s == t) = true ∧ rest = rest' := by
  -- what follows an element type starts neither arguments nor a declaration
  have hstop {rest text : List Char} (hrest : AfterElement rest) :
      rest ≠ '<' :: text ∧ rest ≠ '@' :: text := by
    constructor <;> (rintro rfl; have hmark := hrest _ rfl; simp at hmark)
  rw [hs.letters, ht.letters, List.append_assoc, List.append_assoc] at h
  obtain ⟨hword, htail⟩ := word_append_inj hs.unmarked ht.unmarked (s.afterWord_tail hrest)
    (t.afterWord_tail hrest') h
  obtain ⟨head, rfl⟩ | ⟨raw, first, more, rfl⟩ | ⟨param, rfl⟩ := hs.shape <;>
    obtain ⟨head', rfl⟩ | ⟨raw', first', more', rfl⟩ | ⟨param', rfl⟩ := ht.shape
  · exact ⟨Named.beq_iff.2 hword, htail⟩
  · exact absurd htail (hstop hrest).1
  · exact absurd htail (hstop hrest).2
  · exact absurd htail.symm (hstop hrest').1
  · -- both have arguments
    simp only [tail, List.cons_append, List.append_assoc, List.cons.injEq, true_and,
      List.nil_append] at htail
    have hlegible (arg : Ty) (harg : arg ∈ first' :: more') : arg.Legible := ht.legible.part harg
    obtain ⟨hfirst, hmore⟩ := (hparts first List.mem_cons_self).whole
      (hlegible first' List.mem_cons_self) (afterType_arguments more rest)
      (afterType_arguments more' rest') htail
    obtain ⟨hargs, hrests⟩ := read_arguments
      (fun arg harg => hparts arg (List.mem_cons_of_mem _ harg))
      (fun arg harg => hlegible arg (List.mem_cons_of_mem _ harg)) hmore
    exact ⟨applied_congr rfl (Named.beq_iff.2 hword) (.cons hfirst hargs), hrests⟩
  · cases (List.cons.inj htail).1
  · exact absurd htail.symm (hstop hrest').2
  · cases (List.cons.inj htail).1
  · -- both are variables
    obtain ⟨hdeclaration, hrests⟩ := word_append_inj hs.legible.self.2 ht.legible.self.2
      hrest.afterWord hrest'.afterWord (List.cons.inj htail).2
    exact ⟨TypeVar.beq_iff.2 ⟨hword, hdeclaration⟩, hrests⟩

/-- The text of a type that is no wildcard does not start with a question mark. -/
theorem Legible.not_question {t : Ty} (h : t.Legible) (hwild : t.isWildcard = false)
    {rest : List Char} (hrest : AfterType rest) (text : List Char) :
    t.letters ++ rest ≠ '?' :: text := by
  have hstem := h.stem hwild
  have hbehind := t.element.afterWord_tail (afterElement_brackets t.dimensions hrest.afterElement)
  rw [letters_element, hstem.letters, List.append_assoc, List.append_assoc]
  intro heq
  cases hword : t.element.word.toList with
  | nil =>
      rw [hword, List.nil_append] at heq
      rw [heq] at hbehind
      have hmark := hbehind '?' rfl
      simp at hmark
  | cons c word =>
      rw [hword] at heq
      cases (List.cons.inj heq).1
      cases hstem.unmarked '?' (by rw [hword]; exact List.mem_cons_self)

/-- A wildcard has a lower bound, no proper bound or an upper bound. -/
theorem Legible.wildcard_shape {t : Ty} (h : t.Legible) (hwild : t.isWildcard = true) :
    (∃ upper lower, t = .wildcard upper (some lower) ∧ upper.isTop = true) ∨
      (∃ upper, t = .wildcard upper none ∧ upper.isTop = true) ∨
      ∃ upper, t = .wildcard upper none ∧ upper.isTop = false := by
  obtain ⟨upper, lower, rfl⟩ := eq_wildcard hwild
  cases lower with
  | some lower => exact .inl ⟨upper, lower, rfl, h.self.1⟩
  | none =>
      cases htop : upper.isTop with
      | true => exact .inr (.inl ⟨upper, rfl, htop⟩)
      | false => exact .inr (.inr ⟨upper, rfl, htop⟩)

/-- The text of a wildcard starts with a question mark. -/
theorem letters_question {t : Ty} (hwild : t.isWildcard = true) :
    ∃ text, t.letters = '?' :: text := by
  obtain ⟨upper, lower, rfl⟩ := eq_wildcard hwild
  cases lower with
  | some lower => exact ⟨_, letters_super upper lower⟩
  | none =>
      cases htop : upper.isTop with
      | true => exact ⟨_, letters_unbounded htop⟩
      | false => exact ⟨_, letters_extends htop⟩

/-- A type that is no wildcard is read if its element type and its dimensions are. -/
theorem reads_of_element {s : Ty} (hs : s.Legible) (hwild : s.isWildcard = false)
    (helement : ∀ {t : Ty} {rest rest' : List Char}, t.Legible →
      t.isWildcard = false → AfterElement rest → AfterElement rest' →
      s.letters ++ rest = t.letters ++ rest' → (s.element == t.element) = true ∧
        brackets s.dimensions ++ rest = brackets t.dimensions ++ rest') : s.Reads where
  element _ := helement
  whole := by
    intro t rest rest' ht hrest hrest' h
    cases hwild' : t.isWildcard with
    | false =>
        obtain ⟨heq, hbrackets⟩ := helement ht hwild' hrest.afterElement hrest'.afterElement h
        obtain ⟨hdimensions, hrests⟩ := brackets_inj hrest hrest' hbrackets
        exact ⟨beq_of_element heq hdimensions, hrests⟩
    | true =>
        obtain ⟨text, htext⟩ := letters_question hwild'
        rw [htext] at h
        exact absurd h (hs.not_question hwild hrest _)

/-- A wildcard is read if its bounds are. -/
theorem reads_wildcard {s : Ty} (hs : s.Legible) (hwild : s.isWildcard = true)
    (hparts : ∀ part ∈ s.parts, part.Reads) : s.Reads where
  element h := by rw [hwild] at h; cases h
  whole := by
    intro t rest rest' ht hrest hrest' h
    cases hwild' : t.isWildcard with
    | false =>
        obtain ⟨text, htext⟩ := letters_question hwild
        rw [htext] at h
        exact absurd h.symm (ht.not_question hwild' hrest' _)
    | true =>
        -- what follows a type is no blank, which would start a bound
        have hstop {rest text : List Char} (hrest : AfterType rest) : rest ≠ ' ' :: text := by
          rintro rfl
          have hmark := hrest _ rfl
          simp at hmark
        obtain ⟨upper, lower, rfl, htop⟩ | ⟨upper, rfl, htop⟩ | ⟨upper, rfl, htop⟩ :=
          hs.wildcard_shape hwild <;>
        obtain ⟨upper', lower', rfl, htop'⟩ | ⟨upper', rfl, htop'⟩ | ⟨upper', rfl, htop'⟩ :=
          ht.wildcard_shape hwild'
        · -- both have lower bounds
          rw [letters_super, letters_super, List.append_assoc, List.append_assoc] at h
          have hlower : lower ∈ (Ty.wildcard upper (some lower)).parts :=
            List.mem_cons_of_mem _ (List.mem_singleton.2 rfl)
          have hlower' : lower'.Legible :=
            ht.part (List.mem_cons_of_mem _ (List.mem_singleton.2 rfl))
          obtain ⟨heq, hrests⟩ :=
            (hparts lower hlower).whole hlower' hrest hrest' (List.append_cancel_left h)
          rw [wildcard_beq_wildcard, Bool.and_eq_true]
          exact ⟨⟨BEq.trans (BEq.symm (top_beq htop)) (top_beq htop'), heq⟩, hrests⟩
        · rw [letters_super, letters_unbounded htop'] at h
          exact absurd (List.cons.inj h).2.symm (hstop hrest')
        · rw [letters_super, letters_extends htop'] at h
          cases (List.cons.inj (List.cons.inj (List.cons.inj h).2).2).1
        · rw [letters_unbounded htop, letters_super] at h
          exact absurd (List.cons.inj h).2 (hstop hrest)
        · -- neither has a proper bound
          rw [letters_unbounded htop, letters_unbounded htop'] at h
          rw [wildcard_beq_wildcard, Bool.and_eq_true]
          exact ⟨⟨BEq.trans (BEq.symm (top_beq htop)) (top_beq htop'), rfl⟩, (List.cons.inj h).2⟩
        · rw [letters_unbounded htop, letters_extends htop'] at h
          exact absurd (List.cons.inj h).2 (hstop hrest)
        · rw [letters_extends htop, letters_super] at h
          cases (List.cons.inj (List.cons.inj (List.cons.inj h).2).2).1
        · rw [letters_extends htop, letters_unbounded htop'] at h
          exact absurd (List.cons.inj h).2.symm (hstop hrest')
        · -- both have upper bounds
          rw [letters_extends htop, letters_extends htop', List.append_assoc,
            List.append_assoc] at h
          obtain ⟨heq, hrests⟩ := (hparts upper List.mem_cons_self).whole
            (ht.part List.mem_cons_self) hrest hrest' (List.append_cancel_left h)
          rw [wildcard_beq_wildcard, Bool.and_eq_true]
          exact ⟨⟨heq, rfl⟩, hrests⟩

/-- Every legible type is read off its text. -/
theorem reads_of_legible {s : Ty} (hs : s.Legible) : s.Reads := by
  induction s using parts_induction with
  | step s ih =>
      have hparts (part : Ty) (hpart : part ∈ s.parts) : part.Reads := ih part hpart (hs.part hpart)
      cases hwild : s.isWildcard with
      | true => exact reads_wildcard hs hwild hparts
      | false =>
          refine reads_of_element hs hwild fun {t rest rest'} ht hwild' hrest hrest' h => ?_
          cases s with
          | array component =>
              -- the brackets of the array follow its component
              have hpart : component ∈ (Ty.array component).parts := List.mem_singleton.2 rfl
              have hbehind : AfterElement (['[', ']'] ++ rest) :=
                afterElement_brackets 1 hrest
              rw [letters_array, List.append_assoc] at h
              obtain ⟨heq, hbrackets⟩ :=
                (hparts component hpart).element hs.self ht hwild' hbehind hrest' h
              refine ⟨heq, ?_⟩
              rw [dimensions, ← brackets_append, List.append_assoc]
              exact hbrackets
          | named | applied | var =>
              rw [t.letters_element, List.append_assoc] at h
              exact Stem.read (hs.stem hwild) (ht.stem hwild') hparts hrest
                (afterElement_brackets t.dimensions hrest') h
          | wildcard => cases hwild

/-- Texts are exactly as fine as equality: equal types have the same text, and legible types with
the same text are equal. -/
theorem display_faithful (s t : Ty) : ((s == t) = true → s.display = t.display) ∧
    (s.Legible → t.Legible → s.display = t.display → (s == t) = true) := by
  refine ⟨display_congr, fun hs ht h => ?_⟩
  have hend : AfterType [] := fun c hc => by cases hc
  have hletters : s.letters ++ [] = t.letters ++ [] := by rw [letters, letters, h]
  exact ((reads_of_legible hs).whole ht hend hend hletters).1

-- an array of wildcards and a wildcard for arrays have one text
example : (Ty.array (.wildcard (.array .top) none)).display =
      (Ty.wildcard (.array (.array .top)) none).display ∧
    (Ty.array (.wildcard (.array .top) none) == .wildcard (.array (.array .top)) none) = false :=
  ⟨rfl, rfl⟩

section Maps

/-- A map with a variable under an upper bound, a number above a lower bound, and no bound. -/
def mapping (arity : Nat) (cell : CellId) (top : Named) : Ty :=
  .applied none ⟨⟨"Map", .interfaceType, arity⟩, rfl⟩
    [.wildcard (.array (.var ⟨"T", "Box", .owning cell⟩)) none,
      .wildcard (.named top) (some (.array (.array (.named ⟨"int", .primitiveType, 0⟩)))),
      .wildcard (.named top) none]

/-- Maps that differ in arities, cells and the kind of the universal supertype have one text, and
this text is that of no other legible type. -/
theorem mapping_texts :
    (mapping 3 0 .top).Legible ∧ (mapping 0 7 ⟨Named.topName, .interfaceType, 1⟩).Legible ∧
    (mapping 3 0 .top == mapping 0 7 ⟨Named.topName, .interfaceType, 1⟩) = true ∧
    (mapping 0 7 ⟨Named.topName, .interfaceType, 1⟩).display =
      "Map<? extends T@Box[], ? super int[][], ?>" ∧
    ∀ t : Ty, t.Legible → t.display = "Map<? extends T@Box[], ? super int[][], ?>" →
      (mapping 3 0 .top == t) = true := by
  have hlegible (arity : Nat) (cell : CellId) (top : Named) (htop : top.name = Named.topName) :
      (mapping arity cell top).Legible := by
    have hnamed {head : Named} (h : Unmarked head.name) : (Ty.named head).Legible :=
      .intro h (List.forall_mem_nil _)
    have harray {component : Ty} (h : component.Legible) (hwild : component.isWildcard = false) :
        (Ty.array component).Legible := .intro hwild (List.forall_mem_singleton.2 h)
    have hvar : (Ty.var ⟨"T", "Box", .owning cell⟩).Legible :=
      .intro ⟨show Unmarked "T" by decide, show Unmarked "Box" by decide⟩ (List.forall_mem_nil _)
    have hbound : (Ty.named top).Legible := hnamed (by rw [htop]; decide)
    have hlower : (Ty.array (.array (.named ⟨"int", .primitiveType, 0⟩))).Legible :=
      harray (harray (hnamed (by decide)) rfl) rfl
    have hmap : Unmarked "Map" := by decide
    refine .intro ⟨rfl, List.cons_ne_nil _ _, hmap⟩ (List.forall_mem_cons.2 ⟨?_,
      List.forall_mem_cons.2 ⟨?_, List.forall_mem_singleton.2 ?_⟩⟩)
    · exact .intro rfl (List.forall_mem_singleton.2 (harray hvar rfl))
    · refine .intro ⟨by rw [isTop, Named.isTop, htop, beq_self_eq_true], rfl⟩ ?_
      exact List.forall_mem_cons.2 ⟨hbound, List.forall_mem_singleton.2 hlower⟩
    · exact .intro rfl (List.forall_mem_singleton.2 hbound)
  have hfirst := hlegible 3 0 .top rfl
  have hsecond := hlegible 0 7 ⟨Named.topName, .interfaceType, 1⟩ rfl
  have htext : (mapping 3 0 .top).display = "Map<? extends T@Box[], ? super int[][], ?>" := rfl
  have hequal := (display_faithful _ _).2 hfirst hsecond rfl
  exact ⟨hfirst, hsecond, hequal, ((display_faithful _ _).1 hequal).symm.trans htext,
    fun t ht h => (display_faithful _ t).2 hfirst ht (htext.trans h.symm)⟩

end Maps

end Ty

end Nominal
