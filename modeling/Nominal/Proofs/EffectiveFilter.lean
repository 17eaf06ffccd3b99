import Mathlib.Data.List.DropRight
import Nominal.Logging.Filter
import Nominal.Settings.Basic

/-!
# The sources of the effective filter

The effective filter comes from two texts, the configured level and the directives of the
environment. They are read as one text first, then one at a time, so it has to be known what the
directives of a joined text are: those of its parts (`directives?_append`). From this
`effective_combines` says for every dialect which directives count: those of both texts, or of the
one that can be read, or the level `info`.
-/

namespace Nominal

namespace Text

/-- Trimming takes nothing more from a trimmed text. -/
theorem trimChars_trimChars (chars : List Char) :
    trimChars (trimChars chars) = trimChars chars := by
  -- What is left begins as the text does without the blanks before it, that is with no blank.
  have hstart : (trimChars chars).dropWhile isBlank = trimChars chars := by
    refine List.dropWhile_eq_self_iff.2 fun hlength => ?_
    have hfirst := List.dropWhile_eq_self_iff.1 (List.dropWhile_idempotent isBlank chars)
    have hbegin := List.rdropWhile_prefix isBlank (chars.dropWhile isBlank)
    have hlength' := Nat.lt_of_lt_of_le hlength hbegin.length_le
    have hsame : (trimChars chars)[0] = (chars.dropWhile isBlank)[0] := hbegin.getElem hlength
    rw [hsame]
    exact hfirst hlength'
  show ((trimChars chars).dropWhile isBlank).rdropWhile isBlank = trimChars chars
  rw [hstart]
  exact List.rdropWhile_idempotent isBlank _

/-- Trimming twice is trimming once. -/
theorem trim_trim (text : String) : trim (trim text) = trim text := by
  simp [trim, trimChars_trimChars]

end Text

/-! ## Configured levels -/

/-- Blanks at the ends of a level do not matter. -/
theorem normalizeLevel_trim (text : String) :
    normalizeLevel (Text.trim text) = normalizeLevel text := by
  simp [normalizeLevel, Text.trim_trim]

/-- A level is normalized to the name of a level or to itself without the blanks at its ends. -/
theorem normalizeLevel_cases (text : String) :
    normalizeLevel text ∈ LogLevel.all.map LogLevel.name ∨
      normalizeLevel text = Text.trim text := by
  unfold normalizeLevel
  by_cases hblank : (Text.trim text).isEmpty = true
  · simp only [hblank, if_true]
    exact .inl (by decide)
  · simp only [hblank, Bool.false_eq_true, if_false]
    split
    case h_8 => exact .inr rfl
    all_goals exact .inl (by decide)

/-- The names of levels are normal. -/
theorem normalizeLevel_name (level : LogLevel) : normalizeLevel level.name = level.name := by
  cases level <;> rfl

/-- A normalized level is normal. -/
theorem normalizeLevel_normalizeLevel (text : String) :
    normalizeLevel (normalizeLevel text) = normalizeLevel text := by
  rcases normalizeLevel_cases text with hname | htrim
  · obtain ⟨level, _, hlevel⟩ := List.mem_map.1 hname
    rw [← hlevel, normalizeLevel_name]
  · rw [htrim, normalizeLevel_trim, htrim]

/-! ## Joined texts -/

namespace Dialect

variable {δ φ : Type} (dialect : Dialect δ φ)

/-- The directives of two texts with a comma between them are those of the one and then those of the
other, and both have to be readable. -/
theorem directives?_append (first second : List Char) :
    dialect.directives? (first ++ ',' :: second) = do
      let before ← dialect.directives? first
      let after ← dialect.directives? second
      return before ++ after := by
  rw [directives?, Text.parts_append, List.filter_append, List.mapM_append]
  rfl

/-- The directives of a configured level, where all of them can be read. -/
def configured? (level : String) : Option (List δ) :=
  dialect.directives? (normalizeLevel level).toList

/-- The directives of the environment, where it has a text that is not blank and all of them can be
read. -/
def given? : Option String → Option (List δ)
  | none => none
  | some text =>
      if Text.trim text = "" then none else dialect.directives? (Text.trim text).toList

/-- The directives of both sources. A source that cannot be read is left out, and where none can be
read the level is `info`. -/
def combined : Option (List δ) → Option (List δ) → List δ
  | some configured, some given => configured ++ given
  | none, some given => given
  | some configured, none => configured
  | none, none => [dialect.info]

/-- A level by itself stands for its directives, or for `info`. -/
theorem ofLevel_eq (level : String) :
    dialect.ofLevel level =
      dialect.collect (dialect.combined (dialect.configured? level) none) := by
  show ((dialect.configured? level).map dialect.collect).getD _ = _
  cases dialect.configured? level with
  | none => rfl
  | some configured => rfl

/-- A blank text in the environment is no text. -/
theorem effective_blank (level : String) {text : String} (hblank : Text.trim text = "") :
    dialect.effective level (some text) = dialect.ofLevel level := by
  unfold effective
  rw [Option.map_some, hblank]
  rfl

/-- With a text in the environment there are three attempts. -/
theorem effective_text (level : String) {text : String} (htext : Text.trim text ≠ "") :
    dialect.effective level (some text) =
      ((dialect.parse? (normalizeLevel level ++ "," ++ Text.trim text)).or
        (dialect.parse? (Text.trim text))).getD (dialect.ofLevel level) := by
  have hfilter : (some (Text.trim text)).filter (fun text => !text.isEmpty) =
      some (Text.trim text) := by
    rw [Option.filter_eq_some_iff]
    simpa [String.isEmpty_iff] using htext
  unfold effective
  rw [Option.map_some, hfilter]

/-- The effective filter is that of the combined directives. -/
theorem effective_eq (level : String) (environment : Option String) :
    dialect.effective level environment =
      dialect.collect
        (dialect.combined (dialect.configured? level) (dialect.given? environment)) := by
  cases environment with
  | none => exact dialect.ofLevel_eq level
  | some text =>
      by_cases hblank : Text.trim text = ""
      · have hgiven : dialect.given? (some text) = none := by rw [given?, if_pos hblank]
        rw [hgiven, ← ofLevel_eq, dialect.effective_blank level hblank]
      · have hgiven :
            dialect.given? (some text) = dialect.directives? (Text.trim text).toList := by
          rw [given?, if_neg hblank]
        have hparse : dialect.parse? (Text.trim text) =
            (dialect.given? (some text)).map dialect.collect := by
          rw [hgiven, parse?]
        have hjoined : dialect.parse? (normalizeLevel level ++ "," ++ Text.trim text) =
            (do
              let before ← dialect.configured? level
              let after ← dialect.given? (some text)
              return before ++ after).map dialect.collect := by
          rw [hgiven, configured?, ← directives?_append, parse?]
          simp [String.toList_append]
        rw [dialect.effective_text level hblank, hjoined, hparse, ofLevel_eq]
        cases dialect.configured? level with
        | none => cases dialect.given? (some text) <;> rfl
        | some configured => cases dialect.given? (some text) <;> rfl

/-- A blank level can be read, as `info`. -/
theorem configured?_blank {level : String} (hblank : (Text.trim level).isEmpty = true) :
    dialect.configured? level = some [dialect.info] := by
  have hinfo : normalizeLevel level = "info" := by
    simp only [normalizeLevel, hblank, if_true]
  have hparts : (Text.parts ',' "info".toList).filter (fun part => !part.isEmpty) =
      ["info".toList] := by decide
  rw [configured?, hinfo, directives?, hparts, List.mapM_cons, dialect.read_info]
  rfl

end Dialect

variable {δ φ : Type} (dialect : Dialect δ φ)

/-- There is a warning about the level exactly when it cannot be read. -/
theorem Settings.levelInvalid_mem_warnings (settings : Settings) (value normalized : String) :
    .levelInvalid value normalized ∈ settings.warnings dialect ↔
      value = settings.logging.level ∧ normalized = normalizeLevel settings.logging.level ∧
        dialect.configured? settings.logging.level = none := by
  have hvariance : .levelInvalid value normalized ∉
      if settings.assignability.variance = .invariant then
        [Settings.Warning.invariantVariance "assignability.variance"] else [] := by
    split <;> simp
  have hparse : (dialect.parse? (normalizeLevel settings.logging.level)).isNone =
      (dialect.configured? settings.logging.level).isNone := Option.isNone_map
  unfold Settings.warnings
  simp only [hparse]
  by_cases hnone : dialect.configured? settings.logging.level = none
  · have htext : (Text.trim settings.logging.level).isEmpty = false := by
      refine Bool.eq_false_iff.2 fun hblank => ?_
      rw [dialect.configured?_blank hblank] at hnone
      cases hnone
    simp [hnone, htext, hvariance]
  · have hsome : (dialect.configured? settings.logging.level).isNone = false :=
      Bool.eq_false_iff.2 fun hisNone => hnone (Option.isNone_iff_eq_none.1 hisNone)
    simp [hnone, hsome, hvariance]

/-- The effective filter loses no readable setting. It is that of the directives of the configured
level followed by those of the environment, where each source counts if it can be read and `info`
stands for both if neither can. Normalizing a level again changes nothing, and there is a warning
about it exactly when it cannot be read. -/
theorem effective_combines (settings : Settings) (environment : Option String) :
    dialect.effective settings.logging.level environment =
      dialect.collect (dialect.combined (dialect.configured? settings.logging.level)
        (dialect.given? environment)) ∧
    normalizeLevel (normalizeLevel settings.logging.level) =
      normalizeLevel settings.logging.level ∧
    ∀ value normalized, .levelInvalid value normalized ∈ settings.warnings dialect ↔
      value = settings.logging.level ∧ normalized = normalizeLevel settings.logging.level ∧
        dialect.configured? settings.logging.level = none :=
  ⟨dialect.effective_eq settings.logging.level environment, normalizeLevel_normalizeLevel _,
    settings.levelInvalid_mem_warnings dialect⟩

/-- In the dialect of targets the later one of two directives for one target stays, and so does the
later level. -/
example : Dialect.targets.effective "lattice=,info" (some " lattice=off,4 ") =
    [⟨some "lattice", .off⟩, ⟨none, .debug⟩] := by decide

end Nominal
