import Nominal.Settings.Basic

/-!
# The schema of the settings

A JSON schema (draft 7) that describes settings files to editors. Defaults are those of the settings
themselves.
-/

namespace Nominal

/-- A JSON document without numbers. -/
inductive Document where
  | text (value : String)
  | flag (value : Bool)
  | list (items : List Document)
  | record (entries : List (String × Document))

namespace Settings.Schema

/-- An object with the given properties and no others. -/
def object (properties : List (String × Document)) : List (String × Document) :=
  [("type", .text "object"), ("additionalProperties", .flag false),
    ("properties", .record properties)]

/-- A property of a basic type. -/
def property (type description : String) (default : Document) : Document :=
  .record [("type", .text type), ("description", .text description), ("default", default)]

/-- A property whose type is a definition. -/
def reference (definition : String) (description : Option String) (default : Document) :
    Document :=
  .record
    ([("allOf", .list [.record [("$ref", .text ("#/definitions/" ++ definition))]]),
      ("default", default)] ++
      (description.map fun text => ("description", Document.text text)).toList)

/-- The name of the rules of comparison. -/
def varianceName : Variance → String
  | .invariant => "invariant"
  | .covariant => "covariant"

/-- The defaults of assignability queries as a document. -/
def assignability (options : AssignOptions) : Document :=
  .record [("variance", .text (varianceName options.variance)), ("boxing", .flag options.boxing)]

/-- How closures are kept, as a document. -/
def supertypes (memoize : Bool) : Document := .record [("cache_closures", .flag memoize)]

/-- How events are logged, as a document. -/
def logging (settings : LogSettings) : Document :=
  .record
    [("level", .text settings.level), ("json", .flag settings.json),
      ("stderr", .flag settings.stderr)]

/-- One of the rules of comparison. -/
def choice (variance : Variance) (description : String) : Document :=
  .record
    [("type", .text "string"), ("enum", .list [.text (varianceName variance)]),
      ("description", .text description)]

/-- The definitions that properties refer to. -/
def definitions (standard : Settings) : List (String × Document) :=
  [("AssignabilityConfig",
      .record (object
        [("variance",
            reference "Variance"
              (some ("Rule set for the top-level comparison. " ++
                "Type arguments are always compared invariantly."))
              (.text (varianceName standard.assignability.variance))),
          ("boxing",
            property "boolean"
              "Box primitive operands (`int` -> `java.lang.Integer`) before comparing them."
              (.flag standard.assignability.boxing))])),
    ("SupertypesConfig",
      .record (object
        [("cache_closures",
            property "boolean" "Memoize supertype closures per type."
              (.flag standard.memoize))])),
    ("LoggingConfig",
      .record (object
        [("level",
            property "string"
              ("Log level (`info`, `debug`, ...) or a full `EnvFilter` directive string such as " ++
                "`info,typelattice.assignable=debug`.")
              (.text standard.logging.level)),
          ("json", property "boolean" "Emit logs in JSON format." (.flag standard.logging.json)),
          ("stderr",
            property "boolean"
              "Write logs to stderr. When disabled, events are filtered but discarded."
              (.flag standard.logging.stderr))])),
    ("Variance",
      .record
        [("description", .text "Rule set used for the top-level comparison."),
          ("oneOf",
            .list
              [choice .invariant "Exact match, except through wildcards.",
                choice .covariant "Nominal subtyping with invariant type arguments."])])]

/-- The schema. -/
def document : Document :=
  let standard : Settings := {}
  .record
    ([("$schema", .text "http://json-schema.org/draft-07/schema#"),
      ("title", .text "typelattice configuration"),
      ("description",
        .text "Assignability defaults, supertype resolution and logging settings.")] ++
      object
        [("assignability",
            reference "AssignabilityConfig" (some "Defaults for top-level assignability queries.")
              (assignability standard.assignability)),
          ("supertypes",
            reference "SupertypesConfig" (some "Supertype resolution settings.")
              (supertypes standard.memoize)),
          ("logging", reference "LoggingConfig" none (logging standard.logging))] ++
      [("definitions", .record (definitions standard))])

end Settings.Schema

end Nominal
