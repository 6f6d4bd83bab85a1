import ApiSchema.Schema.Node

/-!
What rule names say about a field: those that give it a type, those that say nothing about its shape,
and those that require it under a condition.
-/
namespace ApiSchema.Rule

structure Effect where
  kind : Option Kind := none
  format : Option String := none
  pattern : Option String := none
  /-- A sentence, in which `params` in braces stands for the parameters. -/
  description : Option String := none

def typeRules : Entries Effect := [
  ("string", { kind := some .string }),
  ("integer", { kind := some .integer }),
  ("int", { kind := some .integer }),
  ("numeric", { kind := some .number }),
  ("decimal", { kind := some .number }),
  ("boolean", { kind := some .boolean }),
  ("bool", { kind := some .boolean }),
  ("accepted", { kind := some .boolean }),
  ("declined", { kind := some .boolean }),
  ("array", { kind := some .array }),
  ("list", { kind := some .array }),
  ("object", { kind := some .object }),
  ("json", { kind := some .object }),
  ("file", { kind := some .string, format := some "binary" }),
  ("image", { kind := some .string, format := some "binary", description := some "Must be an image." }),
  ("mimes", { kind := some .string, format := some "binary"
              description := some "Must be a file of type: \x7bparams\x7d." }),
  ("mimetypes", { kind := some .string, format := some "binary"
                  description := some "Must be a file with MIME type: \x7bparams\x7d." }),
  ("date", { kind := some .string, format := some "date" }),
  ("before", { kind := some .string, format := some "date"
               description := some "Must be a date before \x7bparams\x7d." }),
  ("after", { kind := some .string, format := some "date"
              description := some "Must be a date after \x7bparams\x7d." }),
  ("before_or_equal", { kind := some .string, format := some "date"
                        description := some "Must be a date before or equal to \x7bparams\x7d." }),
  ("after_or_equal", { kind := some .string, format := some "date"
                       description := some "Must be a date after or equal to \x7bparams\x7d." }),
  ("email", { kind := some .string, format := some "email" }),
  ("url", { kind := some .string, format := some "uri" }),
  ("active_url", { kind := some .string, format := some "uri" }),
  ("ip", { kind := some .string, format := some "ip" }),
  ("ipv4", { kind := some .string, format := some "ipv4" }),
  ("ipv6", { kind := some .string, format := some "ipv6" }),
  ("uuid", { kind := some .string, format := some "uuid" }),
  ("ulid", { kind := some .string, format := some "ulid" }),
  ("password", { kind := some .string, format := some "password"
                 description := some "Must be a valid password." }),
  ("current_password", { kind := some .string, format := some "password" }),
  ("alpha", { kind := some .string, pattern := some "^[a-zA-Z]+$" }),
  ("alpha_num", { kind := some .string, pattern := some "^[a-zA-Z0-9]+$" }),
  ("alpha_dash", { kind := some .string, pattern := some "^[a-zA-Z0-9_-]+$" }),
  ("hash_id", { kind := some .string, description := some "Must be a valid hash ID." }),
  ("hashid", { kind := some .string, description := some "Must be a valid hash ID." }),
  ("timezone", { kind := some .string }),
  ("mac_address", { kind := some .string }),
  ("lowercase", { kind := some .string }),
  ("uppercase", { kind := some .string })]

def conditionalRules : List String :=
  ["required_if", "required_unless", "required_with", "required_with_all", "required_without",
    "required_without_all"]

/-- The effects of the rules that have one. All other names say nothing about the shape. -/
structure Table where
  types : Entries Effect := typeRules

def Table.extend (t : Table) (types : Entries Effect) : Table :=
  { t with types := t.types.setAll types }

def conditionText (kind : String) (params : List String) : String :=
  let fields := Text.join ", " params
  match kind, params with
  | "required_if", p :: q :: rest => "Required when " ++ p ++ " is " ++ Text.join ", " (q :: rest) ++ "."
  | "required_unless", p :: q :: rest =>
    "Required unless " ++ p ++ " is " ++ Text.join ", " (q :: rest) ++ "."
  | "required_with", _ => "Required when any of these fields are present: " ++ fields ++ "."
  | "required_with_all", _ => "Required when all of these fields are present: " ++ fields ++ "."
  | "required_without", _ => "Required when any of these fields are missing: " ++ fields ++ "."
  | "required_without_all", _ => "Required when all of these fields are missing: " ++ fields ++ "."
  | _, _ => "Conditionally required (" ++ kind ++ ")."

end ApiSchema.Rule
