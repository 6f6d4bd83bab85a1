import ApiSchema.Name.Snake
import ApiSchema.Schema.Draft

/-!
What names tell about data: the fields, the calls and the handlers of an interface are mapped to
likely shapes by ordered tables, in which the first rule that fits counts.
-/
namespace ApiSchema.Name

open Text

/-- A rule for field names, compared in snake case: a name that is listed, or that starts or ends in
one of some ways, has a kind. -/
structure FieldRule where
  kind : Kind
  format : Option String := none
  exact : List String := []
  starts : List String := []
  ends : List String := []

def FieldRule.fits (r : FieldRule) (name : String) : Bool :=
  let snake := toSnake name
  r.exact.contains snake || r.starts.any (startsWith snake) || r.ends.any (endsWith snake)

/-- A rule for what is called: names are compared with the whole and with its last part, the other
two with the last part only. -/
structure HelperRule where
  kind : Kind
  format : Option String := none
  names : List String := []
  starts : List String := []
  ends : List String := []

def HelperRule.fits (r : HelperRule) (callee : String) : Bool :=
  let base := lastSegment callee
  r.names.contains callee || r.names.contains base || r.starts.any (startsWith base) ||
    r.ends.any (endsWith base)

structure HandlerRule where
  verbs : List String
  node : Node

def HandlerRule.fits (r : HandlerRule) (name : String) : Bool :=
  let snake := toSnake name
  r.verbs.any fun v => snake == v || startsWith snake (v ++ "_")

/-! ## Tables -/

def fieldRules : List FieldRule := [
  { kind := .integer, exact := ["id"], ends := ["_id"] },
  { kind := .string, format := some "date-time", ends := ["_at"] },
  { kind := .string, format := some "date", exact := ["date"], ends := ["_date"] },
  { kind := .string, format := some "email", exact := ["email"], ends := ["_email"] },
  { kind := .string, format := some "uuid", exact := ["uuid"], ends := ["_uuid"] },
  { kind := .string, format := some "uri", exact := ["url", "uri", "link"], ends := ["_url", "_uri"] },
  { kind := .string, format := some "password", exact := ["password"], ends := ["_password"] },
  { kind := .boolean, starts := ["is_", "has_", "can_", "should_"] },
  { kind := .number, format := some "double"
    exact := ["price", "amount", "total", "balance", "cost"]
    ends := ["_price", "_amount", "_total"] },
  { kind := .integer, exact := ["count", "quantity", "age", "position", "order"]
    ends := ["_count"] }]

def helperRules : List HelperRule := [
  { kind := .string, format := some "date-time"
    names := ["isoformat", "to_iso", "to_iso_string", "to_datetime_string"] },
  { kind := .string, format := some "date", names := ["to_date_string", "date_string"] },
  { kind := .string
    names := ["strftime", "format", "str", "upper", "lower", "strip", "title", "join"] },
  { kind := .string, names := ["json.dumps", "dumps"] },
  { kind := .integer, names := ["len", "count", "int", "sum"], ends := ["_count"] },
  { kind := .number, names := ["float", "round", "Decimal", "avg", "mean", "timestamp"] },
  { kind := .boolean, names := ["bool", "exists", "any", "all"], starts := ["is_", "has_"] },
  { kind := .array
    names := ["list", "sorted", "to_list", "tolist", "values_list", "split", "keys"] },
  { kind := .object
    names := ["dict", "to_dict", "as_dict", "model_dump", "json.loads", "loads"] }]

def record : Node :=
  Node.objectOf [
    ("id", Node.integer { required := true }),
    ("created_at", Node.formatted "date-time"),
    ("updated_at", Node.formatted "date-time")]

def message : Node := Node.objectOf [("message", Node.string { required := true })]

def handlerRules : List HandlerRule := [
  { verbs := ["list", "index", "search", "all"], node := Node.arrayOf record },
  { verbs := ["show", "get", "retrieve", "read", "create", "store", "update", "patch"]
    node := record },
  { verbs := ["delete", "destroy", "remove"], node := message }]

structure Rules where
  fields : List FieldRule := fieldRules
  helpers : List HelperRule := helperRules
  handlers : List HandlerRule := handlerRules

namespace Rules

def fieldRule? (r : Rules) (name : String) : Option FieldRule := r.fields.find? (·.fits name)

def fieldDraft (r : Rules) (name : String) : Draft :=
  match r.fieldRule? name with
  | some rule => Draft.ofKind rule.kind (rule.format.map .str)
  | none => Draft.ofKind .string none

def field (r : Rules) (name : String) (change : Facets → Facets := id) : Except DraftError Node :=
  let d := r.fieldDraft name
  Draft.build { d with facets := change d.facets }

def helperRule? (r : Rules) (callee : String) : Option HelperRule := r.helpers.find? (·.fits callee)

def helper? (r : Rules) (callee : String) : Except DraftError (Option Node) :=
  match r.helperRule? callee with
  | some rule => (Draft.build (Draft.ofKind rule.kind (rule.format.map .str))).map some
  | none => .ok none

/-- The usual answer of a handler: an empty object when no rule fits. -/
def handler (r : Rules) (name : String) : Node :=
  match r.handlers.find? (·.fits name) with
  | some rule => rule.node
  | none => Node.objectOf []

end Rules
end ApiSchema.Name
