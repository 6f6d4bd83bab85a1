import ApiSchema.Name.Rules
import ApiSchema.Source.Definition
import ApiSchema.TypeExpr.Read
import ApiSchema.TypeExpr.Schema

/-!
Fields that a handler reads from its request. An element that is taken by its key is required, and one
that is asked for is optional; of two reads of one key the first counts.
-/
namespace ApiSchema.Infer

open Source Text

def requestParts : List String :=
  ["json", "form", "args", "data", "values", "POST", "GET", "FILES", "files", "query_params", "query",
    "get_json()", "json()"]

def requestHolders : List String :=
  ["request", "req", "self.request", "self.req"].flatMap fun r => r :: requestParts.map ((r ++ ".") ++ ·)

/-- Whether a text holds the fields of a request; one line end after it does not matter. -/
def isRequestHolder (holder : String) : Bool :=
  requestHolders.contains holder ||
    (endsWith holder "\n" && requestHolders.contains (take (holder.length - 1) holder))

def accessorMethods : List String := ["get", "input", "getlist", "get_list"]

def accessedNode (names : Name.Rules) (key holder : String) (required : Bool) : Attempt Node :=
  if endsWith holder "files" || endsWith holder "FILES" then
    return Node.string { format := some (.str "binary"), required }
  else (names.field (lastSegment key) fun f => { f with required } : Except DraftError Node)

def nodeOfDefault : Value → Option Node
  | .bool _ => some Node.boolean
  | .int _ => some Node.integer
  | .float _ => some Node.number
  | .str _ => some Node.string
  | .list _ | .tuple _ => some (Node.arrayOf Node.string)
  | .dict _ => some (Node.objectOf [])
  | _ => none

def defaultNode (default : Option Source.Tree) : Attempt (Option Node) :=
  match default with
  | some t => do return nodeOfDefault (← (literalValue t : Except Fault Value))
  | none => return none

def readNode (names : Name.Rules) (types : TypeTables) (key holder method : String) (arguments : Arguments) :
    Attempt Node := do
  if method == "getlist" || method == "get_list" then
    return Node.arrayOf (← accessedNode names key holder false)
  match arguments.keywords.get? "type" with
  | some type =>
    return (← TypeExpr.schemaOf (m := Attempt) types none (TypeExpr.read? type.text)).withRequired false
  | none =>
    let default := (arguments.keywords.get? "default").or arguments.positional[1]?
    match ← defaultNode default with
    | some n => return n
    | none => accessedNode names key holder false

def withCall (names : Name.Rules) (types : TypeTables) (fields : Entries Node) (t : Source.Tree) :
    Attempt (Entries Node) := do
  let (head, method) := cutLast '.' (t.childText .function)
  let holder := head.getD ""
  if !accessorMethods.contains method || !isRequestHolder holder then return fields
  let arguments := argumentsOf t
  match arguments.positional.head?.bind stringValue? with
  | some key =>
    if fields.has key then return fields
    return fields.set key (← readNode names types key holder method arguments)
  | none => return fields

def withElement (names : Name.Rules) (fields : Entries Node) (t : Source.Tree) : Attempt (Entries Node) := do
  let holder := t.childText .value
  match (t.child? .subscript).bind stringValue? with
  | some key =>
    if isRequestHolder holder then return fields.setDefault key (← accessedNode names key holder true)
    return fields
  | none => return fields

def withPart (names : Name.Rules) (types : TypeTables) (fields : Entries Node) (t : Source.Tree) :
    Attempt (Entries Node) :=
  match t.form with
  | .call => withCall names types fields t
  | .subscript => withElement names fields t
  | _ => return fields

def requestFields (names : Name.Rules) (types : TypeTables) (body : Source.Tree) : Attempt (Entries Node) :=
  body.walkScope.foldlM (withPart names types) []

end ApiSchema.Infer
