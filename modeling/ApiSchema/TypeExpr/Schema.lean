import ApiSchema.Problem
import ApiSchema.TypeExpr.Basic

/-!
Schemas of types. Primitive types, collections and mappings are known by tables; any other name is
handed to a resolver, which may know a schema for it.
-/
namespace ApiSchema

open Text

/-! ## Tables -/

def primitiveTypes : Entries (Kind × Option String) := [
  ("str", .string, none),
  ("StrictStr", .string, none),
  ("constr", .string, none),
  ("int", .integer, none),
  ("StrictInt", .integer, none),
  ("PositiveInt", .integer, none),
  ("NegativeInt", .integer, none),
  ("NonNegativeInt", .integer, none),
  ("conint", .integer, none),
  ("float", .number, some "float"),
  ("StrictFloat", .number, some "float"),
  ("PositiveFloat", .number, some "float"),
  ("confloat", .number, some "float"),
  ("Decimal", .number, none),
  ("condecimal", .number, none),
  ("bool", .boolean, none),
  ("StrictBool", .boolean, none),
  ("bytes", .string, some "binary"),
  ("datetime", .string, some "date-time"),
  ("AwareDatetime", .string, some "date-time"),
  ("NaiveDatetime", .string, some "date-time"),
  ("date", .string, some "date"),
  ("time", .string, some "time"),
  ("timedelta", .string, some "duration"),
  ("UUID", .string, some "uuid"),
  ("UUID1", .string, some "uuid"),
  ("UUID4", .string, some "uuid"),
  ("EmailStr", .string, some "email"),
  ("NameEmail", .string, some "email"),
  ("AnyUrl", .string, some "uri"),
  ("AnyHttpUrl", .string, some "uri"),
  ("HttpUrl", .string, some "uri"),
  ("SecretStr", .string, some "password"),
  ("IPv4Address", .string, some "ipv4"),
  ("IPv6Address", .string, some "ipv6"),
  ("IPvAnyAddress", .string, some "ip"),
  ("UploadFile", .string, some "binary"),
  ("FileStorage", .string, some "binary"),
  ("Path", .string, none)]

def collectionTypes : List String :=
  ["list", "List", "Sequence", "MutableSequence", "Iterable", "Iterator", "Collection",
    "set", "Set", "frozenset", "FrozenSet", "AbstractSet", "tuple", "Tuple", "deque",
    "Generator", "AsyncIterator", "AsyncIterable", "Page", "QuerySet", TypeExpr.bracketName]

def mappingTypes : List String :=
  ["dict", "Dict", "Mapping", "MutableMapping", "DefaultDict", "OrderedDict", "TypedDict", "Json", "JSON"]

def uninformativeTypes : List String :=
  ["Any", "object", "None", "NoneType", "Response", "JSONResponse", "JsonResponse",
    "HttpResponse", "ORJSONResponse", "StreamingResponse", "ResponseReturnValue",
    "dict", "Dict", "Mapping", TypeExpr.metadataName, TypeExpr.ellipsisName]

structure TypeTables where
  primitives : Entries (Kind × Option String) := primitiveTypes
  collections : List String := collectionTypes
  mappings : List String := mappingTypes

namespace TypeExpr

def isEllipsis (e : TypeExpr) : Bool := e.name == ellipsisName

def isUninformative (base : String) : Bool := uninformativeTypes.contains base

/-! ## Informative types -/

/-- Whether a type that wraps nothing says something about the data; `element` and `all` tell that of
its first argument and of all of them. -/
def informativeHead (t : TypeTables) (name : String) (args : List TypeExpr) (element all : Bool) : Bool :=
  let base := lastSegment name
  let isMapping := t.mappings.contains base
  if isUninformative base && !(isMapping && !args.isEmpty) then false
  else if isMapping then args.getLast?.any fun v => !isUninformative v.baseName
  else if t.collections.contains base then element
  else if base == "Union" && 1 < args.length then all
  else true

mutual

def isInformative (t : TypeTables) : TypeExpr → Bool
  | .mk name args _ =>
    match wrapping name args.length with
    | .through i => informativeAt t i args
    | .optional => informativeAt t 0 args
    | .union =>
      match members args with
      | [] => false
      | [_] => informativeMember t args
      | ms => informativeHead t "Union" ms (informativeElement t true args) (informativeMembers t args)
    | .plain => informativeHead t name args (informativeElement t false args) false

def informativeAt (t : TypeTables) : Nat → List TypeExpr → Bool
  | _, [] => false
  | 0, e :: _ => isInformative t e
  | n + 1, _ :: rest => informativeAt t n rest

def informativeMember (t : TypeTables) : List TypeExpr → Bool
  | [] => false
  | e :: rest => if e.isNone then informativeMember t rest else isInformative t e

def informativeMembers (t : TypeTables) : List TypeExpr → Bool
  | [] => true
  | e :: rest => (e.isNone || isInformative t e) && informativeMembers t rest

/-- Of the first argument that is a type, with nothing left out or not. -/
def informativeElement (t : TypeTables) (skipNone : Bool) : List TypeExpr → Bool
  | [] => false
  | e :: rest =>
    if e.isEllipsis || (skipNone && e.isNone) then informativeElement t skipNone rest
    else isInformative t e

end

/-! ## Schemas -/

def kindOfValue : Option Value → Scalar
  | some (.bool _) => .boolean
  | some (.int _) => .integer
  | some (.float _) => .number
  | _ => .string

/-- The enumeration of some values, nothing among them left out. -/
def enumeration (values : List Value) : Node :=
  let present := values.filter (!·.isNull)
  .scalar (kindOfValue present.head?) {
    enumValues := some present
    nullable := present.length != values.length }

def nullableIf (b : Bool) (n : Node) : Node := if b then n.asNullable else n

section

variable {m : Type → Type} [Monad m] [MonadLiftT Attempt m]

abbrev Resolver (m : Type → Type) := Option (String → m (Option Node))

/-- The schema of a name that is neither a collection nor a mapping. -/
def namedSchema (t : TypeTables) (resolve : Resolver m) (name : String) : m Node := do
  let base := lastSegment name
  match t.primitives.get? base with
  | some (kind, format) =>
    let built : Attempt Node := liftM (Draft.ofKind kind (format.map .str)).build
    liftM built
  | none =>
    let resolved ← match resolve with
      | some f => f name
      | none => pure none
    match resolved with
    | some n => return n
    | none =>
      if ["Any", "object", metadataName, ellipsisName].contains base then return Node.string
      if startsUpper base then return .object { sourceType := some name } []
      return Node.string

mutual

def toSchema (t : TypeTables) (resolve : Resolver m) : TypeExpr → m Node
  | .mk name args values =>
    match wrapping name args.length with
    | .through i => schemaAt t resolve i args
    | .optional => do return (← schemaAt t resolve 0 args).asNullable
    | .union =>
      match members args with
      | [] => return Node.string { nullable := true }
      | [_] => do return nullableIf (args.length != 1) (← schemaMember t resolve args)
      | ms => do
        match ← schemaMembers t resolve args with
        | n :: ns => return nullableIf (ms.length != args.length) (.union {} n ns)
        | [] => return Node.string { nullable := true }
    | .plain =>
      let base := lastSegment name
      if (named name).isNone then return Node.string { nullable := true }
      else if base == "Literal" then return enumeration values
      else if t.collections.contains base then do
        return Node.arrayOf (← schemaElement t resolve args)
      else if t.mappings.contains base then return Node.objectOf []
      else namedSchema t resolve name

def schemaAt (t : TypeTables) (resolve : Resolver m) : Nat → List TypeExpr → m Node
  | _, [] => return Node.string
  | 0, e :: _ => toSchema t resolve e
  | n + 1, _ :: rest => schemaAt t resolve n rest

def schemaMember (t : TypeTables) (resolve : Resolver m) : List TypeExpr → m Node
  | [] => return Node.string
  | e :: rest => if e.isNone then schemaMember t resolve rest else toSchema t resolve e

def schemaMembers (t : TypeTables) (resolve : Resolver m) : List TypeExpr → m (List Node)
  | [] => return []
  | e :: rest =>
    if e.isNone then schemaMembers t resolve rest
    else do return (← toSchema t resolve e) :: (← schemaMembers t resolve rest)

/-- Of the first argument that is a type; a plain string when there is none. -/
def schemaElement (t : TypeTables) (resolve : Resolver m) : List TypeExpr → m Node
  | [] => return Node.string
  | e :: rest => if e.isEllipsis then schemaElement t resolve rest else toSchema t resolve e

end

/-- The schema of an annotation; a plain string when there is no type. -/
def schemaOf (t : TypeTables) (resolve : Resolver m) : Option TypeExpr → m Node
  | some e => toSchema t resolve e
  | none => return Node.string

end

end TypeExpr
end ApiSchema
