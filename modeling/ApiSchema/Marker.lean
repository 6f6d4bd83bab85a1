import ApiSchema.Entries
import ApiSchema.Name.Style
import ApiSchema.Value

/-!
Markers that declare fields and name styles on a class. A marker records its arguments, those that are
not given with their usual values, and does nothing else.
-/
namespace ApiSchema.Marker

inductive Target where
  | response
  | body
deriving DecidableEq, Repr

def Target.name : Target → String
  | .response => "response"
  | .body => "body"

/-- The parameters of a field marker with their usual values; the first one has none. -/
def fieldParameters : List (String × Option Value) := [
  ("name", none),
  ("type", some (.str "string")),
  ("format", some .null),
  ("required", some (.bool true)),
  ("nullable", some (.bool false)),
  ("example", some .null),
  ("description", some .null),
  ("deprecated", some (.bool false)),
  ("enum", some .null)]

def styleParameters : List (String × Option Value) := [("style", none)]

/-- The values of parameters: by position first, then by name, then the usual ones. -/
def bindFrom (kwargs : Entries Value) : List (String × Option Value) → List Value → Except Fault (Entries Value)
  | [], [] => .ok []
  | [], _ :: _ => .error .mismatch
  | (name, _) :: rest, v :: args =>
    if kwargs.has name then .error .mismatch
    else do return (name, v) :: (← bindFrom kwargs rest args)
  | (name, usual) :: rest, [] =>
    match (kwargs.get? name).or usual with
    | some v => do return (name, v) :: (← bindFrom kwargs rest [])
    | none => .error .mismatch

/-- The values of parameters; every argument has to be for one of them. -/
def bind (parameters : List (String × Option Value)) (args : List Value) (kwargs : Entries Value) :
    Except Fault (Entries Value) :=
  if kwargs.keys.all (parameters.map (·.1)).contains then bindFrom kwargs parameters args
  else .error .mismatch

inductive MarkerError where
  | fault (f : Fault)
  | unknownStyle (v : Value)

def styleNames : List String := [Name.Style.snake, .camel, .pascal, .kebab].map Name.Style.name

def MarkerError.message? : MarkerError → Option String
  | .fault _ => none
  | .unknownStyle v =>
    some ("Unknown name style " ++ v.literalText ++ "; expected one of " ++ Text.join ", " styleNames)

structure Record where
  fields : List (Target × Entries Value) := []
  style : Option String := none

def Record.declare (r : Record) (target : Target) (args : List Value) (kwargs : Entries Value) :
    Except MarkerError Record := do
  let field ← (bind fieldParameters args kwargs).mapError .fault
  return { r with fields := r.fields ++ [(target, field)] }

def Record.rename (r : Record) (args : List Value) (kwargs : Entries Value) : Except MarkerError Record := do
  match ← (bind styleParameters args kwargs).mapError .fault with
  | (_, .str s) :: _ =>
    if styleNames.contains s then return { r with style := some s } else throw (.unknownStyle (.str s))
  | (_, v) :: _ => throw (.unknownStyle v)
  | [] => return r

end ApiSchema.Marker
