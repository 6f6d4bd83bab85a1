import ApiSchema.Field.Docstring
import ApiSchema.Name.Style
import ApiSchema.Source.Definition
import ApiSchema.TypeExpr.Read

/-!
The declared fields of a class or handler. Decorators count more than annotated declarations, and
those more than docstrings; a field that is declared twice keeps the declaration that counts more and
takes a missing description from the other. Classes are read along their chain of ancestors, nearest
first.
-/
namespace ApiSchema.Field

open Source Text

/-- A class of a chain with the name of the module that defines it. -/
structure Link where
  scope : String
  cls : Source.Class

/-! ## Values of arguments -/

/-- A literal; an expression and nothing are none. -/
def literal? : Value → Option Value
  | .null | .expr _ => none
  | v => some v

def option? (kwargs : Entries Value) (name : String) : Option Value := (kwargs.get? name).bind literal?

/-- Whether the value under a name counts as true; an expression does not. -/
def optionFlag (kwargs : Entries Value) (name : String) (default : Bool) : Bool :=
  if kwargs.has name then (option? kwargs name).any (·.truthy) else default

def optionText? (kwargs : Entries Value) (name : String) : Option String :=
  (option? kwargs name).bind Value.str?

def number? : Value → Option Value
  | .int n => some (.int n)
  | .float x => some (.float x)
  | _ => none

/-- A whole number; a truth value counts as one. -/
def whole? : Value → Option Value
  | .int n => some (.int n)
  | .bool b => some (.bool b)
  | _ => none

/-- The first value if it counts as true, else the second. -/
def orElse (a b : Option Value) : Option Value := (a.filter (·.truthy)).or b

def argument? (c : Call) (position : Nat) (name : String) : Option Value :=
  (c.kwargs.get? name).or c.args[position]?

/-! ## Decorators -/

def decoratorNames : Direction → List String
  | .output => ["response_field", "ResponseField"]
  | .input => ["body_param", "BodyParam"]

def typeText : Value → String
  | .expr t => t
  | v => v.text

def givenType (c : Call) : Value := (argument? c 1 "type").getD (.str "string")

/-- The field that a decorator declares under a literal name. -/
def ofDecorator? (scope : String) (c : Call) : Option Declared := do
  let name ← (argument? c 0 "name").bind Value.str?
  let type := typeText (givenType c)
  let kind := Kind.ofName? type
  return {
    name
    origin := .decorator
    typeText := if kind.isSome then none else some type
    kind
    format := option? c.kwargs "format"
    required := some (optionFlag c.kwargs "required" true)
    nullable := optionFlag c.kwargs "nullable" false
    deprecated := optionFlag c.kwargs "deprecated" false
    sample := option? c.kwargs "example"
    description := option? c.kwargs "description"
    enumValues := (option? c.kwargs "enum").bind Value.elements?
    scope := some scope }

def ofDecorators (direction : Direction) (scope : String) (decorators : List Call) : List Declared :=
  (decorators.filter fun c => (decoratorNames direction).contains c.baseName).filterMap (ofDecorator? scope)

/-- Whether a decorator declares a field with a type that cannot be written out. -/
def isUnspelled (direction : Direction) (c : Call) : Bool :=
  (decoratorNames direction).contains c.baseName && ((argument? c 0 "name").bind Value.str?).isSome &&
    !(givenType c).isSpelled

def checkTypes (direction : Direction) (decorators : List Call) : Except Fault Unit :=
  if decorators.any (isUnspelled direction) then .error .invalid else .ok ()

/-! ## Annotated declarations -/

def describingCalls : List String := ["Field", "field"]

def configurationNames : List String := ["model_config", "Config", "Meta"]

def aliasNames : Direction → List String
  | .output => ["serialization_alias", "alias"]
  | .input => ["validation_alias", "alias"]

def styledName? (style : Option String) (name : String) : Option String :=
  let styled := Name.restyle name style
  if styled == name then none else some styled

/-- The example of a field: the first of several, a single one, or one among extra entries. -/
def sampleOf (kwargs : Entries Value) : Option Value :=
  let listed := match (option? kwargs "examples").bind Value.elements? with
    | some (v :: _) => some v
    | _ => option? kwargs "example"
  match listed.filter (!·.isNull), option? kwargs "json_schema_extra" with
  | some v, _ => some v
  | none, some (.dict es) => (Value.lookup? es (.str "example")).filter (!·.isNull)
  | none, _ => none

def boundOf (kwargs : Entries Value) (first second : String) : Option Value :=
  (option? kwargs (if kwargs.has first then first else second)).bind number?

def ofTyped (direction : Direction) (style : Option String) (scope : String) (f : Source.Field) : Declared :=
  let kwargs := match f.call with
    | some c => if describingCalls.contains c.baseName then c.kwargs else []
    | none => []
  { name := f.name
    origin := .typed
    typeText := some f.typeText
    required := some (!f.hasDefault)
    deprecated := optionFlag kwargs "deprecated" false
    sample := sampleOf kwargs
    description := orElse (option? kwargs "description") (option? kwargs "title")
    otherName := ((aliasNames direction).findSome? (optionText? kwargs)).or (styledName? style f.name)
    lower := boundOf kwargs "ge" "gt"
    upper := boundOf kwargs "le" "lt"
    minLength := (option? kwargs "min_length").bind whole?
    maxLength := (option? kwargs "max_length").bind whole?
    pattern := (orElse (option? kwargs "pattern") (option? kwargs "regex")).bind Value.str?
    scope := some scope }

def isDataField (f : Source.Field) : Bool :=
  !f.name.startsWith "_" && !configurationNames.contains f.name &&
    !(TypeExpr.read? f.typeText).any (·.isClassVariable)

def ofClass (direction : Direction) (style : Option String) (l : Link) : List Declared :=
  (l.cls.fields.filter isDataField).map (ofTyped direction style l.scope)

/-! ## Name styles -/

def styleDecorators : List String := ["map_name", "MapName"]

def styleOfGenerator? (text : String) : Option String :=
  let lowered := lower text
  ([Name.Style.pascal, .camel, .kebab, .snake].find? (contains lowered ·.word)).map Name.Style.name

/-- The style that a class gives to its fields, by a decorator or by its configuration. -/
def styleOfClass? (c : Source.Class) : Except Fault (Option String) := do
  let named := (c.decorators.filter fun d => styleDecorators.contains d.baseName).findSome? fun d =>
    (argument? d 0 "style").bind Value.str?
  match named with
  | some style => return some style
  | none =>
    match (← c.assignedCall "model_config").bind (·.kwargs.get? "alias_generator") with
    | some (.expr text) => return styleOfGenerator? text
    | _ => return none

def styleOf : List Link → Except Fault (Option String)
  | [] => return none
  | l :: rest => do
    match ← styleOfClass? l.cls with
    | some style => return some style
    | none => styleOf rest

/-! ## Merging -/

/-- The fields with one more of a lower origin, or of the same; then `replaces` tells whether it takes
the place of the earlier one. -/
def withDeclared (replaces : Bool) (merged : Entries Declared) (d : Declared) : Entries Declared :=
  match merged.get? d.outputName with
  | none => merged.set d.outputName d
  | some current =>
    if current.origin == d.origin then
      if replaces then merged.set d.outputName d else merged
    else if !current.isDescribed && d.isDescribed then
      merged.set d.outputName { current with description := d.description }
    else merged

/-- The fields of all origins. Of two decorators or two docstring entries the first counts, of two
annotated declarations the last. -/
def merge (decorated typed documented : List Declared) : List Declared :=
  (documented.foldl (withDeclared false)
    (typed.foldl (withDeclared true)
      (decorated.foldl (withDeclared false) []))).values

def ofHandler (direction : Direction) (scope : String) (f : Function) : Except Fault (List Declared) := do
  checkTypes direction f.decorators
  return merge (ofDecorators direction scope f.decorators) [] []

def restyled (style : Option String) (d : Declared) : Declared := { d with name := Name.restyle d.name style }

/-- The declared fields of the nearest class of a chain. -/
def ofChain (direction : Direction) (chain : List Link) : Except Fault (List Declared) := do
  let style ← styleOf chain
  checkTypes direction (chain.flatMap (·.cls.decorators))
  let decorated := chain.flatMap fun l =>
    (ofDecorators direction l.scope l.cls.decorators).map (restyled style)
  let typed := chain.reverse.flatMap (ofClass direction style)
  let documented := chain.flatMap fun l =>
    (inDocstring (l.cls.docstring.getD "")).map fun d => { restyled style d with scope := some l.scope }
  return merge decorated typed documented

end ApiSchema.Field
