import ApiSchema.Entries
import ApiSchema.Value

/-!
Schema nodes: the inferred shape of a piece of data. The shape decides which children a node has, so
an array always has items, an object always has properties (maybe none) and a union always has a
variant. All other facets belong to every node alike.
-/
namespace ApiSchema

inductive Scalar where
  | string
  | integer
  | number
  | boolean
deriving DecidableEq, Repr, Inhabited

inductive Kind where
  | scalar (s : Scalar)
  | array
  | object
  | union
deriving DecidableEq, Repr, Inhabited

namespace Kind

def string : Kind := .scalar .string
def integer : Kind := .scalar .integer
def number : Kind := .scalar .number
def boolean : Kind := .scalar .boolean

def name : Kind → String
  | .scalar .string => "string"
  | .scalar .integer => "integer"
  | .scalar .number => "number"
  | .scalar .boolean => "boolean"
  | .array => "array"
  | .object => "object"
  | .union => "union"

def all : List Kind := [string, integer, number, boolean, .array, .object, .union]

def ofName? (name : String) : Option Kind := all.find? (·.name == name)

def isScalar : Kind → Bool
  | .scalar _ => true
  | _ => false

def isNumeric : Kind → Bool
  | .scalar .integer | .scalar .number => true
  | _ => false

theorem ofName?_name (k : Kind) : ofName? k.name = some k := by
  rcases k with (_ | _ | _ | _) | _ | _ | _ <;> decide

end Kind

/-- Bounds and pattern of a node; a bound that was written down may be any literal. -/
structure Constraints where
  minimum : Option Value := none
  maximum : Option Value := none
  minLength : Option Value := none
  maxLength : Option Value := none
  minItems : Option Value := none
  maxItems : Option Value := none
  pattern : Option Value := none
deriving Inhabited

namespace Constraints

def isEmpty (c : Constraints) : Bool :=
  c.minimum.isNone && c.maximum.isNone && c.minLength.isNone && c.maxLength.isNone &&
    c.minItems.isNone && c.maxItems.isNone && c.pattern.isNone

/-- Constraints in which every facet of the second wins that it has. -/
def merged (a b : Constraints) : Constraints where
  minimum := b.minimum <|> a.minimum
  maximum := b.maximum <|> a.maximum
  minLength := b.minLength <|> a.minLength
  maxLength := b.maxLength <|> a.maxLength
  minItems := b.minItems <|> a.minItems
  maxItems := b.maxItems <|> a.maxItems
  pattern := b.pattern <|> a.pattern

/-- The facets that are set, under the names of a schema document. -/
def entries (c : Constraints) : List (String × Value) :=
  [("minimum", c.minimum), ("maximum", c.maximum), ("minLength", c.minLength),
    ("maxLength", c.maxLength), ("minItems", c.minItems), ("maxItems", c.maxItems),
    ("pattern", c.pattern)].filterMap fun e => e.2.map (e.1, ·)

end Constraints

structure Requirement where
  kind : String
  fields : List String
  value : Option Value := none
  description : String := ""
deriving Inhabited

/-- Facets of a node that do not depend on its shape. -/
structure Facets where
  format : Option Value := none
  nullable : Bool := false
  required : Bool := false
  deprecated : Bool := false
  conditional : Bool := false
  enumValues : Option (List Value) := none
  sample : Option Value := none
  description : Option Value := none
  constraints : Option Constraints := none
  requirements : List Requirement := []
  sourceType : Option String := none
  circularRef : Option String := none
deriving Inhabited

inductive Node where
  | scalar (kind : Scalar) (facets : Facets)
  | array (facets : Facets) (items : Node)
  | object (facets : Facets) (properties : List (String × Node))
  | union (facets : Facets) (first : Node) (others : List Node)

namespace Node

def facets : Node → Facets
  | .scalar _ f | .array f _ | .object f _ | .union f _ _ => f

def kind : Node → Kind
  | .scalar s _ => .scalar s
  | .array _ _ => .array
  | .object _ _ => .object
  | .union _ _ _ => .union

def withFacets (n : Node) (f : Facets) : Node :=
  match n with
  | .scalar s _ => .scalar s f
  | .array _ items => .array f items
  | .object _ props => .object f props
  | .union _ v vs => .union f v vs

def mapFacets (n : Node) (g : Facets → Facets) : Node := n.withFacets (g n.facets)

@[simp]
theorem facets_withFacets (n : Node) (f : Facets) : (n.withFacets f).facets = f := by
  cases n <;> rfl

@[simp]
theorem kind_withFacets (n : Node) (f : Facets) : (n.withFacets f).kind = n.kind := by
  cases n <;> rfl

def properties : Node → Entries Node
  | .object _ props => props
  | _ => []

/-- The children: the properties in order, the items, or the variants in order. -/
def children : Node → List Node
  | .scalar _ _ => []
  | .array _ items => [items]
  | .object _ props => props.map (·.2)
  | .union _ v vs => v :: vs

/-! ## Building nodes -/

def string (f : Facets := {}) : Node := .scalar .string f
def integer (f : Facets := {}) : Node := .scalar .integer f
def number (f : Facets := {}) : Node := .scalar .number f
def boolean (f : Facets := {}) : Node := .scalar .boolean f

instance : Inhabited Node := ⟨string⟩

def formatted (format : String) : Node := string { format := some (.str format) }

def arrayOf (items : Node) : Node := .array {} items

def objectOf (props : Entries Node) : Node := .object {} props

/-- The placeholder of a type that is already being expanded. -/
def circular (typeName : String) : Node :=
  .object { description := some (.str ("circular reference to " ++ typeName)),
            sourceType := some typeName, circularRef := some typeName } []

/-- The placeholder of a type that lies too deep. -/
def depthLimited (typeName : String) : Node :=
  .object { description := some (.str ("maximum nesting depth reached at " ++ typeName)),
            sourceType := some typeName, circularRef := some typeName } []

def isPlaceholder (n : Node) : Bool := n.facets.circularRef.isSome

def nullable (n : Node) : Bool := n.facets.nullable

def asNullable (n : Node) : Node := n.mapFacets fun f => { f with nullable := true }

def withRequired (n : Node) (required : Bool) : Node := n.mapFacets fun f => { f with required }

def requiredNames (n : Node) : List String :=
  n.properties.filterMap fun e => if e.2.facets.required then some e.1 else none

/-- Whether a text stands in a description; only a text or a container can be searched. -/
def describedBy (description : Value) (text : String) : Except Fault Bool :=
  match description with
  | .str s => .ok (Text.contains s text)
  | .list xs | .tuple xs => .ok (xs.any (Value.same · (.str text)))
  | .dict es => .ok (es.any fun e => Value.same e.1 (.str text))
  | _ => .error .mismatch

/-- The node with a text added to its description, unless it is already there. -/
def addDescription (n : Node) (text : String) : Except Fault Node :=
  if text.isEmpty then .ok n
  else match n.facets.description with
    | some d =>
      if !d.truthy then .ok (n.mapFacets fun f => { f with description := some (.str text) })
      else do
        if ← describedBy d text then return n
        let described ← d.spell
        return n.mapFacets fun f => { f with description := some (.str (described ++ " " ++ text)) }
    | none => .ok (n.mapFacets fun f => { f with description := some (.str text) })

end Node
end ApiSchema
