import ApiSchema.Field.Basic
import ApiSchema.Problem

/-!
Nodes of declared fields. The type comes from a lookup, and what is declared besides it is set on the
node that the lookup gives.
-/
namespace ApiSchema.Field

def Declared.constraintsFor (d : Declared) : Kind → Constraints
  | .scalar .integer
  | .scalar .number => { minimum := d.lower, maximum := d.upper, pattern := d.pattern.map .str }
  | .scalar .string => { minLength := d.minLength, maxLength := d.maxLength, pattern := d.pattern.map .str }
  | .array => { minItems := d.minLength, maxItems := d.maxLength }
  | _ => {}

/-- What a field declares, set over the facets of the node of its type. -/
def Declared.facetsOver (d : Declared) (kind : Kind) (f : Facets) : Facets :=
  let constraints := d.constraintsFor kind
  { f with
    format := if d.format.any (·.truthy) && kind.isScalar then d.format else f.format
    nullable := f.nullable || d.nullable
    required := d.required.getD f.required
    deprecated := f.deprecated || d.deprecated
    sample := d.sample <|> f.sample
    description := if d.isDescribed then d.description else f.description
    enumValues := if d.enumValues.any (!·.isEmpty) && kind.isScalar then d.enumValues else f.enumValues
    constraints := if constraints.isEmpty then f.constraints
      else some ((f.constraints.getD {}).merged constraints) }

section

variable {m : Type → Type} [Monad m] [MonadLiftT Attempt m]

/-- The node of the type of a field; `typeNode` looks up a type by its text and the module in which it
is written. -/
def Declared.typeNode (d : Declared) (typeNode : String → Option String → m Node) : m Node :=
  match d.kind, d.typeText.filter (!·.isEmpty) with
  | some kind, _ =>
    let built : Attempt Node := ((Draft.ofKind kind d.format).build : Except DraftError Node)
    liftM built
  | none, some text => typeNode text d.scope
  | none, none => return Node.string

def Declared.node (d : Declared) (typeNode : String → Option String → m Node) : m Node := do
  let n ← d.typeNode typeNode
  return n.mapFacets (d.facetsOver n.kind)

def propertiesOf (typeNode : String → Option String → m Node) (fields : List Declared) : m (Entries Node) :=
  fields.foldlM (fun (acc : Entries Node) d => do return acc.set d.outputName (← d.node typeNode)) []

end

end ApiSchema.Field
