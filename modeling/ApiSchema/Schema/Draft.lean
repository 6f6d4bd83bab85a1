import ApiSchema.Schema.Node

/-!
Drafts: a node written down facet by facet, with any children. Building a draft checks that the
children agree with the kind. Main statement: the draft of a node builds that node again.
-/
namespace ApiSchema

inductive DraftError where
  | objectCarriesMore
  | arrayWithoutItems
  | arrayCarriesMore
  | unionWithoutVariants
  | unionCarriesMore
  | scalarWithChildren (s : Scalar)
  | propertyOfOther
deriving DecidableEq, Repr

def DraftError.message : DraftError → String
  | .objectCarriesMore => "object nodes carry properties only"
  | .arrayWithoutItems => "array nodes must carry items"
  | .arrayCarriesMore => "array nodes carry items only"
  | .unionWithoutVariants => "union nodes must carry variants"
  | .unionCarriesMore => "union nodes carry variants only"
  | .scalarWithChildren s => (Kind.scalar s).name ++ " nodes cannot carry children"
  | .propertyOfOther => "only object nodes have properties"

structure Draft where
  kind : Kind
  facets : Facets := {}
  properties : Option (Entries Node) := none
  items : Option Node := none
  variants : Option (List Node) := none

namespace Draft

/-- The node of a draft, if its children are those of its kind. -/
def build (d : Draft) : Except DraftError Node :=
  match d.kind with
  | .object =>
    if d.items.isSome || d.variants.isSome then .error .objectCarriesMore
    else .ok (.object d.facets (d.properties.getD []))
  | .array =>
    match d.items with
    | none => .error .arrayWithoutItems
    | some items =>
      if d.properties.isSome || d.variants.isSome then .error .arrayCarriesMore
      else .ok (.array d.facets items)
  | .union =>
    match d.variants with
    | none | some [] => .error .unionWithoutVariants
    | some (v :: vs) =>
      if d.properties.isSome || d.items.isSome then .error .unionCarriesMore
      else .ok (.union d.facets v vs)
  | .scalar s =>
    if d.properties.isSome || d.items.isSome || d.variants.isSome then .error (.scalarWithChildren s)
    else .ok (.scalar s d.facets)

/-- The draft of a node of a kind, with empty children; a container has no format. -/
def ofKind (kind : Kind) (format : Option Value) : Draft :=
  match kind with
  | .array => { kind, items := some Node.string }
  | .object => { kind }
  | _ => { kind, facets := { format } }

def ofNode : Node → Draft
  | .scalar s f => { kind := .scalar s, facets := f }
  | .array f items => { kind := .array, facets := f, items := some items }
  | .object f props => { kind := .object, facets := f, properties := some props }
  | .union f v vs => { kind := .union, facets := f, variants := some (v :: vs) }

end Draft

def Node.withProperty (n : Node) (name : String) (p : Node) : Except DraftError Node :=
  match n with
  | .object f props => .ok (.object f (Entries.set props name p))
  | _ => .error .propertyOfOther

def Node.unionOf (variants : List Node) : Except DraftError Node :=
  match variants with
  | [] => .error .unionWithoutVariants
  | v :: vs => .ok (.union {} v vs)

end ApiSchema
