import ApiSchema.Schema.Node

/-!
Schema documents: a node as nested dictionaries in the vocabulary of an API description. A facet
that says nothing is left out, and the keys stand in a fixed order.
-/
namespace ApiSchema

def Value.ofEntries (es : List (String × Value)) : Value :=
  .dict (es.map fun e => (.str e.1, e.2))

def Value.strings (xs : List String) : Value := .list (xs.map .str)

/-- A conditional requirement: one field with its value, or all fields. -/
def Requirement.document (r : Requirement) : Value :=
  let head := [("type", Value.str r.kind), ("description", .str r.description)]
  match r.fields, r.value with
  | [field], some value => .ofEntries (head ++ [("field", .str field), ("value", value)])
  | fields, _ => .ofEntries (head ++ [("fields", .strings fields)])

def entryIf (p : Bool) (key : String) (value : Value) : List (String × Value) :=
  if p then [(key, value)] else []

def entryOf (key : String) : Option Value → List (String × Value)
  | some v => entryIf v.truthy key v
  | none => []

def Facets.headEntries (f : Facets) : List (String × Value) :=
  entryOf "format" f.format ++ entryIf f.nullable "nullable" (.bool true) ++
    entryOf "description" f.description ++ entryIf f.deprecated "deprecated" (.bool true) ++
    (f.enumValues.map fun vs => ("enum", Value.list vs)).toList ++
    (f.constraints.map Constraints.entries).getD []

def Facets.tailEntries (f : Facets) : List (String × Value) :=
  (f.sample.map fun v => ("example", v)).toList ++
    entryIf f.conditional "x-conditional" (.bool true) ++
    entryIf (!f.requirements.isEmpty) "x-conditional-required"
      (.list (f.requirements.map Requirement.document))

mutual

def Node.document : Node → Value
  | .scalar s f =>
    .ofEntries ([("type", Value.str (Kind.scalar s).name)] ++ f.headEntries ++ f.tailEntries)
  | .array f items =>
    .ofEntries ([("type", Value.str Kind.array.name)] ++ f.headEntries ++
      [("items", items.document)] ++ f.tailEntries)
  | .object f props =>
    let required := (Node.object f props).requiredNames
    .ofEntries ([("type", Value.str Kind.object.name)] ++ f.headEntries ++
      [("properties", .dict (propertyDocuments props))] ++
      entryIf (!required.isEmpty) "required" (.strings required) ++ f.tailEntries)
  | .union f v vs =>
    .ofEntries ([("oneOf", .list (v.document :: variantDocuments vs))] ++ f.headEntries ++
      f.tailEntries)

def propertyDocuments : List (String × Node) → List (Value × Value)
  | [] => []
  | (name, n) :: rest => (.str name, n.document) :: propertyDocuments rest

def variantDocuments : List Node → List Value
  | [] => []
  | n :: rest => n.document :: variantDocuments rest

end

end ApiSchema
