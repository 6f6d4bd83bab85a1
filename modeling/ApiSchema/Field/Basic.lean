import ApiSchema.Schema.Node

/-!
Declared fields: what decorators, annotated declarations and docstrings say about the fields of a
class or handler, before any type is looked up.
-/
namespace ApiSchema

/-- Whether a schema is of the data that is accepted or of the data that is produced. -/
inductive Direction where
  | input
  | output
deriving DecidableEq, Repr

namespace Field

/-- Where a field is declared, the origin that counts most first. -/
inductive Origin where
  | decorator
  | typed
  | docstring
deriving DecidableEq, Repr

/-- A declared field. It has the text of its type, or the kind that a decorator names. -/
structure Declared where
  name : String
  origin : Origin
  typeText : Option String := none
  kind : Option Kind := none
  format : Option Value := none
  required : Option Bool := none
  nullable : Bool := false
  deprecated : Bool := false
  sample : Option Value := none
  description : Option Value := none
  enumValues : Option (List Value) := none
  otherName : Option String := none
  lower : Option Value := none
  upper : Option Value := none
  minLength : Option Value := none
  maxLength : Option Value := none
  pattern : Option String := none
  /-- The module in which the type is written. -/
  scope : Option String := none

def Declared.outputName (d : Declared) : String := (d.otherName.filter (!·.isEmpty)).getD d.name

def Declared.isDescribed (d : Declared) : Bool := d.description.any (·.truthy)

end Field
end ApiSchema
