import ApiSchema.Hierarchy

/-!
Declared types of the attributes of an object: an annotated declaration of its class or of an ancestor,
or an assignment in a constructor that has a type or takes over a parameter with one.
-/
namespace ApiSchema.Field

open Source

def parameterTypes (f : Function) : Entries String :=
  Entries.ofPairs (f.parameters.filterMap fun p => (p.typeText.filter (!·.isEmpty)).map (p.name, ·))

/-- The type that the first telling assignment to an attribute gives, if it gives one. -/
def assignedType? (parameters : Entries String) (member : String) (t : Source.Tree) : Option (Option String) :=
  if t.form == .assignment && t.childText .left == "self." ++ member then
    match t.child? .type, t.child? .right with
    | some type, _ => some (some type.text)
    | none, some value => if value.form == .identifier then some (parameters.get? value.text) else none
    | none, none => none
  else none

def typeInConstructor? (f : Function) (member : String) : Option String := do
  let body ← f.body
  let type ← ← body.walkScope.findSome? (assignedType? (parameterTypes f) member)
  if type.isEmpty then none else some type

def typeInClass? (c : Source.Class) (member : String) : Option String :=
  ((c.fields.find? (·.name == member)).map (·.typeText)).or
    ((c.methods.get? "__init__").bind (typeInConstructor? · member))

structure WrittenType where
  module : Source.Module
  text : String

def attributeType? (member : String) (l : Located) : Inference (Option WrittenType) := do
  return (← ancestorChain l).findSome? fun a => (typeInClass? a.cls member).map (⟨a.module, ·⟩)

end ApiSchema.Field
