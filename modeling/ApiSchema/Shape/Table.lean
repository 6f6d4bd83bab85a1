import ApiSchema.Name.Rules
import ApiSchema.Problem
import ApiSchema.Text.Template

/-!
What the calls in a body are known for: wrappers that include a value under a condition, responses
that carry it, and ways to make, render and collect resources.
-/
namespace ApiSchema.Shape

open Text

/-- A call that includes a value only when a condition holds at run time. -/
structure Wrapper where
  /-- A sentence, in which `subject` in braces stands for what the call is about. -/
  description : String
  /-- The position of the included value. -/
  valueIndex : Option Int := none
  /-- The position of the name of what the call is about. -/
  subjectIndex : Option Int := none
  /-- Whether a whole dictionary of fields is included. -/
  merge : Bool := false
  /-- The kind of a value that is not written down. -/
  fallbackKind : Option Kind := none

/-- What is said of a field that is included under a condition. -/
def conditionSentence : String := "Included only when a runtime condition holds."

def conditionalWrappers : Entries Wrapper := [
  ("when", { description := conditionSentence, valueIndex := some 1 }),
  ("merge_when", { description := conditionSentence, valueIndex := some 1, merge := true }),
  ("when_loaded", {
    description := "Included only when the \x7bsubject\x7d relation is loaded."
    valueIndex := some 1, subjectIndex := some 0 }),
  ("when_appended", {
    description := "Included only when the \x7bsubject\x7d attribute is appended."
    valueIndex := some 1, subjectIndex := some 0 }),
  ("when_has", {
    description := "Included only when the \x7bsubject\x7d attribute is present."
    valueIndex := some 1, subjectIndex := some 0 }),
  ("when_not_null", { description := "Included only when the value is not null.", valueIndex := some 0 }),
  ("when_counted", {
    description := "Included only when the \x7bsubject\x7d count is loaded."
    subjectIndex := some 0, fallbackKind := some .integer })]

def responseWrappers : List String :=
  ["jsonify", "JSONResponse", "JsonResponse", "ORJSONResponse", "UJSONResponse", "Response",
    "make_response"]

structure Tables where
  names : Name.Rules := {}
  wrappers : Entries Wrapper := conditionalWrappers
  responses : List String := responseWrappers

def resourceFactories : List String :=
  ["model_validate", "from_orm", "parse_obj", "model_construct", "construct", "make"]

def resourceRenderers : List String :=
  ["to_dict", "to_representation", "serialize", "as_dict", "to_json", "dict", "model_dump", "resolve",
    "data"]

def collectionFactories : List String := ["collection"]

def sequenceCalls : List String := ["list", "tuple", "sorted", "set"]

def selfNames : List String := ["self", "cls"]

def Tables.ownWrapper? (t : Tables) (callee : String) : Option Wrapper :=
  if ["self.", "cls.", "this."].any (startsWith callee) then t.wrappers.get? (lastSegment callee) else none

/-- The place of an argument among `count`, if there is one. A negative position counts from the
end. -/
def argumentPlace (position : Int) (count : Nat) : Except Fault (Option Nat) :=
  if (count : Int) ≤ position then .ok none
  else if 0 ≤ position then .ok (some position.toNat)
  else if position.natAbs ≤ count then .ok (some (count - position.natAbs))
  else .error .noPosition

def argumentPlace? (position : Option Int) (count : Nat) : Except Fault (Option Nat) :=
  match position with
  | some p => argumentPlace p count
  | none => .ok none

def included (description : String) (n : Node) : Except Fault Node :=
  (n.mapFacets fun f => { f with conditional := true, required := false }).addDescription description

end ApiSchema.Shape
