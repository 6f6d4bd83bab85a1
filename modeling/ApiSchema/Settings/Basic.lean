/-!
Settings of the inference.
-/
namespace ApiSchema

/-- The methods that turn an object into data, in the order in which they are tried. -/
def serializerMethods : List String :=
  ["to_dict", "to_representation", "serialize", "as_dict", "to_json", "dict"]

structure Settings where
  /-- How many classes may be nested in one schema; at least one. -/
  maxDepth : Int := 8
  synthesizeExamples : Bool := true
  allowPartialParse : Bool := false
  maxFileSize : Int := 1000000
  serializerMethods : List String := ApiSchema.serializerMethods
  /-- The method or attribute that declares the rules of a class. -/
  rulesMethod : String := "rules"
  cacheEnabled : Bool := true

end ApiSchema
