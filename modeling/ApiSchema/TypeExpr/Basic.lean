import ApiSchema.Value

/-!
Type expressions, as annotations write them: a name, its arguments in brackets, and the values of a
literal type.
-/
namespace ApiSchema

open Text

inductive TypeExpr where
  | mk (name : String) (args : List TypeExpr) (values : List Value)

namespace TypeExpr

def name : TypeExpr → String
  | .mk n _ _ => n

def args : TypeExpr → List TypeExpr
  | .mk _ as _ => as

def values : TypeExpr → List Value
  | .mk _ _ vs => vs

def named (name : String) : TypeExpr := .mk name [] []

instance : Inhabited TypeExpr := ⟨named ""⟩

def baseName (e : TypeExpr) : String := lastSegment e.name

def barName : String := "|"

def bracketName : String := "[]"

/-- The name that stands for arguments which are no types. -/
def metadataName : String := "<metadata>"

def ellipsisName : String := "..."

def isNone (e : TypeExpr) : Bool :=
  ["None", "NoneType", "types.NoneType"].contains e.name

mutual

def text : TypeExpr → String
  | .mk name args values =>
    if lastSegment name == "Literal" then
      "Literal[" ++ join ", " (values.map Value.literalText) ++ "]"
    else if name == barName then join " | " (texts args)
    else match args with
      | [] => name
      | a :: as => name ++ "[" ++ join ", " (text a :: texts as) ++ "]"

def texts : List TypeExpr → List String
  | [] => []
  | e :: es => text e :: texts es

end

/-! ## Wrappers -/

/-- Types that only wrap their argument. -/
def wrapperNames : List String :=
  ["Annotated", "Final", "Required", "NotRequired", "ReadOnly", "Awaitable", "Coroutine"]

inductive Wrapping where
  /-- A transparent type, by the position of the argument that counts. -/
  | through (position : Nat)
  /-- The first argument, or nothing. -/
  | optional
  | union
  | plain

def wrapping (name : String) (count : Nat) : Wrapping :=
  let base := lastSegment name
  if wrapperNames.contains base && 0 < count then
    .through (if base == "Coroutine" && count == 3 then 2 else 0)
  else if base == "Optional" && 0 < count then .optional
  else if name == barName || base == "Union" then .union
  else .plain

def members (args : List TypeExpr) : List TypeExpr := args.filter (!·.isNone)

mutual

/-- The type without wrappers and without nothing among its members, and whether nothing was one. -/
def unwrap : TypeExpr → TypeExpr × Bool
  | .mk name args values =>
    match wrapping name args.length with
    | .through i => unwrapAt i args
    | .optional => ((unwrapAt 0 args).1, true)
    | .union =>
      match members args with
      | [] => (named "None", true)
      | [_] =>
        let (e, nullable) := unwrapMember args
        (e, nullable || args.length != 1)
      | ms => (.mk "Union" ms [], ms.length != args.length)
    | .plain => (.mk name args values, false)

def unwrapAt : Nat → List TypeExpr → TypeExpr × Bool
  | _, [] => (named "None", true)
  | 0, e :: _ => unwrap e
  | n + 1, _ :: rest => unwrapAt n rest

def unwrapMember : List TypeExpr → TypeExpr × Bool
  | [] => (named "None", true)
  | e :: rest => if e.isNone then unwrapMember rest else unwrap e

end

def isClassVariable (e : TypeExpr) : Bool := ["ClassVar", "InitVar"].contains e.baseName

end TypeExpr
end ApiSchema
