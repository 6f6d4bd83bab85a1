import ApiSchema.Text.Cut

/-!
File paths and the names of the modules that files hold. A path is the list of its parts: repeated
slashes and single dots vanish, double dots stay, and an absolute path starts with its root.
-/
namespace ApiSchema.Source

open Text

/-- The root of an absolute path. Exactly two slashes at the start are a root of their own. -/
def pathRoot (path : String) : List String :=
  match path.toList with
  | '/' :: '/' :: '/' :: _ => ["/"]
  | '/' :: '/' :: _ => ["//"]
  | '/' :: _ => ["/"]
  | _ => []

def pathParts (path : String) : List String :=
  pathRoot path ++ (split '/' path).filter fun p => !p.isEmpty && p != "."

def packageFile : String := "__init__.py"

def isPackagePath (path : String) : Bool := (pathParts path).getLast? == some packageFile

/-- The parts after a common start, or all of them when the start is another one. -/
def partsBelow (root parts : List String) : List String :=
  if root.isPrefixOf parts then parts.drop root.length else parts

def moduleNameOf (path : String) (root : Option String := none) : String :=
  let parts := match root with
    | some r => partsBelow (pathParts r) (pathParts path)
    | none => pathParts path
  let named := match parts.getLast? with
    | none => []
    | some last =>
      if last == packageFile then parts.dropLast
      else parts.dropLast ++ [if endsWith last ".py" then take (last.length - 3) last else last]
  join "." (named.filter fun p => !p.isEmpty && p != "." && p != "/")

end ApiSchema.Source
