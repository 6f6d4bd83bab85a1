import ApiSchema.Library

/-!
Classes of a library by name, through the modules that pass them on, and their ancestors. The chain of
a class lists the class and then its ancestors in the library, depth first and from left to right, each
of them once.
-/
namespace ApiSchema

open Source Text

structure Located where
  module : Source.Module
  cls : Source.Class

/-! ## Classes by name -/

/-- How many modules a class may be passed through. -/
def maxHops : Nat := 8

/-- A dotted name as a module and the names after it. -/
def splitName (name : String) : Inference (String × List String) := do
  match (← get).splitName? name with
  | some found => return found
  | none => throw (.unresolved ("No module contains " ++ name))

/-- Where the definition of a class is, or the name that its module imports it by. -/
inductive Hop where
  | found (l : Located)
  | next (name : String)
  | stuck

def hopIn (name : String) (m : Source.Module) : List String → Hop
  | [short] =>
    match m.classes.get? short, m.imports.names.get? short with
    | some c, _ => .found ⟨m, c⟩
    | none, some target => if target.isEmpty || target == name then .stuck else .next target
    | none, none => .stuck
  | _ => .stuck

def hop (name : String) : Inference Hop := do
  let (moduleName, rest) ← splitName name
  return hopIn name (← loadModule moduleName) rest

/-- The definition that a name leads to in at most `n` steps, none of them to a name seen before. -/
def locateFrom (seen : List String) (name : String) : Nat → Inference (Option Located)
  | 0 => return none
  | n + 1 => do
    if seen.contains name then return none
    match ← hop name with
    | .found l => return some l
    | .next target => locateFrom (name :: seen) target n
    | .stuck => return none

def locateClass (name : String) : Inference Located := do
  match ← locateFrom [] name maxHops with
  | some l => return l
  | none => throw (.unresolved ("Cannot resolve class " ++ name))

def findClass (name : String) : Inference (Option Located) := attempt (some <$> locateClass name)

def resolveName (m : Source.Module) (name : String) : Inference String :=
  m.imports.resolve m.name (some fun n => do return (← findClass n).isSome) name

def resolveClass (m : Source.Module) (name : String) : Inference (Option Located) := do
  findClass (← resolveName m name)

/-! ## Ancestors -/

def baseName (base : String) : String := (cut '[' base).1

/-- The bases of a class that are in the library, except those seen before. -/
def newParents (seen : List String) (l : Located) : Inference (List Located) := do
  let found ← l.cls.bases.mapM fun base => resolveClass l.module (baseName base)
  return (found.filterMap id).filter fun p => !seen.contains p.cls.qualifiedName

/-- The chain of the pending classes, without those seen before, in at most `n` steps. -/
def chainFrom : Nat → List String → List Located → Inference (List Located)
  | 0, _, _ | _ + 1, _, [] => return []
  | n + 1, seen, l :: pending => do
    let name := l.cls.qualifiedName
    if seen.contains name then chainFrom n seen pending
    else
      let parents ← newParents (name :: seen) l
      return l :: (← chainFrom n (name :: seen) (parents ++ pending))

def total (ns : List Nat) : Nat := ns.foldr (· + ·) 0

def Source.Module.baseCount (m : Source.Module) : Nat :=
  total (m.classes.values.map (·.bases.length))

def outcomeBaseCount : Except ReadError Source.Module → Nat
  | .ok m => m.baseCount
  | .error _ => 0

/-- How many bases there are in all modules that a library has read or can read. No chain takes more
steps than that. -/
def Library.baseCount (l : Library) : Nat :=
  total (l.texts.values.map outcomeBaseCount) + total (l.folder.values.map (outcomeBaseCount ·.outcome)) +
    total (l.cache.modules.values.map (·.baseCount))

def ancestorChain (l : Located) : Inference (List Located) := do
  chainFrom ((← get).baseCount + l.cls.bases.length + 1) [] [l]

/-- The names of all bases along the chain of a class, those outside of the library included. -/
def baseNames (l : Located) : Inference (List String) := do
  let names ← (← ancestorChain l).mapM fun a => a.cls.bases.mapM fun b => resolveName a.module (baseName b)
  return names.flatten.eraseDups

/-- Whether a base along the chain of a class has one of some names, alone or after a dot. -/
def inheritsFrom (suffixes : List String) (l : Located) : Inference Bool := do
  return (← baseNames l).any fun name => suffixes.any fun s => name == s || endsWith name ("." ++ s)

def enumBases : List String := ["Enum", "IntEnum", "StrEnum", "Flag", "IntFlag"]

def isEnum (l : Located) : Inference Bool := inheritsFrom enumBases l

/-! ## Subjects -/

inductive Subject where
  | cls (l : Located)
  | function (name : String) (m : Source.Module) (f : Function)
  | method (name : String) (m : Source.Module) (owner : Source.Class) (f : Function)

namespace Subject

def module : Subject → Source.Module
  | .cls l => l.module
  | .function _ m _ | .method _ m _ _ => m

def function? : Subject → Option Function
  | .cls _ => none
  | .function _ _ f | .method _ _ _ f => some f

def owner? : Subject → Option Source.Class
  | .cls l => some l.cls
  | .function _ _ _ => none
  | .method _ _ c _ => some c

def qualifiedName : Subject → String
  | .cls l => l.cls.qualifiedName
  | .function name _ _ | .method name _ _ _ => name

def name : Subject → String
  | .cls l => l.cls.name
  | .function _ _ f | .method _ _ _ f => f.name

end Subject

def methodIn (name : String) (chain : List Located) : Option (Located × Function) :=
  chain.findSome? fun a => (a.cls.methods.get? name).map (a, ·)

def subjectIn (name home : String) (m : Source.Module) : List String → Inference Subject
  | [short] =>
    match m.classes.get? short, m.functions.get? short with
    | some c, _ => return .cls ⟨m, c⟩
    | none, some f => return .function name m f
    | none, none => do
      match ← findClass name with
      | some l => return .cls l
      | none => throw nothing
  | [owner, short] => do
    match ← findClass (home ++ "." ++ owner) with
    | some l => do
      match methodIn short (← ancestorChain l) with
      | some (a, f) => return .method name a.module l.cls f
      | none => throw nothing
    | none => throw nothing
  | _ => throw nothing
where
  nothing : Problem := .unresolved ("Nothing named " ++ name)

def findSubject (name : String) : Inference Subject := do
  let (moduleName, rest) ← splitName name
  subjectIn name moduleName (← loadModule moduleName) rest

end ApiSchema
