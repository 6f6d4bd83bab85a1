import ApiSchema.Field.Attribute
import ApiSchema.Field.Node
import ApiSchema.Field.Read
import ApiSchema.Shape.Read
import ApiSchema.TypeExpr.Schema

/-!
Types that name classes of the library. How a class becomes a schema is left open here: it is a
function that the definitions of this module are given.
-/
namespace ApiSchema.Infer

open Source

structure Tables where
  names : Name.Rules := {}
  types : TypeTables := {}

/-- The schema of a class in a direction, as a computation that may do more than read a library. -/
abbrev ClassSchema (m : Type → Type) := Located → Direction → m Node

section

variable {m : Type → Type} [Monad m] [MonadExceptOf Problem m] [MonadLiftT Inference m]
  [MonadLiftT Attempt m]

/-- The schema of the class that a name used in a module stands for, if there is one. -/
def namedClass (classSchema : ClassSchema m) (direction : Direction) (home : Source.Module) (name : String) :
    m (Option Node) := do
  match ← resolveClass home name with
  | some l => return some (← classSchema l direction)
  | none => return none

def typeNode (t : Tables) (classSchema : ClassSchema m) (direction : Direction) (home : Source.Module)
    (text : String) : m Node :=
  TypeExpr.schemaOf t.types (some (namedClass classSchema direction home)) (TypeExpr.read? text)

/-- The module in which the type of a field is written, if that can be read. -/
def declaringModule (home : Source.Module) (scope : Option String) : Inference Source.Module := do
  match scope.filter fun s => !s.isEmpty && s != home.name with
  | some s => return (← attempt (some <$> loadModule s)).getD home
  | none => return home

/-- The schema of the type of a field, which is looked up where it is written. -/
def fieldTypeNode (t : Tables) (classSchema : ClassSchema m) (direction : Direction) (home : Source.Module)
    (text : String) (scope : Option String) : m Node := do
  typeNode t classSchema direction (← declaringModule home scope) text

end

/-! ## Enumerations -/

def enumNode (l : Located) : Inference (Option Node) := do
  if !(← isEnum l) then return none
  let members ← liftM (m := Attempt) (l.cls.members : Except Fault (List Value))
  let n := if members.isEmpty then Node.string else TypeExpr.enumeration members
  return some (n.mapFacets fun f => { f with sourceType := some l.cls.qualifiedName })

def enumValues (name : String) : Inference (Option (List Value)) := do
  match ← findClass name with
  | some l =>
    if !(← isEnum l) then return none
    let members ← liftM (m := Attempt) (l.cls.members : Except Fault (List Value))
    return if members.isEmpty then none else some members
  | none => return none

/-! ## Declared fields -/

def linkOf (l : Located) : Field.Link := ⟨l.module.name, l.cls⟩

def declaredFields (direction : Direction) : Subject → Inference (List Field.Declared)
  | .cls l => do
    let chain ← ancestorChain l
    liftM (m := Attempt) (Field.ofChain direction (chain.map linkOf) : Except Fault (List Field.Declared))
  | .function _ m f | .method _ m _ f =>
    liftM (m := Attempt) (Field.ofHandler direction m.name f : Except Fault (List Field.Declared))

section

variable {m : Type → Type} [Monad m] [MonadExceptOf Problem m] [MonadLiftT Inference m]
  [MonadLiftT Attempt m]

def declaredProperties (t : Tables) (classSchema : ClassSchema m) (direction : Direction) (s : Subject) :
    m (Option (Entries Node)) := do
  let found ← attempt do
    let fields ← declaredFields direction s
    return some (← Field.propertiesOf (fieldTypeNode t classSchema direction s.module) fields)
  return found.filter (!·.isEmpty)

end

/-! ## Attributes -/

def isInformative (t : Tables) (text : String) : Bool :=
  (TypeExpr.read? text).any (·.isInformative t.types)

/-- The class of an attribute, and whether the attribute may be missing. -/
def attributeClass (name : String) (l : Located) : Inference (Option (Located × Bool)) := do
  match ← Field.attributeType? name l with
  | none => return none
  | some written =>
    match TypeExpr.read? written.text with
    | none => return none
    | some e =>
      let (inner, optional) := e.unwrap
      return (← resolveClass written.module inner.name).map (·, optional)

section

variable {m : Type → Type} [Monad m] [MonadExceptOf Problem m] [MonadLiftT Inference m]
  [MonadLiftT Attempt m]

/-- The type of what a path of attributes leads to. Every attribute before the last one is an object
of a class of the library, and the result is nullable if one of them may be missing. -/
def attributeNode (t : Tables) (classSchema : ClassSchema m) (nullable : Bool) (l : Located) :
    List String → m (Option Node)
  | [] => return none
  | [name] => do
    match ← Field.attributeType? name l with
    | none => return none
    | some written =>
      if !isInformative t written.text then return none
      let n ← typeNode t classSchema .output written.module written.text
      return some (if nullable then n.asNullable else n)
  | name :: rest => do
    match ← attributeClass name l with
    | some (owner, optional) => attributeNode t classSchema (nullable || optional) owner rest
    | none => return none

/-- What the body of a function of a module is read with, as a method of a class if it is one. -/
def resolversIn (t : Tables) (classSchema : ClassSchema m) (home : Source.Module) (owner : Option Located) :
    Shape.Resolvers m where
  nested := some (namedClass classSchema .output home)
  member := owner.map fun l => attributeNode t classSchema false l

/-- The shape of the data that a function of a module produces, as a method of a class if it is one. -/
def bodyShape (t : Tables) (classSchema : ClassSchema m) (home : Source.Module) (owner : Option Located)
    (f : Function) : m (Option Node) :=
  match f.body with
  | some body => Shape.shapeIn { names := t.names } (resolversIn t classSchema home owner) body
  | none => return none

end

end ApiSchema.Infer
