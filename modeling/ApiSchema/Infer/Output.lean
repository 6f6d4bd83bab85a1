import ApiSchema.Infer.Type
import ApiSchema.Settings.Basic

/-!
Schemas of the data that a class stands for or a handler produces. What is declared comes first, then
the shape of what the body produces, and last the usual answer of a handler of that name.
-/
namespace ApiSchema.Infer

open Source

def withSource (name : String) (n : Node) : Node :=
  n.mapFacets fun f => if f.sourceType.any (!·.isEmpty) then f else { f with sourceType := some name }

def sourcedObject (name : String) (properties : Entries Node) : Node :=
  .object { sourceType := some name } properties

/-- The methods of some names along a chain, all of one name before those of the next. -/
def methodsNamed (names : List String) (chain : List Located) : List (Located × Function) :=
  names.flatMap fun name => chain.filterMap fun a => (a.cls.methods.get? name).map (a, ·)

def ownerOf (subject : Subject) : Inference (Option Located) :=
  match subject.owner? with
  | some c => findClass c.qualifiedName
  | none => return none

section

variable {m : Type → Type} [Monad m] [MonadExceptOf Problem m] [MonadLiftT Inference m]
  [MonadLiftT Attempt m]

def firstMethodShape (shape : Located → Function → m (Option Node)) :
    List (Located × Function) → m (Option Node)
  | [] => return none
  | (l, f) :: rest => do
    match ← shape l f with
    | some n => return some n
    | none => firstMethodShape shape rest

/-- The shape that the methods of a class give which turn its objects into data. -/
def serializedShape (t : Tables) (s : Settings) (classSchema : ClassSchema m) (l : Located) :
    m (Option Node) := do
  let chain ← ancestorChain l
  firstMethodShape (fun a f => bodyShape t classSchema a.module (some l) f)
    (methodsNamed s.serializerMethods chain)

def classOutput (t : Tables) (s : Settings) (classSchema : ClassSchema m) (l : Located) : m Node := do
  let name := l.cls.qualifiedName
  match ← enumNode l with
  | some n => return n
  | none =>
    match ← declaredProperties t classSchema .output (.cls l) with
    | some properties => return sourcedObject name properties
    | none =>
      match ← attempt (serializedShape t s classSchema l) with
      | some n => return withSource name n
      | none => return sourcedObject name []

/-- The schema of the declared type of what a handler returns, if that says something. -/
def returnedType (t : Tables) (classSchema : ClassSchema m) (home : Source.Module) (f : Function) :
    m (Option Node) :=
  match f.returnType.filter (isInformative t) with
  | some text => attempt do return some (← typeNode t classSchema .output home text)
  | none => return none

def handlerOutput (t : Tables) (classSchema : ClassSchema m) (subject : Subject) (f : Function) :
    m Node := do
  match ← declaredProperties t classSchema .output subject with
  | some properties => return Node.objectOf properties
  | none =>
    match ← returnedType t classSchema subject.module f with
    | some n => return n
    | none =>
      match ← attempt (do bodyShape t classSchema subject.module (← ownerOf subject) f) with
      | some n => return n
      | none => return t.names.handler f.name

end

end ApiSchema.Infer
