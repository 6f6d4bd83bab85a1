import ApiSchema.Infer.Input
import ApiSchema.Schema.Example
import ApiSchema.Schema.Walk

/-!
Schemas of subjects. Classes that refer to each other end in a placeholder: a class that is being
expanded is not expanded again inside, and no more classes are nested than the settings allow. A schema
without a placeholder does not depend on where it was asked for, and is kept.
-/
namespace ApiSchema.Infer

open Source Text

def schemaKey (name : String) : Direction → String
  | .output => name
  | .input => name ++ "#input"

def keptSchema (key : String) : Inference (Option Node) := do
  let l ← get
  let (found, cache) := l.cache.getSchema key
  set { l with cache }
  return found

/-- A schema, kept if it has no placeholder. -/
def keepSchema (key : String) (n : Node) : Inference Node := do
  if !n.hasPlaceholder then modify fun l => { l with cache := l.cache.putSchema key n }
  return n

section

variable {m : Type → Type} [Monad m] [MonadExceptOf Problem m] [MonadLiftT Inference m]
  [MonadLiftT Attempt m]

def composedSchema (t : Tables) (s : Settings) (classSchema : ClassSchema m) : ClassSchema m
  | l, .output => classOutput t s classSchema l
  | l, .input => classInput t s classSchema l

/-- The schema of a class that is expanded: the kept one, or else the composed one, which is kept. -/
def expandedSchema (t : Tables) (s : Settings) (inside : ClassSchema m) (l : Located) (direction : Direction) :
    m Node := do
  let key := schemaKey l.cls.qualifiedName direction
  match ← keptSchema key with
  | some n => return n
  | none => keepSchema key (← composedSchema t s inside l direction)

end

/-- The schema of a class inside the expansion of the classes in `guard`, with at most `depth` more
classes nested. -/
def classSchema (t : Tables) (s : Settings) : Nat → List String → ClassSchema Inference
  | depth, guard, l, direction =>
    let name := l.cls.qualifiedName
    if guard.contains name then return Node.circular name
    else match depth with
      | 0 => return Node.depthLimited name
      | depth + 1 => expandedSchema t s (classSchema t s depth (name :: guard)) l direction

def outermost (t : Tables) (s : Settings) : ClassSchema Inference := classSchema t s s.maxDepth.toNat []

/-! ## Requests -/

/-- The schema of what a subject produces when its module cannot be read. -/
def unreadOutput (t : Tables) (name : String) : Node :=
  let short := lastSegment name
  if startsUpper short then sourcedObject name [] else t.names.handler short

/-- A subject by its name; nothing if its module cannot be read. -/
def readSubject (name : String) : Inference (Option Subject) :=
  tryCatch (some <$> findSubject name) fun p =>
    match p with
    | .unreadable _ => return none
    | _ => throw p

/-- The schema with examples, if they are wanted. -/
def finish (s : Settings) (n : Node) (examples : ExampleTables := {}) : Attempt Node :=
  if s.synthesizeExamples then synthesize examples none n else return n

section

variable {m : Type → Type} [Monad m] [MonadExceptOf Problem m] [MonadLiftT Inference m]
  [MonadLiftT Attempt m]

def subjectSchema (t : Tables) (s : Settings) (classSchema : ClassSchema m) (direction : Direction)
    (subject : Subject) : m Node :=
  match subject, direction with
  | .cls l, _ => classSchema l direction
  | .function _ _ f, .output | .method _ _ _ f, .output => handlerOutput t classSchema subject f
  | .function _ _ f, .input | .method _ _ _ f, .input => handlerInput t s classSchema subject f

/-- The schema of what a subject accepts; rules that are given count more than all that is read. -/
def acceptedSchema (t : Tables) (s : Settings) (classSchema : ClassSchema m) (rules : Entries Rule.Raw)
    (subject : Subject) : m Node :=
  if rules.isEmpty then subjectSchema t s classSchema .input subject else ofRules rules

/-- The schema of what a named subject produces, before examples are added. -/
def namedOutput (t : Tables) (s : Settings) (classSchema : ClassSchema m) (name : String) : m Node := do
  match ← readSubject name with
  | some subject => subjectSchema t s classSchema .output subject
  | none => return unreadOutput t name

def namedInput (t : Tables) (s : Settings) (classSchema : ClassSchema m) (rules : Entries Rule.Raw)
    (name : String) : m Node := do
  match ← readSubject name with
  | some subject => acceptedSchema t s classSchema rules subject
  | none => if rules.isEmpty then return Node.objectOf [] else ofRules rules

end

def output (t : Tables) (s : Settings) (subject : Subject) : Inference Node := do
  finish s (← subjectSchema t s (outermost t s) .output subject)

def input (t : Tables) (s : Settings) (rules : Entries Rule.Raw) (subject : Subject) : Inference Node := do
  finish s (← acceptedSchema t s (outermost t s) rules subject)

/-- The schema of what a named subject produces. -/
def outputOf (t : Tables) (s : Settings) (name : String) (examples : ExampleTables := {}) : Inference Node := do
  finish s (← namedOutput t s (outermost t s) name) examples

def inputOf (t : Tables) (s : Settings) (rules : Entries Rule.Raw) (name : String) : Inference Node := do
  finish s (← namedInput t s (outermost t s) rules name)

def openLibrary (s : Settings) (root : String) (files texts : Entries String) : Library :=
  let empty : Library := {
    root
    cache := { enabled := s.cacheEnabled }
    maxFileSize := s.maxFileSize
    allowPartial := s.allowPartialParse }
  let filled := files.foldl (fun l e => l.writeFile e.1 e.2) empty
  texts.foldl (fun l e => l.addText e.1 e.2) filled.indexFolder

end ApiSchema.Infer
