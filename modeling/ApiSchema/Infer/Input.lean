import ApiSchema.Infer.Output
import ApiSchema.Infer.Request
import ApiSchema.Rule.Extract
import ApiSchema.Rule.Interpret
import ApiSchema.Schema.Expand

/-!
Schemas of the data that a handler or a request class accepts. Rules come first, then what is declared,
then the classes of the parameters of a handler, and last what its body reads from the request.
-/
namespace ApiSchema.Infer

open Rule Source

def ofRules (rules : Entries Raw) : Inference Node := do
  return expandPaths (← interpretSet { enums := some enumValues } rules)

def rawRules (rules : RuleSet) : Entries Raw := rules.map fun e => (e.1, .elements (e.2.map .token))

def resolveRules (m : Source.Module) : Option (List Declaration) → Inference (Option RuleSet)
  | some declarations => some <$> resolveAll (resolveName m) declarations
  | none => return none

def classRules (s : Settings) (l : Located) : Inference (Option RuleSet) := do
  let chain ← ancestorChain l
  resolveRules l.module (declaredByClasses s.rulesMethod (chain.map (·.cls)))

/-- The rule set that something gives, if it can be read and has a rule. -/
def givenRules (rules : Inference (Option RuleSet)) : Inference (Option RuleSet) := do
  return (← attempt rules).filter (!·.isEmpty)

def parameterClassName? (t : Tables) (p : Parameter) : Option String := do
  if Shape.selfNames.contains p.name || p.variadic then none
  let e ← TypeExpr.read? (← p.typeText.filter (!·.isEmpty))
  let inner := e.unwrap.1
  if t.types.primitives.has inner.baseName then none
  return inner.name

/-- The class that a name used in a module stands for, unless that is an enumeration. -/
def recordClass (m : Source.Module) (name : String) : Inference (Option Located) := do
  match ← resolveClass m name with
  | some l => do return if ← isEnum l then none else some l
  | none => return none

/-- The classes of the library among the types of the parameters of a handler, in order. -/
def parameterClasses (t : Tables) (m : Source.Module) (f : Function) : Inference (List Located) := do
  let found ← (f.parameters.filterMap (parameterClassName? t)).mapM (recordClass m)
  return found.filterMap id

def firstRules (s : Settings) : List Located → Inference (Option RuleSet)
  | [] => return none
  | l :: rest => do
    match (← classRules s l).filter (!·.isEmpty) with
    | some rules => return some rules
    | none => firstRules s rest

def handlerRules (t : Tables) (s : Settings) (m : Source.Module) (f : Function) : Inference (Option RuleSet) := do
  match ← firstRules s (← parameterClasses t m f) with
  | some rules => return some rules
  | none => resolveRules m (declaredByFunction f)

def readFields (t : Tables) (f : Function) : Inference Node := do
  match f.body with
  | some body => return expandPaths (← liftM (requestFields t.names t.types body))
  | none => return Node.objectOf []

section

variable {m : Type → Type} [Monad m] [MonadExceptOf Problem m] [MonadLiftT Inference m]
  [MonadLiftT Attempt m]

def classInput (t : Tables) (s : Settings) (classSchema : ClassSchema m) (l : Located) : m Node := do
  let name := l.cls.qualifiedName
  match ← givenRules (classRules s l) with
  | some rules => return (← ofRules (rawRules rules)).mapFacets fun f => { f with sourceType := some name }
  | none =>
    match ← enumNode l with
    | some n => return n
    | none => return sourcedObject name ((← declaredProperties t classSchema .input (.cls l)).getD [])

/-- The schema of the first of some classes that has fields, or that cannot be expanded. -/
def firstWithFields (classSchema : ClassSchema m) : List Located → m (Option Node)
  | [] => return none
  | l :: rest => do
    let n ← classSchema l .input
    if !n.properties.isEmpty || n.isPlaceholder then return some n
    firstWithFields classSchema rest

def handlerInput (t : Tables) (s : Settings) (classSchema : ClassSchema m) (subject : Subject) (f : Function) :
    m Node := do
  match ← givenRules (handlerRules t s subject.module f) with
  | some rules => ofRules (rawRules rules)
  | none =>
    match ← declaredProperties t classSchema .input subject with
    | some properties => return Node.objectOf properties
    | none =>
      match ← firstWithFields classSchema (← parameterClasses t subject.module f) with
      | some n => return n
      | none => readFields t f

end

end ApiSchema.Infer
