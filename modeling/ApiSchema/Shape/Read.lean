import ApiSchema.Name.Plural
import ApiSchema.Shape.Table
import ApiSchema.Source.Expr

/-!
The shape of the data that a body produces, read off the first expression it returns or yields whose
form tells a shape. Dictionaries become objects and their values are typed by their form, by the
declared attributes of the own object, and by names.

An expression without a shape gives `none` in `OptionT`; a problem ends the reading. A local name is
looked through unless it is being looked through already, so at most as many names are nested as the
body binds, and that number bounds the reading.
-/
namespace ApiSchema.Shape

open Source Text

/-- A name written with a capital after its last dot, as names of classes are. -/
def classLike (text : String) : Bool := startsUpper (lastSegment text)

/-- The attributes that are followed from the own object, one or more. -/
def ownPath? (text : String) : Option (List String) :=
  match (split '.' text).map strip with
  | own :: member :: rest =>
    if selfNames.contains own && (own :: member :: rest).all isIdentifier then some (member :: rest) else none
  | _ => none

/-- The node of the first of some names that a rule fits; a plain string when there is none. -/
def namedNode (names : Name.Rules) (candidates : List (Option String)) : Attempt Node :=
  match (candidates.filterMap id).find? fun c => !c.isEmpty && (names.fieldRule? c).isSome with
  | some c => (names.field c : Except DraftError Node)
  | none => return Node.string

/-- The node of what a call gives, by the name of what is called and of where its value goes. -/
def calledNode (names : Name.Rules) (callee : String) (key : Option String) : Attempt Node := do
  match ← (names.helper? callee : Except DraftError (Option Node)) with
  | some n => return n
  | none => namedNode names [some (lastSegment callee), key]

def relationNode (names : Name.Rules) (relation : String) (key : Option String) : Attempt Node :=
  if (names.fieldRule? relation).isSome then (names.field relation : Except DraftError Node)
  else if Name.isPlural relation then return Node.arrayOf (Node.objectOf [])
  else match key.filter fun k => !k.isEmpty && (names.fieldRule? k).isSome with
    | some k => (names.field k : Except DraftError Node)
    | none => return Node.objectOf []

/-- A string that is declared without a format or values. -/
def isPlainString (n : Node) : Bool :=
  n.kind == .string && !n.facets.format.any (·.truthy) && !n.facets.enumValues.any (!·.isEmpty)

/-- A declared type, unless it is a plain string and the name tells a format. -/
def declaredOrNamed (declared named : Node) : Node :=
  if isPlainString declared && named.kind == .string && named.facets.format.any (·.truthy) then
    named.mapFacets fun f => { f with nullable := declared.nullable || f.nullable }
  else declared

/-- A number like the left operand, or any number. -/
def arithmeticNode : Option Node → Node
  | some (.scalar .integer f) => Node.integer { format := f.format }
  | some (.scalar .number f) => Node.number { format := f.format }
  | _ => Node.number

/-- Whether a call applies a function to each element of something. -/
def mapsElements (callee : String) (positional : List Expr) : Bool :=
  (callee == "map" && !positional.isEmpty) ||
    (lastSegment callee == "map" && positional.head?.any Expr.isLambda)

/-- What is known of classes and of the attributes of the own object. -/
structure Resolvers (m : Type → Type) where
  nested : Option (String → m (Option Node)) := none
  member : Option (List String → m (Option Node)) := none

/-- What a local name is bound to: its shape, its value under a key, and the entries that it adds to a
dictionary. -/
structure Binding (m : Type → Type) where
  shape : Unit → OptionT m Node
  value : Option String → OptionT m Node
  entries : Unit → m (List (String × Node))

/-- What an expression is read with: the local names that can be looked through, among others. -/
structure Scope (m : Type → Type) where
  tables : Tables
  resolvers : Resolvers m
  bound : String → Option (Binding m)

section

variable {m : Type → Type} [Monad m] [MonadLiftT Attempt m]

def Scope.classNode (s : Scope m) (text : String) : OptionT m Node :=
  match s.resolvers.nested with
  | some f => if classLike text then OptionT.mk (f text) else failure
  | none => failure

def Scope.attributeNode (s : Scope m) (text : String) : m (Option Node) :=
  match s.resolvers.member, ownPath? text with
  | some f, some path => f path
  | _, _ => return none

/-- A field of an object is required unless it is included under a condition. -/
def fieldNode : Option Node → Node
  | some n => if n.facets.conditional then n else n.withRequired true
  | none => Node.string { required := true }

def liftFault (x : Except Fault α) : Attempt α := x

def propertiesOf : Node → OptionT m (Entries Node)
  | .object _ properties => return properties
  | _ => failure

/-- The object that a call with entries by name makes, from another object if one is given. -/
def dictionaryCall (positional : List Expr) (start : OptionT m Node) (entries : m (List (String × Node))) :
    OptionT m Node := do
  let given ← if positional.isEmpty then pure [] else start >>= propertiesOf
  return Node.objectOf (Entries.setAll given (← entries))

def includedFields (description : String) (fields : m (List (String × Node))) : m (List (String × Node)) := do
  (Entries.ofPairs (← fields)).mapM fun (key, n) => do
    let n ← liftM (liftFault (included description n))
    return (key, n)

/-- The fields that a merging wrapper includes; `fields` gives those at a place of its arguments. -/
def mergedFields (w : Wrapper) (count : Nat) (fields : Nat → m (List (String × Node))) :
    m (List (String × Node)) :=
  if w.merge then do
    match w.valueIndex with
    | none => liftM (throw (.fault .mismatch) : Attempt (List (String × Node)))
    | some i =>
      match ← liftM (liftFault (argumentPlace i count)) with
      | some place => includedFields w.description (fields place)
      | none => return []
  else return []

/-- The value that a wrapper includes under a condition; `value` gives the one at a place of its
arguments. -/
def includedValue (names : Name.Rules) (w : Wrapper) (key : Option String) (positional : List Expr)
    (value : Nat → m Node) : m Node := do
  let place ← liftM (liftFault (argumentPlace? w.subjectIndex positional.length))
  let subject := (place.bind fun i => positional[i]?.bind Expr.stringValue?).filter (!·.isEmpty)
  let about := (subject <|> key.filter (!·.isEmpty)).getD "value"
  let description ← liftM (liftFault (fill w.description "subject" about))
  let n ← match ← liftM (liftFault (argumentPlace? w.valueIndex positional.length)) with
    | some i => value i
    | none =>
      match w.fallbackKind, subject with
      | some kind, _ => do
        let built : Attempt Node := ((Draft.ofKind kind none).build : Except DraftError Node)
        liftM built
      | none, some relation => liftM (relationNode names relation key)
      | none, none => liftM (namedNode names [key])
  liftM (liftFault (included description n))

mutual

def shapeOf (s : Scope m) : Expr → OptionT m Node
  | .enclosed _ inner | .awaited _ inner => shapeOf s inner
  | .tuple _ (e :: _) | .several _ (e :: _) => shapeOf s e
  | .dictionary _ entries => do return Node.objectOf (Entries.ofPairs (← entriesOf s entries))
  | .name n =>
    match s.bound n with
    | some b => b.shape ()
    | none => failure
  | .comprehension _ body => do return Node.arrayOf (← shapeOf s body)
  | .list _ (e :: _) => do return Node.arrayOf (← shapeOf s e)
  | .call _ function positional keywords =>
    let callee := function.text
    if s.tables.responses.contains (lastSegment callee) then
      match shapeUnder s "content" keywords with
      | some found => found
      | none =>
        match shapeUnder s "data" keywords with
        | some found => found
        | none => shapeOfFirst s positional
    else if callee == "dict" then
      dictionaryCall positional (shapeOfFirst s positional) (keywordEntries s keywords)
    else if mapsElements callee positional then do return Node.arrayOf (← mappedShape s positional)
    else if sequenceCalls.contains callee && !positional.isEmpty then shapeOfFirst s positional
    else resourceOf s function
  | _ => failure

def shapeUnder (s : Scope m) (key : String) : List (String × Expr) → Option (OptionT m Node)
  | [] => none
  | (k, e) :: rest => if k == key then some (shapeOf s e) else shapeUnder s key rest

def shapeOfFirst (s : Scope m) : List Expr → OptionT m Node
  | [] => failure
  | e :: _ => shapeOf s e

/-- The shape of the elements that a function makes, which is the first argument. -/
def mappedShape (s : Scope m) : List Expr → OptionT m Node
  | [] => failure
  | .lambda _ body :: _ => shapeOf s body
  | f :: _ => s.classNode f.text

/-- The resource that a call of a class, or of a method of a class or of a resource, gives. -/
def resourceOf (s : Scope m) : Expr → OptionT m Node
  | .attribute text object _ =>
    let base := lastSegment text
    if collectionFactories.contains base && classLike object.text then do
      return Node.arrayOf (← s.classNode object.text)
    else if resourceFactories.contains base && classLike object.text then s.classNode object.text
    else if resourceRenderers.contains base && object.isCall then shapeOf s object
    else failure
  | f => s.classNode f.text

def keywordEntries (s : Scope m) : List (String × Expr) → m (List (String × Node))
  | [] => return []
  | (key, e) :: rest => do
    let n ← (valueOf s (some key) e).run
    return (key, fieldNode n) :: (← keywordEntries s rest)

def entriesOf (s : Scope m) : List (EntryKey × Expr) → m (List (String × Node))
  | [] => return []
  | (.named key, e) :: rest => do
    let n ← (valueOf s (some key) e).run
    return (key, fieldNode n) :: (← entriesOf s rest)
  | (.computed, _) :: rest => entriesOf s rest
  | (.splat, e) :: rest => do
    let taken ← splatOf s e
    return taken ++ (← entriesOf s rest)

def splatOf (s : Scope m) : Expr → m (List (String × Node))
  | .enclosed _ inner => splatOf s inner
  | .conditional _ (.dictionary _ entries) _ _ => includedFields conditionSentence (entriesOf s entries)
  | .dictionary _ entries => entriesOf s entries
  | .name n =>
    match s.bound n with
    | some b => b.entries ()
    | none => return []
  | .call _ function positional _ =>
    match s.tables.wrappers.get? (lastSegment function.text) with
    | some w => mergedFields w positional.length fun place => fieldsAt s place positional
    | none => return []
  | _ => return []

/-- The fields of the dictionary at a place among some arguments; a function stands for what it
gives. -/
def fieldsAt (s : Scope m) : Nat → List Expr → m (List (String × Node))
  | _, [] => return []
  | 0, .dictionary _ entries :: _ | 0, .lambda _ (.dictionary _ entries) :: _ => entriesOf s entries
  | 0, _ :: _ => return []
  | n + 1, _ :: rest => fieldsAt s n rest

def valueOf (s : Scope m) (key : Option String) : Expr → OptionT m Node
  | .enclosed _ inner | .awaited _ inner => valueOf s key inner
  | .string _ _ => return Node.string
  | .integer _ => return Node.integer
  | .float _ => return Node.number
  | .truth _ => return Node.boolean
  | .nothing _ => return Node.string { nullable := true }
  | .sign _ operand => valueOf s key operand
  | .binary _ operator left right =>
    if left.isString || right.isString then return Node.string
    else if operator == "/" then return Node.number
    else do
      let n ← OptionT.lift (valueOf s key left).run
      return arithmeticNode n
  | .dictionary _ entries => do return Node.objectOf (Entries.ofPairs (← entriesOf s entries))
  | .dictionaryComprehension _ => return Node.objectOf []
  | .list _ es | .tuple _ es | .set _ es => do return Node.arrayOf (← valueOfFirst s es)
  | .comprehension _ body => do return Node.arrayOf (← valueOf s none body)
  | .conditional _ value _ fallback => do
    let n ← valueOf s key value
    return if fallback.isNothing then n.asNullable else n
  | .attribute text _ member => do
    let named ← namedNode s.tables.names [some member, key]
    match ← OptionT.lift (s.attributeNode text) with
    | some declared => return declaredOrNamed declared named
    | none => return named
  | .subscript _ element => do return (← namedNode s.tables.names [element, key])
  | .name n =>
    let named : OptionT m Node := do return (← namedNode s.tables.names [some n, key])
    match s.bound n with
    | some b => b.value key <|> named
    | none => named
  | .call _ function positional keywords =>
    let callee := function.text
    match s.tables.ownWrapper? callee with
    | some w => do
      return (← includedValue s.tables.names w key positional fun place => valueAt s key place positional)
    | none =>
      if mapsElements callee positional then do return Node.arrayOf (← mappedValue s positional)
      else if callee == "dict" then
        dictionaryCall positional (shapeOfFirst s positional) (keywordEntries s keywords) <|>
          return Node.objectOf []
      else do
        match ← sequenceValue s key callee positional with
        | some n => return n
        | none => resourceOf s function <|> (do return (← calledNode s.tables.names callee key))
  | _ => failure

def valueOfFirst (s : Scope m) : List Expr → OptionT m Node
  | [] => return Node.string
  | e :: _ => valueOf s none e

/-- The type of the elements that a function makes, which is the first argument. -/
def mappedValue (s : Scope m) : List Expr → OptionT m Node
  | [] => return Node.string
  | .lambda _ body :: _ => valueOf s none body
  | f :: _ => s.classNode f.text <|> return Node.string

def sequenceValue (s : Scope m) (key : Option String) (callee : String) :
    List Expr → OptionT m (Option Node)
  | [] => return none
  | e :: _ =>
    if sequenceCalls.contains callee && (e.isCall || e.isComprehension) then do
      let n ← valueOf s key e
      return if n.kind == .array then some n else none
    else return none

/-- The type of the value at a place among some arguments; a function stands for what it gives. -/
def valueAt (s : Scope m) (key : Option String) : Nat → List Expr → m Node
  | _, [] => return Node.string
  | 0, .lambda _ body :: _ => do return ((← (valueOf s key body).run).getD Node.string)
  | 0, e :: _ => do return ((← (valueOf s key e).run).getD Node.string)
  | n + 1, _ :: rest => valueAt s key n rest

end

/-! ## Bodies -/

structure Body (m : Type → Type) where
  tables : Tables
  resolvers : Resolvers m
  bindings : Entries Expr
  updates : List Update

def Body.updatesOf (b : Body m) (name : String) : List (EntryKey × Expr) :=
  (b.updates.filter (·.holder == name)).flatMap (·.entries)

/-- What a name is bound to while some names are being looked through; at most `n` names are nested. -/
def Body.binding? (b : Body m) : Nat → List String → String → Option (Binding m)
  | 0, _, _ => none
  | n + 1, expanding, name =>
    if expanding.contains name then none
    else
      let scope : Scope m := ⟨b.tables, b.resolvers, b.binding? n (name :: expanding)⟩
      (b.bindings.get? name).map fun
        | .dictionary _ entries =>
          let object := fun () => do
            return Node.objectOf (Entries.ofPairs (← entriesOf scope (entries ++ b.updatesOf name)))
          { shape := fun () => OptionT.lift (object ())
            value := fun _ => OptionT.lift (object ())
            entries := fun () => entriesOf scope entries }
        | e =>
          { shape := fun () => shapeOf scope e
            value := fun key => valueOf scope (key.filter (!·.isEmpty) <|> some name) e
            entries := fun () => return [] }

def Body.scope (b : Body m) : Scope m :=
  ⟨b.tables, b.resolvers, b.binding? b.bindings.length []⟩

def firstShape (s : Scope m) : List Expr → m (Option Node)
  | [] => return none
  | e :: rest => do
    match ← (shapeOf s e).run with
    | some n => return some n
    | none => firstShape s rest

def shapeIn (tables : Tables) (resolvers : Resolvers m) (body : Source.Tree) : m (Option Node) :=
  let b : Body m := ⟨tables, resolvers, bindingsOf body, updatesIn body⟩
  firstShape b.scope ((producedIn body).map Expr.ofTree)

end

end ApiSchema.Shape
