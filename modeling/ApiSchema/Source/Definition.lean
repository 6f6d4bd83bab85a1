import ApiSchema.Source.Import
import ApiSchema.Source.Literal
import ApiSchema.Source.Parser
import ApiSchema.Text.Lines

/-!
Classes, functions and imports of a module, read from its syntax tree. Definitions count at module
level and inside the branches of conditions and exception handlers there; a later definition takes
the place of an earlier one of its name.
-/
namespace ApiSchema.Source

open Text

/-! ## Calls -/

structure Call where
  name : String
  args : List Value := []
  kwargs : Entries Value := []

def Call.baseName (c : Call) : String := lastSegment c.name

/-- Splats are left out of the arguments. -/
def isSplat (f : Form) : Bool := f == .listSplat || f == .dictionarySplat

def Call.withArguments (c : Call) : List Tree → Except Fault Call
  | [] => return c
  | t :: ts => do
    match t.form with
    | .keywordArgument =>
      let value ← ((t.child? .value).map literalValue).getD (return .null)
      Call.withArguments { c with kwargs := c.kwargs.set (t.childText .name) value } ts
    | .listSplat | .dictionarySplat => c.withArguments ts
    | _ => Call.withArguments { c with args := c.args ++ [← literalValue t] } ts

def call? (t : Tree) : Except Fault (Option Call) :=
  match t.form with
  | .call => do
    let arguments := ((t.child? .arguments).map Tree.children).getD []
    return some (← Call.withArguments { name := t.childText .function } arguments)
  | _ => return none

structure Arguments where
  positional : List Tree := []
  keywords : Entries Tree := []

def argumentsOf (t : Tree) : Arguments :=
  match t.child? .arguments with
  | none => {}
  | some arguments =>
    if arguments.form == .generatorExpression then { positional := [arguments] }
    else arguments.children.foldl (fun acc a =>
      if a.form == .keywordArgument then
        match a.child? .value with
        | some value => { acc with keywords := acc.keywords.set (a.childText .name) value }
        | none => acc
      else if isSplat a.form then acc
      else { acc with positional := acc.positional ++ [a] }) {}

/-! ## Definitions -/

structure Parameter where
  name : String
  typeText : Option String := none
  default : Option String := none
  variadic : Bool := false

structure Field where
  name : String
  typeText : String
  line : Nat
  hasDefault : Bool := false
  default : Value := .null
  call : Option Call := none

structure Function where
  name : String
  qualifiedName : String
  parameters : List Parameter
  body : Option Tree
  lineStart : Nat
  lineEnd : Nat
  returnType : Option String := none
  decorators : List Call := []
  docstring : Option String := none
  owner : Option String := none
  isAsync : Bool := false

structure Class where
  name : String
  qualifiedName : String
  bases : List String
  lineStart : Nat
  lineEnd : Nat
  decorators : List Call := []
  fields : List Field := []
  methods : Entries Function := []
  /-- Assignments without an annotation, by their right sides. -/
  assignments : Entries Tree := []
  docstring : Option String := none

structure Module where
  name : String
  imports : Imports := {}
  classes : Entries Class := []
  functions : Entries Function := []
  /-- Whether part of the text could not be read. -/
  incomplete : Bool := false
  isPackage : Bool := false

def qualify (scope name : String) : String :=
  if scope.isEmpty then name else scope ++ "." ++ name

/-- The values of the members of an enumeration, in order. A member that is numbered by `auto`
counts as its name in lower case; private members and containers are left out. -/
def Class.members (c : Class) : Except Fault (List Value) := do
  let found ← c.assignments.mapM fun (name, t) => do
    if name.startsWith "_" then return []
    match ← literalValue t with
    | .expr _ =>
      if t.form == .call && endsWith (t.childText .function) "auto" then return [Value.str (lower name)]
      return []
    | .list _ | .dict _ => return []
    | v => return [v]
  return found.flatten

def Class.assignedCall (c : Class) (name : String) : Except Fault (Option Call) :=
  match c.assignments.get? name with
  | some t => call? t
  | none => return none

/-! ## Reading definitions -/

def docstringOf (body : Option Tree) : Option String := do
  let first ← (← body).children.head?
  if first.form != .expressionStatement then none
  let inner ← first.children.head?
  if inner.form != .string then none
  let value ← stringValue? inner
  if value.isEmpty then none
  return tidy value

def dropStars (s : String) : String := stripLeftOf (· == '*') s

def isSplatPattern (f : Form) : Bool := f == .listSplatPattern || f == .dictionarySplatPattern

def parameterOf? (t : Tree) : Option Parameter :=
  match t.form with
  | .identifier => some { name := t.text }
  | .typedParameter | .typedDefaultParameter | .defaultParameter =>
    let named := (t.child? .name).or t.children.head?
    some {
      name := dropStars ((named.map Tree.text).getD "")
      typeText := (t.child? .type).map Tree.text
      default := (t.child? .value).map Tree.text
      variadic := named.any (isSplatPattern ·.form) }
  | .listSplatPattern | .dictionarySplatPattern =>
    some { name := dropStars t.text, variadic := true }
  | _ => none

def isFunction (f : Form) : Bool := f == .functionDefinition || f == .asyncFunctionDefinition

def functionOf (t : Tree) (decorators : List Call) (scope : String) (owner : Option String) :
    Function :=
  let name := t.childText .name
  let body := t.child? .body
  { name
    qualifiedName := qualify scope name
    parameters := (((t.child? .parameters).map Tree.children).getD []).filterMap parameterOf?
    body
    lineStart := t.span.line
    lineEnd := t.span.endLine
    returnType := (t.child? .returnType).map Tree.text
    decorators
    docstring := docstringOf body
    owner
    isAsync := t.form == .asyncFunctionDefinition }

def decoratorOf (t : Tree) : Except Fault Call :=
  match t.children with
  | e :: _ => do return (← call? e).getD { name := e.text }
  | [] => return { name := "" }

/-- The definition under some decorators, with the decorators. -/
def undecorated (t : Tree) : Except Fault (Option Tree × List Call) :=
  if t.form == .decoratedDefinition then do
    let decorators ← (t.children.filter (·.form == .decorator)).mapM decoratorOf
    return (t.child? .definition, decorators)
  else return (some t, [])

def fieldCalls : List String := ["Field", "field", "attrib", "ib"]

def isEllipsis : Value → Bool
  | .ellipsis => true
  | _ => false

/-- Whether the right side of a declaration gives a default. A field call gives one by a keyword or
by its first argument, and an ellipsis stands for none. -/
def givesDefault : Option Call → Bool
  | none => true
  | some c =>
    if !fieldCalls.contains c.baseName then true
    else if c.kwargs.has "default" || c.kwargs.has "default_factory" then
      !(c.kwargs.get? "default").any isEllipsis
    else match c.args with
      | v :: _ => !isEllipsis v
      | [] => false

def Class.withAssignment (c : Class) (t : Tree) : Except Fault Class := do
  match t.child? .left with
  | some left =>
    if left.form != .identifier then return c
    match t.child? .type, t.child? .right with
    | none, some right => return { c with assignments := c.assignments.set left.text right }
    | none, none => return c
    | some type, none =>
      return { c with fields := c.fields ++ [{ name := left.text, typeText := type.text, line := t.span.line }] }
    | some type, some right =>
      let call ← call? right
      let field : Field := {
        name := left.text, typeText := type.text, line := t.span.line
        call, default := ← literalValue right, hasDefault := givesDefault call }
      return { c with fields := c.fields ++ [field] }
  | none => return c

def Class.withStatement (c : Class) (t : Tree) : Except Fault Class := do
  if t.form == .expressionStatement then
    (t.children.filter (·.form == .assignment)).foldlM Class.withAssignment c
  else
    match ← undecorated t with
    | (some definition, decorators) =>
      if isFunction definition.form then
        let f := functionOf definition decorators c.qualifiedName (some c.qualifiedName)
        return { c with methods := c.methods.set f.name f }
      else return c
    | (none, _) => return c

def classOf (t : Tree) (decorators : List Call) (scope : String) : Except Fault Class := do
  let name := t.childText .name
  let supers := ((t.child? .superclasses).map Tree.children).getD []
  let body := t.child? .body
  let start : Class := {
    name
    qualifiedName := qualify scope name
    bases := (supers.filter (·.form != .keywordArgument)).map Tree.text
    lineStart := t.span.line
    lineEnd := t.span.endLine
    decorators
    docstring := docstringOf body }
  ((body.map Tree.children).getD []).foldlM Class.withStatement start

/-! ## Reading modules -/

def withImport (i : Imports) (t : Tree) : Imports :=
  t.children.foldl (fun acc c =>
    match c.form with
    | .dottedName => acc.add (firstSegment c.text) (firstSegment c.text)
    | .aliasedImport => acc.add (c.childText .localName) (c.childText .name)
    | _ => acc) i

def importSource (moduleName : String) (isPackage : Bool) (m : Tree) : String :=
  if m.form == .relativeImport then
    let name := stripLeftOf (· == '.') m.text
    let importer := if isPackage then moduleName ++ ".__init__" else moduleName
    relativeModule importer name (m.text.length - name.length)
  else m.text

def withImportFrom (i : Imports) (moduleName : String) (isPackage : Bool) (t : Tree) : Imports :=
  match t.child? .moduleName with
  | none => i
  | some m =>
    let source := importSource moduleName isPackage m
    t.children.foldl (fun acc c =>
      if c.role == some .moduleName then acc
      else match c.form with
        | .dottedName => acc.add c.text (qualify source c.text)
        | .aliasedImport => acc.add (c.childText .localName) (qualify source (c.childText .name))
        | .wildcardImport => acc.addWildcard source
        | _ => acc) i

/-- The module with a class or function. A definition without a name is left out. -/
def Module.withDefinition (m : Module) (t : Tree) : Except Fault Module := do
  match ← undecorated t with
  | (some definition, decorators) =>
    if !Lexer.isName (definition.childText .name) then return m
    else if definition.form == .classDefinition then
      let c ← classOf definition decorators m.name
      return { m with classes := m.classes.set c.name c }
    else if isFunction definition.form then
      let f := functionOf definition decorators m.name none
      return { m with functions := m.functions.set f.name f }
    else return m
  | (none, _) => return m

mutual

/-- The module with a statement; conditions and handlers are entered. -/
def Module.withStatement (m : Module) : Tree → Except Fault Module
  | .node form role span text children =>
    let self := Tree.node form role span text children
    match form with
    | .importStatement => return { m with imports := withImport m.imports self }
    | .importFromStatement =>
      return { m with imports := withImportFrom m.imports m.name m.isPackage self }
    | .ifStatement | .tryStatement | .block | .elseClause | .exceptClause => m.withStatements children
    | _ => m.withDefinition self

def Module.withStatements (m : Module) : List Tree → Except Fault Module
  | [] => return m
  | t :: ts => do Module.withStatements (← m.withStatement t) ts

end

inductive ReadError where
  /-- A zero byte near its start. -/
  | binary
  | malformed
  /-- A literal without a value. -/
  | fault (f : Fault)

/-- What went wrong at a place; a fault has no message of its own. -/
def ReadError.message? (place : String) : ReadError → Option String
  | .binary => some ("Binary content in " ++ place)
  | .malformed => some ("Syntax error in " ++ place)
  | .fault _ => none

def unnamedPlace : String := "<string>"

/-- How many bytes at the start of a text show whether it is binary. -/
def binaryWindow : Nat := 8192

/-- The module of a source text. With `allowPartial`, the statements before the first one that
cannot be read count. -/
def readModule (bytes : List Nat) (moduleName : String) (isPackage allowPartial : Bool) :
    Except ReadError Module := do
  if (bytes.take binaryWindow).contains 0 then throw .binary
  let parsed := parse (ofBytes bytes)
  if !parsed.complete && !allowPartial then throw .malformed
  let start : Module := { name := moduleName, isPackage, incomplete := !parsed.complete }
  (start.withStatements parsed.statements).mapError .fault

end ApiSchema.Source
