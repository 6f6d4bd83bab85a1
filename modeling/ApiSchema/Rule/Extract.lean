import ApiSchema.Rule.Token
import ApiSchema.Source.Definition

/-!
Rule sets that source code declares: the dictionary that a rules method returns, the one assigned in
a class, or the one handed to a validating call. A dictionary may take over the entries of others, by
their names or from the rules of an ancestor.

What is declared is listed entry by entry in the order in which it is written, and of two entries for
one field the last counts. So a dictionary bound to a name is listed once, from the dictionaries that
are bound before it.
-/
namespace ApiSchema.Rule

open Source Text

abbrev RuleSet := Entries (List Token)

inductive Declared where
  | token (t : Token)
  /-- One of the values of an enumeration, by the name it has where the rule is written. -/
  | enumeration (name : String)

abbrev Declaration := String × List Declared

/-! ## Rules of a field -/

def valueText (t : Source.Tree) : String :=
  match stringValue? t with
  | some s => if s.isEmpty then t.text else s
  | none => t.text

def isSequence (f : Form) : Bool := f == .list || f == .tuple

/-- The rules that a call stands for: one of some values, the values of an enumeration, or a password. -/
def declaredByCall (t : Source.Tree) : List Declared :=
  let callee := t.childText .function
  let base := lower (stripRightOf (· == '_') (lastSegment callee))
  let positional := (argumentsOf t).positional
  let first := positional.head?
  match base, first with
  | "in", some first =>
    let values := if isSequence first.form then first.children else positional
    [.token { name := "in", params := values.map valueText }]
  | "enum", some first => [.enumeration first.text]
  | _, _ =>
    if !contains (lower callee) "password" then []
    else
      .token { name := "password" } ::
        match base, first with
        | "min", some first => [.token { name := "min", params := [first.text] }]
        | _, _ => []

def declaredByElement (t : Source.Tree) : List Declared :=
  match stringValue? t with
  | some s => [.token (.parse s)]
  | none => if t.form == .call then declaredByCall t else []

def declaredBy (t : Source.Tree) : List Declared :=
  match stringValue? t with
  | some s => (parseLine s).map .token
  | none =>
    if isSequence t.form then t.children.flatMap declaredByElement
    else if t.form == .call then declaredByCall t
    else []

def declaredByValue (value : Option Source.Tree) : List Declared := (value.map declaredBy).getD []

/-! ## Dictionaries -/

/-- A dictionary bound to a name: where it ends and what it declares. -/
structure Bound where
  name : String
  stop : Nat
  declared : List Declaration

/-- The last dictionary that is bound to a name before the name is used. -/
def boundBefore (known : List Bound) (t : Source.Tree) : Option Bound :=
  if t.form == .identifier then
    (known.filter fun b => b.name == t.text && b.stop ≤ t.span.start).getLast?
  else none

def ancestorCall : String := "super()"

mutual

def declaredIn (inherited : List Declaration) (known : List Bound) : List Source.Tree → List Declaration
  | [] => []
  | .node .dictionarySplat _ _ _ (target :: _) :: rest =>
    declaredBySplat inherited known target ++ declaredIn inherited known rest
  | .node .pair role span text parts :: rest =>
    let pair := Source.Tree.node .pair role span text parts
    match (pair.child? .key).bind stringValue? with
    | some key => (key, declaredByValue (pair.child? .value)) :: declaredIn inherited known rest
    | none => declaredIn inherited known rest
  | _ :: rest => declaredIn inherited known rest

/-- What the entries declare that a dictionary takes over. -/
def declaredBySplat (inherited : List Declaration) (known : List Bound) : Source.Tree → List Declaration
  | .node form role span text children =>
    if startsWith text ancestorCall then inherited
    else match form with
      | .identifier => ((boundBefore known (.node form role span text children)).map (·.declared)).getD []
      | .dictionary => declaredIn inherited known children
      | _ => []

end

/-- The dictionaries known after a part of a body. -/
def bindStep (inherited : List Declaration) (known : List Bound) (t : Source.Tree) : List Bound :=
  match t.form, t.child? .left, t.child? .right with
  | .assignment, some left, some right =>
    if left.form == .identifier && right.form == .dictionary then
      known ++ [⟨left.text, right.span.stop, declaredIn inherited known right.children⟩]
    else known
  | _, _, _ => known

def boundIn (inherited : List Declaration) (body : Source.Tree) : List Bound :=
  body.walkScope.foldl (bindStep inherited) []

/-- What a part of a body declares for a variable after it is bound. -/
def updateStep (known : List Bound) (name : String) (t : Source.Tree) : List Declaration :=
  match t.form with
  | .assignment =>
    match t.child? .left with
    | some left =>
      if left.form == .subscript && left.childText .value == name then
        match (left.child? .subscript).bind stringValue? with
        | some key => [(key, declaredByValue (t.child? .right))]
        | none => []
      else []
    | none => []
  | .call =>
    match (argumentsOf t).positional with
    | first :: _ =>
      if t.childText .function == name ++ ".update" && first.form == .dictionary then
        declaredIn [] known first.children
      else []
    | [] => []
  | _ => []

/-- What a body declares for a variable after it is bound: entries that are set one by one, and
dictionaries that are merged in. -/
def updatesOf (body : Source.Tree) (name : String) : List Declaration :=
  body.walkScope.flatMap (updateStep (boundIn [] body) name)

/-! ## Classes and functions -/

/-- What a part of a body declares by returning it. -/
def returned? (inherited : List Declaration) (body t : Source.Tree) : Option (List Declaration) :=
  match t.form, t.children with
  | .returnStatement, value :: _ =>
    match boundBefore (boundIn inherited body) value with
    | some bound => some (bound.declared ++ updatesOf body value.text)
    | none =>
      if value.form == .dictionary then some (declaredIn inherited (boundIn inherited body) value.children) else none
  | _, _ => none

/-- What a rules method declares by the first dictionary it returns. -/
def declaredByMethod (inherited : List Declaration) (body : Source.Tree) : Option (List Declaration) :=
  body.walkScope.findSome? (returned? inherited body)

/-- What the nearest class of a chain declares that declares rules at all. -/
def declaredByClasses (method : String) : List Source.Class → Option (List Declaration)
  | [] => none
  | c :: ancestors =>
    let inherited := declaredByClasses method ancestors
    match c.methods.get? method, c.assignments.get? method with
    | some f, _ => f.body.bind (declaredByMethod (inherited.getD []))
    | none, some t =>
      if t.form == .dictionary then some (declaredIn (inherited.getD []) [] t.children) else inherited
    | none, none => inherited

def validateCalls : List String := ["validate", "validate_request", "validate_data", "make", "validator"]

/-- What a function declares by the first dictionary that it hands to a validating call. -/
def declaredByFunction (f : Function) : Option (List Declaration) := do
  let body ← f.body
  let known := boundIn [] body
  body.walkScope.findSome? fun t =>
    if t.form == .call && validateCalls.contains (lastSegment (t.childText .function)) then
      let arguments := argumentsOf t
      let named := ["rules", "schema"].filterMap arguments.keywords.get?
      (named ++ arguments.positional).findSome? fun a =>
        if a.form == .dictionary then some (declaredIn [] known a.children)
        else (boundBefore known a).map (·.declared)
    else none

/-! ## Rule sets -/

section

variable {m : Type → Type} [Monad m]

/-- A declared rule, with the name of an enumeration resolved. -/
def Declared.resolve (resolve : String → m String) : Declared → m Token
  | .token t => return t
  | .enumeration name => return { name := "enum", params := [← resolve name] }

def resolveAll (resolve : String → m String) (declarations : List Declaration) : m RuleSet :=
  declarations.foldlM (fun (acc : RuleSet) (path, rules) => do
    return acc.set path (← rules.mapM (Declared.resolve resolve))) []

end

end ApiSchema.Rule
