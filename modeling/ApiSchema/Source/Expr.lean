import ApiSchema.Source.Definition

/-!
Expressions, as far as their form tells what value they give. Every expression keeps its source text,
calls have their arguments sorted by position and by name, and a dictionary is the list of its
entries. Main definition: `Expr.ofTree`, the expression of a syntax tree.
-/
namespace ApiSchema.Source

inductive EntryKey where
  | named (key : String)
  | computed
  /-- All entries of the value are taken over. -/
  | splat
deriving DecidableEq, Repr

inductive Expr where
  | name (text : String)
  /-- A string literal, with its text if that is known. -/
  | string (text : String) (value : Option String)
  | integer (text : String)
  | float (text : String)
  /-- A truth value or a test. -/
  | truth (text : String)
  | nothing (text : String)
  | sign (text : String) (operand : Expr)
  | binary (text : String) (operator : String) (left right : Expr)
  | enclosed (text : String) (inner : Expr)
  | awaited (text : String) (inner : Expr)
  | list (text : String) (elements : List Expr)
  | tuple (text : String) (elements : List Expr)
  | set (text : String) (elements : List Expr)
  | several (text : String) (elements : List Expr)
  /-- Elements that are made in a loop. -/
  | comprehension (text : String) (body : Expr)
  | dictionary (text : String) (entries : List (EntryKey × Expr))
  | dictionaryComprehension (text : String)
  | conditional (text : String) (value condition fallback : Expr)
  | attribute (text : String) (object : Expr) (member : String)
  /-- An element, with its key if that is a literal text. -/
  | subscript (text : String) (key : Option String)
  | call (text : String) (function : Expr) (positional : List Expr) (keywords : List (String × Expr))
  | lambda (text : String) (body : Expr)
  | other (text : String)

namespace Expr

def text : Expr → String
  | .name t | .string t _ | .integer t | .float t | .truth t | .nothing t | .sign t _ | .binary t _ _ _
  | .enclosed t _ | .awaited t _ | .list t _ | .tuple t _ | .set t _ | .several t _ | .comprehension t _
  | .dictionary t _ | .dictionaryComprehension t | .conditional t _ _ _ | .attribute t _ _ | .subscript t _
  | .call t _ _ _ | .lambda t _ | .other t => t

instance : Inhabited Expr := ⟨.other ""⟩

def stringValue? : Expr → Option String
  | .string _ v => v
  | _ => none

def isString : Expr → Bool
  | .string _ _ => true
  | _ => false

def isNothing : Expr → Bool
  | .nothing _ => true
  | _ => false

def isLambda : Expr → Bool
  | .lambda _ _ => true
  | _ => false

def isCall : Expr → Bool
  | .call _ _ _ _ => true
  | _ => false

def isComprehension : Expr → Bool
  | .comprehension _ _ => true
  | _ => false

def entries? : Expr → Option (List (EntryKey × Expr))
  | .dictionary _ es => some es
  | _ => none

def isTest : Form → Bool
  | .trueLiteral | .falseLiteral | .notOperator | .comparison | .booleanOperator => true
  | _ => false

/-- The first child in a role, as an expression; a missing one is nothing that is known. -/
def orOther (e : Option Expr) : Expr := e.getD (.other "")

mutual

def ofTree : Tree → Expr
  | .node form role span text children =>
    match form, children with
    | .identifier, _ => .name text
    | .string, _
    | .concatenatedString, _ => .string text (Source.stringValue? (.node form role span text children))
    | .integer, _ => .integer text
    | .float, _ => .float text
    | .noneLiteral, _ => .nothing text
    | .unaryOperator, cs => .sign text (orOther (ofRole .argument cs))
    | .binaryOperator operator, cs =>
      .binary text operator (orOther (ofRole .left cs)) (orOther (ofRole .right cs))
    | .parenthesized, inner :: _ => .enclosed text (ofTree inner)
    | .await, inner :: _ => .awaited text (ofTree inner)
    | .list, es => .list text (ofTrees es)
    | .tuple, es => .tuple text (ofTrees es)
    | .set, es => .set text (ofTrees es)
    | .expressionList, es => .several text (ofTrees es)
    | .listComprehension, cs | .setComprehension, cs
    | .generatorExpression, cs => .comprehension text (orOther (ofRole .body cs))
    | .dictionary, es => .dictionary text (ofEntries es)
    | .dictionaryComprehension, _ => .dictionaryComprehension text
    | .conditional, value :: condition :: fallback :: _ =>
      .conditional text (ofTree value) (ofTree condition) (ofTree fallback)
    | .attribute, cs =>
      .attribute text (orOther (ofRole .object cs)) (Tree.textIn .attribute cs)
    | .subscript, cs => .subscript text ((Tree.inRole? .subscript cs).bind Source.stringValue?)
    | .call, cs =>
      let (positional, keywords) := ofCallArguments cs
      .call text (orOther (ofRole .function cs)) positional keywords
    | .lambda, cs => .lambda text (orOther (ofRole .body cs))
    | _, _ => if isTest form then .truth text else .other text

def ofTrees : List Tree → List Expr
  | [] => []
  | t :: ts => ofTree t :: ofTrees ts

def ofRole (r : Role) : List Tree → Option Expr
  | [] => none
  | t :: ts => if t.role == some r then some (ofTree t) else ofRole r ts

def ofEntries : List Tree → List (EntryKey × Expr)
  | [] => []
  | .node .pair _ _ _ parts :: rest =>
    let key := ((Tree.inRole? .key parts).bind Source.stringValue?).map EntryKey.named
    (key.getD .computed, orOther (ofRole .value parts)) :: ofEntries rest
  | .node .dictionarySplat _ _ _ (inner :: _) :: rest => (.splat, ofTree inner) :: ofEntries rest
  | _ :: rest => ofEntries rest

/-- The arguments among the parts of a call. A generator is the only argument of its call. -/
def ofCallArguments : List Tree → List Expr × List (String × Expr)
  | [] => ([], [])
  | .node form role _ text parts :: rest =>
    if role == some .arguments then
      if form == .generatorExpression then ([.comprehension text (orOther (ofRole .body parts))], [])
      else ofArguments [] [] parts
    else ofCallArguments rest

/-- Arguments after those already read. Splats are left out, and of two arguments with one name the
last counts. -/
def ofArguments (positional : List Expr) (keywords : Entries Expr) :
    List Tree → List Expr × List (String × Expr)
  | [] => (positional, keywords)
  | .node .keywordArgument _ _ _ parts :: rest =>
    ofArguments positional (keywords.set (Tree.textIn .name parts) (orOther (ofRole .value parts))) rest
  | .node form role span text children :: rest =>
    if isSplat form then ofArguments positional keywords rest
    else ofArguments (positional ++ [ofTree (.node form role span text children)]) keywords rest

end

end Expr

/-! ## Bodies -/

def produced? (t : Tree) : Option Tree :=
  if t.form == .returnStatement || t.form == .yield then t.children.head? else none

/-- The expressions that a body returns or yields, in order. A yield from another producer gives
none. -/
def producedIn (body : Tree) : List Tree := body.walkScope.filterMap produced?

def bindingStep (acc : Entries Expr) (t : Tree) : Entries Expr :=
  match t.form, t.child? .left, t.child? .right with
  | .assignment, some left, some right =>
    if left.form == .identifier then Entries.setDefault acc left.text (Expr.ofTree right) else acc
  | _, _, _ => acc

def bindingsOf (body : Tree) : Entries Expr := body.walkScope.foldl bindingStep []

/-- Entries that a body sets in the dictionary that something holds. -/
structure Update where
  holder : String
  entries : List (EntryKey × Expr)

/-- The entries that are set by an assignment to an element, or merged in by a call. -/
def updateOf? (t : Tree) : Option Update :=
  match t.form with
  | .assignment => do
    let left ← t.child? .left
    if left.form != .subscript then none
    let key ← (left.child? .subscript).bind stringValue?
    let value := ((t.child? .right).map Expr.ofTree).getD (.other "")
    return ⟨left.childText .value, [(.named key, value)]⟩
  | .call =>
    let callee := t.childText .function
    if Text.endsWith callee ".update" then
      let arguments := argumentsOf t
      let merged := ((arguments.positional.head?.map Expr.ofTree).bind Expr.entries?).getD []
      some ⟨Text.take (callee.length - 7) callee,
        merged ++ arguments.keywords.map fun e => (.named e.1, Expr.ofTree e.2)⟩
    else none
  | _ => none

def updatesIn (body : Tree) : List Update := body.walkScope.filterMap updateOf?

end ApiSchema.Source
