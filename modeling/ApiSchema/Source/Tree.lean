import ApiSchema.Text.Cut

/-!
Syntax trees. A tree has a form, the role it plays in its parent, its place in the source and its
children; punctuation, keywords and comments are left out. `walkScope` lists the descendants that belong to
the scope of a tree: it yields a nested function, class or lambda and does not enter it.
-/
namespace ApiSchema.Source

inductive Form where
  | module
  | block
  -- imports
  | importStatement
  | importDots
  | relativeImport
  | futureImportStatement
  | importFromStatement
  | aliasedImport
  | wildcardImport
  | dottedName
  -- simple statements
  | printStatement
  | printTarget
  | assertStatement
  | expressionStatement
  | returnStatement
  | deleteStatement
  | raiseStatement
  | passStatement
  | breakStatement
  | continueStatement
  | globalStatement
  | nonlocalStatement
  | execStatement
  | typeAliasStatement
  | assignment
  | augmentedAssignment
  -- compound statements
  | ifStatement
  | elifClause
  | elseClause
  | forStatement
  | whileStatement
  | tryStatement
  | exceptClause
  | finallyClause
  | withStatement
  | withClause
  | withItem
  | matchStatement
  | caseClause
  | functionDefinition
  | asyncFunctionDefinition
  | classDefinition
  | decoratedDefinition
  | decorator
  -- patterns of cases
  | casePattern
  | unionPattern
  | dictionaryPattern
  | keywordPattern
  | splatPattern
  | classPattern
  | complexPattern
  -- parameters and targets
  | parameters
  | lambdaParameters
  | defaultParameter
  | typedParameter
  | typedDefaultParameter
  | keywordSeparator
  | positionalSeparator
  | listSplatPattern
  | dictionarySplatPattern
  | tuplePattern
  | listPattern
  | patternList
  -- types
  | typeNode
  | typeParameters
  | genericType
  | splatType
  | unionType
  | constrainedType
  | memberType
  -- expressions
  | identifier
  | integer
  | float
  | string
  | stringStart
  | stringContent
  | stringEnd
  | braceEscape
  | escapeSequence
  | interpolation
  | conversion
  | formatSpecification
  | formatField
  | concatenatedString
  | trueLiteral
  | falseLiteral
  | noneLiteral
  | ellipsis
  | list
  | listComprehension
  | set
  | setComprehension
  | dictionary
  | dictionaryComprehension
  | pair
  | dictionarySplat
  | listSplat
  | parenthesizedSplat
  | tuple
  | parenthesized
  | generatorExpression
  | forInClause
  | ifClause
  | expressionList
  | attribute
  | subscript
  | slice
  | call
  | argumentList
  | keywordArgument
  | unaryOperator
  | binaryOperator (operator : String)
  | comparison
  | notOperator
  | booleanOperator
  | conditional
  | lambda
  | loopLambda
  | namedExpression
  | asPattern
  | asPatternTarget
  | await
  | yield
  | yieldFrom
  /-- A backslash and the end of the line after it. -/
  | lineContinuation
deriving DecidableEq, Hashable, Repr

inductive Role where
  | name
  | value
  | key
  | left
  | right
  | type
  | subscript
  | body
  | function
  | arguments
  | object
  | attribute
  | argument
  | superclasses
  | parameters
  | returnType
  | definition
  | localName
  | moduleName
  | subject
  | alternative
deriving DecidableEq, Hashable, Repr

/-- A place in the source: offsets of its first character and of the one after its last, and the
lines of both. -/
structure Span where
  start : Nat
  stop : Nat
  line : Nat
  endLine : Nat
deriving DecidableEq, Repr

inductive Tree where
  | node (form : Form) (role : Option Role) (span : Span) (text : String) (children : List Tree)

namespace Tree

def form : Tree → Form
  | .node f _ _ _ _ => f

def role : Tree → Option Role
  | .node _ r _ _ _ => r

def span : Tree → Span
  | .node _ _ s _ _ => s

def text : Tree → String
  | .node _ _ _ t _ => t

def children : Tree → List Tree
  | .node _ _ _ _ cs => cs

instance : Inhabited Tree := ⟨.node .module none ⟨0, 0, 1, 1⟩ "" []⟩

def inRole? (r : Role) (ts : List Tree) : Option Tree := ts.find? fun c => c.role == some r

def textIn (r : Role) (ts : List Tree) : String := ((inRole? r ts).map text).getD ""

def child? (t : Tree) (r : Role) : Option Tree := inRole? r t.children

def childText (t : Tree) (r : Role) : String := textIn r t.children

/-! ## Scopes -/

def opensScope : Form → Bool
  | .functionDefinition | .asyncFunctionDefinition | .lambda | .classDefinition | .decoratedDefinition => true
  | _ => false

mutual

def size : Tree → Nat
  | .node _ _ _ _ cs => 1 + sizeAll cs

def sizeAll : List Tree → Nat
  | [] => 0
  | t :: ts => size t + sizeAll ts

end

theorem sizeAll_append (xs ys : List Tree) : sizeAll (xs ++ ys) = sizeAll xs + sizeAll ys := by
  induction xs with
  | nil => simp [sizeAll]
  | cons x xs ih => simp [sizeAll, ih, Nat.add_assoc]

theorem size_eq (t : Tree) : t.size = 1 + sizeAll t.children := by
  cases t; simp [size, children]

def scopeChildren (t : Tree) : List Tree :=
  if opensScope t.form then [] else t.children

/-- The pending trees and their descendants in the same scope, each one before its children. -/
def walkScopeFrom : List Tree → List Tree
  | [] => []
  | t :: pending => t :: walkScopeFrom (t.scopeChildren ++ pending)
termination_by pending => sizeAll pending
decreasing_by
  rw [sizeAll_append, sizeAll, size_eq]
  unfold scopeChildren
  split
  · rw [sizeAll]; omega
  · omega

/-- The descendants of a tree in source order, without what lies in nested scopes. -/
def walkScope (t : Tree) : List Tree := walkScopeFrom t.children

/-! ## Regular trees -/

mutual

def has (f : Form) : Tree → Bool
  | .node form _ _ _ ts => form == f || anyHas f ts

def anyHas (f : Form) : List Tree → Bool
  | [] => false
  | t :: ts => has f t || anyHas f ts

end

/-- Whether the children of an assignment bind a dictionary to a name. -/
def bindsDictionary (ts : List Tree) : Bool :=
  (inRole? .left ts).any (·.form == .identifier) && (inRole? .right ts).any (·.form == .dictionary)

mutual

/-- Whether a tree can be one of a text: its parts lie one after the other inside of it, a name takes up some place, and
an assignment that binds a dictionary to a name holds no other one. -/
def isRegular : Tree → Bool
  | .node form _ s _ ts =>
    s.start ≤ s.stop && (form != .identifier || s.start < s.stop) &&
      (form != .assignment || !bindsDictionary ts || !anyHas .assignment ts) && areRegular s.start s.stop ts

def areRegular (start stop : Nat) : List Tree → Bool
  | [] => true
  | t :: ts => start ≤ t.span.start && t.span.stop ≤ stop && isRegular t && areRegular t.span.stop stop ts

end

end Tree
end ApiSchema.Source
