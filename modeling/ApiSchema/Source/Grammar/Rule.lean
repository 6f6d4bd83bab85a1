import ApiSchema.Source.Tree

/-!
Grammars as data. A rule says what a part of a text is made of; it may give a part a role, another
form, or a precedence that settles where it ends. Every form of a syntax tree has a rule, and so has
every group, which is a part that the tree does not show.
-/
namespace ApiSchema.Source.Grammar

inductive Terminal where
  | word (text : String)
  | mark (text : String)
  | identifier
  | integer
  | float
  | escape
  /-- A backslash of a string literal that starts no escape sequence. -/
  | backslash
  | conversion
  | formatText
  | comment
  /-- A backslash and the end of the line after it. -/
  | continuation
  | newline
  | indent
  | dedent
  | stringStart
  | stringText
  | braceEscape
  | stringEnd
  | finish
deriving DecidableEq, Hashable, Repr

/-- A part of a text that has no form of its own. -/
inductive Group where
  | statement
  | simpleStatements
  | simpleStatement
  | importList
  | namedTarget
  | expressions
  | compoundStatement
  | matchBlock
  | suite
  | simplePattern
  | asPattern
  | listPattern
  | tuplePattern
  | keyValuePattern
  | parameters
  | patterns
  | parameter
  | pattern
  | loopExpression
  | expression
  | primaryExpression
  | notIn
  | isNot
  | leftSide
  | rightSide
  | comprehensionClauses
  | collectionElements
  | collectionSplat
  | fieldExpression
  | keywordIdentifier
deriving DecidableEq, Hashable, Repr

inductive Name where
  | form (f : Form)
  | group (g : Group)
  /-- One or more repetitions of a part, by their place among all repetitions. -/
  | repetition (index : Nat)
  | start
deriving DecidableEq, Hashable, Repr

inductive Associativity where
  | left
  | right
deriving DecidableEq, Hashable, Repr

inductive Rule where
  | empty
  | token (t : Terminal)
  | name (n : Name)
  | seq (first second : Rule)
  | choice (first second : Rule)
  | many (r : Rule)
  /-- Of two ways to go on, the one of higher precedence is taken. -/
  | ranked (precedence : Int) (associativity : Option Associativity) (r : Rule)
  /-- Of two readings of a whole text, the one of higher weight is taken. -/
  | weighted (weight : Int) (r : Rule)
  | role (role : Role) (r : Rule)
  /-- A part that the tree shows in another form. -/
  | shown (form : Form) (r : Rule)
deriving DecidableEq, Hashable, Repr

namespace Rule

def mark (text : String) : Rule := token (.mark text)

def word (text : String) : Rule := token (.word text)

def form (f : Form) : Rule := name (.form f)

def group (g : Group) : Rule := name (.group g)

def all : List Rule → Rule
  | [] => empty
  | [r] => r
  | r :: rs => seq r (all rs)

def oneOf : List Rule → Rule
  | [] => empty
  | [r] => r
  | r :: rs => choice r (oneOf rs)

def optional (r : Rule) : Rule := choice r empty

def any (r : Rule) : Rule := choice (many r) empty

/-- One or more of a part, with a separator between them. -/
def separated (separator : String) (r : Rule) : Rule := seq r (any (seq (mark separator) r))

def commaSeparated (r : Rule) : Rule := separated "," r

def prec (p : Int) (r : Rule) : Rule := ranked p none r

def leftAssociative (p : Int) (r : Rule) : Rule := ranked p (some .left) r

def rightAssociative (p : Int) (r : Rule) : Rule := ranked p (some .right) r

end Rule
end ApiSchema.Source.Grammar
