import Std.Data.HashMap
import ApiSchema.Source.Grammar.Language

/-!
The productions of the grammar. A rule becomes one production for every way to choose among its
alternatives; a repetition becomes a name of its own, which is one of the repeated parts or two
repetitions side by side; and a group that stands for its alternatives is replaced by them.

Symbols are numbered: the end of the text first, then identifiers, then the other tokens in the
order in which the rules name them, with the tokens of layout and strings last, and then the names in
the order of their rules.
-/
namespace ApiSchema.Source.Grammar

/-! ## Repetitions -/

/-- A rule without repetitions, after the parts that were found to be repeated so far. -/
def Rule.expand (repeated : List Rule) : Rule → Rule × List Rule
  | .seq a b =>
    let (a, repeated) := a.expand repeated
    let (b, repeated) := b.expand repeated
    (.seq a b, repeated)
  | .choice a b =>
    let (a, repeated) := a.expand repeated
    let (b, repeated) := b.expand repeated
    (.choice a b, repeated)
  | .many r =>
    let (r, repeated) := r.expand repeated
    match repeated.findIdx? (· == r) with
    | some i => (.name (.repetition i), repeated)
    | none => (.name (.repetition repeated.length), repeated ++ [r])
  | .ranked p a r =>
    let (r, repeated) := r.expand repeated
    (.ranked p a r, repeated)
  | .weighted w r =>
    let (r, repeated) := r.expand repeated
    (.weighted w r, repeated)
  | .role ρ r =>
    let (r, repeated) := r.expand repeated
    (.role ρ r, repeated)
  | .shown f r =>
    let (r, repeated) := r.expand repeated
    (.shown f r, repeated)
  | .empty => (.empty, repeated)
  | .token t => (.token t, repeated)
  | .name n => (.name n, repeated)

/-- All rules without repetitions, and the parts that are repeated. -/
def expandAll (repeated : List Rule) : List (Name × Rule) → List (Name × Rule) × List Rule
  | [] => ([], repeated)
  | (n, r) :: rest =>
    let (r, repeated) := r.expand repeated
    let (rest, repeated) := expandAll repeated rest
    ((n, r) :: rest, repeated)

def repetitionRule (i : Nat) (part : Rule) : Name × Rule :=
  let self : Rule := .name (.repetition i)
  (.repetition i, .choice (.seq self self) part)

/-- The rules of all names: the given ones first, then those of repetitions, and last that of a
whole text. -/
def expandedRules (given : List (Name × Rule)) : List (Name × Rule) :=
  let (named, repeated) := expandAll [] given
  named ++ repeated.mapIdx repetitionRule ++ [(.start, .name (.form .module))]

/-! ## Symbols -/

def Rule.tokens : Rule → List Terminal
  | .token t => [t]
  | .seq a b | .choice a b => a.tokens ++ b.tokens
  | .many r | .ranked _ _ r | .weighted _ r | .role _ r | .shown _ r => r.tokens
  | .empty | .name _ => []

def layoutTerminals : List Terminal :=
  [.newline, .indent, .dedent, .stringStart, .stringText, .braceEscape, .stringEnd]

/-- All tokens, by number. Comments and continued lines may stand anywhere. -/
def terminalsOf (expanded : List (Name × Rule)) : List Terminal :=
  let used := expanded.flatMap fun (_, r) => r.tokens
  let plain : List Terminal := used.filter fun t => !layoutTerminals.contains t
  let first : List Terminal := [.finish, .identifier]
  let anywhere : List Terminal := [.comment, .continuation]
  (first ++ plain ++ anywhere).eraseDups ++ layoutTerminals

structure Numbering where
  terminals : Array Terminal
  names : Array Name
  terminalNumbers : Std.HashMap Terminal Nat
  nameNumbers : Std.HashMap Name Nat

namespace Numbering

def of (expanded : List (Name × Rule)) : Numbering :=
  let terminals := terminalsOf expanded
  let names := expanded.map Prod.fst
  { terminals := terminals.toArray
    names := names.toArray
    terminalNumbers := Std.HashMap.ofList terminals.zipIdx
    nameNumbers := Std.HashMap.ofList (names.mapIdx fun i n => (n, terminals.length + i)) }

def terminal (s : Numbering) (t : Terminal) : Nat := s.terminalNumbers.getD t 0

def name (s : Numbering) (n : Name) : Nat := s.nameNumbers.getD n 0

def size (s : Numbering) : Nat := s.terminals.size + s.names.size

end Numbering

/-! ## Productions -/

structure Step where
  symbol : Nat
  role : Option Role
  shown : Option Form
  precedence : Option Int
  associativity : Option Associativity
deriving DecidableEq, Hashable, Repr

structure Production where
  name : Nat
  steps : List Step
  weight : Int
deriving DecidableEq, Repr

/-- What the parts around a rule say of the symbols in it. -/
structure Setting where
  role : Option Role := none
  shown : Option Form := none
  precedence : Option Int := none
  associativity : Option Associativity := none

def Setting.step (s : Setting) (symbol : Nat) : Step :=
  ⟨symbol, s.role, s.shown, s.precedence, s.associativity⟩

def changeLast (f : Step → Step) : List Step → List Step
  | [] => []
  | [s] => [f s]
  | s :: rest => s :: changeLast f rest

/-- The weight that counts where two apply: the one farther from zero, else the first. -/
def strongerWeight (a b : Int) : Int := if a.natAbs < b.natAbs then b else a

/-- The ways to choose among the alternatives of a rule, each with its steps and weight. A
precedence holds up to the last step inside it; that step itself has it only where the whole
production ends, which `atEnd` says. -/
def Rule.ways (number : Numbering) (s : Setting) (atEnd : Bool) : Rule → List (List Step × Int)
  | .empty => [([], 0)]
  | .token t => [([s.step (number.terminal t)], 0)]
  | .name n => [([s.step (number.name n)], 0)]
  | .seq a b =>
    (a.ways number s false).flatMap fun (xs, w) =>
      (b.ways number s atEnd).map fun (ys, v) => (xs ++ ys, strongerWeight w v)
  | .choice a b => a.ways number s atEnd ++ b.ways number s atEnd
  | .many r => r.ways number s atEnd
  | .ranked p a r =>
    let inner := { s with precedence := some p, associativity := a <|> s.associativity }
    let restore (x : Step) : Step :=
      { x with
        precedence := s.precedence
        associativity := if a.isSome then s.associativity else x.associativity }
    (r.ways number inner atEnd).map fun (xs, w) => (if atEnd then xs else changeLast restore xs, w)
  | .weighted v r => (r.ways number s atEnd).map fun (xs, w) => (xs, strongerWeight v w)
  | .role ρ r => r.ways number { s with role := some ρ } atEnd
  | .shown f r => r.ways number { s with shown := some f } atEnd

def productionsOf (number : Numbering) : Name × Rule → List Production
  | (n, r) =>
    ((r.ways number {} true).map fun (steps, weight) => ⟨number.name n, steps, weight⟩).eraseDups

def Step.replacedBy (x : Step) (alternative : List Step) : List Step :=
  let framed := alternative.map fun y => { y with role := x.role <|> y.role, shown := x.shown <|> y.shown }
  changeLast (fun y =>
    { y with
      precedence := y.precedence <|> x.precedence
      associativity := y.associativity <|> x.associativity }) framed

def inlineSteps (symbol : Nat) (alternatives : List Production) : List Step → List (List Step × Int)
  | [] => [([], 0)]
  | x :: rest =>
    let rests := inlineSteps symbol alternatives rest
    if x.symbol == symbol then
      alternatives.flatMap fun p =>
        rests.map fun (ys, w) => (x.replacedBy p.steps ++ ys, strongerWeight p.weight w)
    else rests.map fun (ys, w) => (x :: ys, w)

def inlineName (productions : List Production) (symbol : Nat) : List Production :=
  let alternatives := productions.filter fun p => p.name == symbol
  let others := productions.filter fun p => p.name != symbol
  others.flatMap fun p =>
    (inlineSteps symbol alternatives p.steps).map fun (steps, w) =>
      ⟨p.name, steps, strongerWeight p.weight w⟩

def productionsOfRules (number : Numbering) (expanded : List (Name × Rule)) : List Production :=
  let all := expanded.flatMap (productionsOf number)
  (inlined.map fun g => number.name (.group g)).foldl inlineName all

end ApiSchema.Source.Grammar
