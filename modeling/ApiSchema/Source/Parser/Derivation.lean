import ApiSchema.Source.Grammar.Item

/-!
Derivations: how a stretch of text follows from the grammar. Unlike a syntax tree, a derivation shows
every symbol. Of two derivations of one stretch the heavier one is preferred, and of equal ones the one
that comes first, symbol by symbol.
-/
namespace ApiSchema.Source.Parser

open Grammar

/-- Offsets of a part: where the part before it ends, where it starts and where it ends. -/
structure Extent where
  before : Nat
  start : Nat
  stop : Nat
deriving DecidableEq, Repr

inductive Derivation where
  | token (symbol : Nat) (extra : Bool) (extent : Extent)
  | node (symbol production : Nat) (extent : Extent) (weight : Int) (children : List Derivation)

namespace Derivation

def symbol : Derivation → Nat
  | .token s _ _ | .node s _ _ _ _ => s

def isExtra : Derivation → Bool
  | .token _ e _ => e
  | .node _ _ _ _ _ => false

def extent : Derivation → Extent
  | .token _ _ x | .node _ _ x _ _ => x

def weight : Derivation → Int
  | .token _ _ _ => 0
  | .node _ _ _ w _ => w

def children : Derivation → List Derivation
  | .token _ _ _ => []
  | .node _ _ _ _ cs => cs

/-- The extent of parts one after another; `at_` is where they are if there are none. -/
def extentOf (at_ : Nat) : List Derivation → Extent
  | [] => ⟨at_, at_, at_⟩
  | d :: rest => ⟨d.extent.before, d.extent.start, ((d :: rest).getLastD d).extent.stop⟩

/-- The derivation of a name from parts. The weight of its production is added to theirs. -/
def ofParts (symbol production : Nat) (weight : Int) (at_ : Nat) (parts : List Derivation) :
    Derivation :=
  .node symbol production (extentOf at_ parts)
    (parts.foldl (fun w d => w + d.weight) weight) parts

mutual

/-- The order of derivations: by symbol, then by number of parts, then part by part. -/
def order : Derivation → Derivation → Ordering
  | .token s _ _, d => (compare s d.symbol).then (compare 0 d.children.length)
  | .node s _ _ _ cs, d =>
    ((compare s d.symbol).then (compare cs.length d.children.length)).then (orderAll cs d.children)

def orderAll : List Derivation → List Derivation → Ordering
  | [], _ | _ :: _, [] => .eq
  | d :: ds, e :: es => (order d e).then (orderAll ds es)

end

def prefersSecond (a b : Derivation) : Bool :=
  if a.weight < b.weight then true
  else if b.weight < a.weight then false
  else order a b == .gt

def isLike (a b : Derivation) : Bool :=
  a.symbol == b.symbol && a.isExtra == b.isExtra &&
    a.extent.start - a.extent.before == b.extent.start - b.extent.before &&
    a.extent.stop - a.extent.start == b.extent.stop - b.extent.start &&
    a.children.length == b.children.length

end Derivation
end ApiSchema.Source.Parser
