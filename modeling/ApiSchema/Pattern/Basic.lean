import ApiSchema.Pattern.CharSet

/-!
Patterns of text: sets of characters, sequences, alternatives, repetitions, groups with references to
what they matched, and conditions on what stands before or after a place.
-/
namespace ApiSchema

inductive Anchor where
  | textStart
  | lineStart
  | textEnd
  /-- The end of the text, or before a line end that ends the text. -/
  | lastEnd
  | lineEnd
  | boundary (ascii : Bool)
  | notBoundary (ascii : Bool)
deriving DecidableEq, Repr

/-- In which order the numbers of repetitions are tried. -/
inductive Greed where
  | greedy
  | lazy
  | possessive
deriving DecidableEq, Repr

inductive Pattern where
  | empty
  | set (s : CharSet)
  | seq (first second : Pattern)
  | either (first second : Pattern)
  | times (greed : Greed) (least : Nat) (most : Option Nat) (body : Pattern)
  /-- A group whose text can be referred to by its number. -/
  | group (index : Nat) (body : Pattern)
  /-- The text of a group, which has a least and a greatest width. -/
  | reference (index : Nat) (folding : Folding) (least most : Nat)
  | anchor (a : Anchor)
  /-- What must follow, or must not. -/
  | ahead (negated : Bool) (body : Pattern)
  /-- What must stand before, or must not. -/
  | behind (negated : Bool) (body : Pattern)
  | atomic (body : Pattern)
  /-- One of two patterns, as a group has matched or not. -/
  | ifGroup (index : Nat) (yes no : Pattern)
deriving Repr

namespace Pattern

def isEmpty : Pattern → Bool
  | .empty => true
  | _ => false

def inOrder : List Pattern → Pattern
  | [] => .empty
  | [p] => p
  | p :: ps => .seq p (inOrder ps)

/-- Patterns one after the other, without those that are empty. -/
def ofItems (ps : List Pattern) : Pattern := inOrder (ps.filter (!·.isEmpty))

def eitherOf : List Pattern → Pattern
  | [] => .empty
  | [p] => p
  | p :: ps => .either p (eitherOf ps)

/-! ## Choices -/

/-- What a pattern starts with, and what comes after that. -/
def split : Pattern → Option (Pattern × Pattern)
  | .empty => none
  | .seq a b =>
    match split a with
    | some (first, .empty) => some (first, b)
    | some (first, rest) => some (first, .seq rest b)
    | none => split b
  | p => some (p, .empty)

/-- Whether two patterns are the same set, condition or reference. -/
def sameUnit : Pattern → Pattern → Bool
  | .set s, .set t => s == t
  | .anchor a, .anchor b => a == b
  | .reference i f _ _, .reference j g _ _ => i == j && f == g
  | _, _ => false

/-- Takes out what all choices start with; what that is, and the choices after it. -/
def commonStart : Nat → List Pattern → List Pattern × List Pattern
  | 0, ps => ([], ps)
  | n + 1, ps =>
    match ps.mapM split with
    | some ((first, rest) :: others) =>
      if others.all (fun o => sameUnit o.1 first) && sameUnit first first then
        let (start, rests) := commonStart n (rest :: others.map (·.2))
        (first :: start, rests)
      else ([], ps)
    | _ => ([], ps)

def unionSet? (ps : List Pattern) : Option CharSet := do
  let sets ← ps.mapM fun
    | .set s => if s.negated then none else some s
    | _ => none
  let first ← sets.head?
  if sets.all (·.folding == first.folding) then
    return { items := sets.flatMap (·.items), folding := first.folding }
  else none

def length : Pattern → Nat
  | .seq a b => length a + length b
  | _ => 1

/-- Patterns to choose from, with what they all start with taken out, and as one set where that is
enough. -/
def ofChoices : List Pattern → Pattern
  | [] => .empty
  | [p] => p
  | p :: ps =>
    let (start, rests) := commonStart p.length (p :: ps)
    let choice := match unionSet? rests with
      | some s => .set s
      | none => eitherOf rests
    ofItems (start ++ [choice])

/-! ## Width -/

/-- A width that counts as unlimited. -/
def maxWidth : Nat := Nat.pow 2 64

/-- The least and the greatest number of characters of a match. -/
def width : Pattern → Nat × Nat
  | .empty => (0, 0)
  | .set _ => (1, 1)
  | .seq a b =>
    let (i, j) := width a
    let (k, l) := width b
    (min (i + k) maxWidth, min (j + l) maxWidth)
  | .either a b =>
    let (i, j) := width a
    let (k, l) := width b
    (min i k, max j l)
  | .times _ least most body =>
    let (i, j) := width body
    let greatest := match most with
      | some m => j * m
      | none => if j == 0 then 0 else maxWidth
    (min (i * least) maxWidth, min greatest maxWidth)
  | .group _ body => width body
  | .reference _ _ least most => (least, most)
  | .anchor _ | .ahead _ _ | .behind _ _ => (0, 0)
  | .atomic body => width body
  | .ifGroup _ yes no =>
    let (i, j) := width yes
    let (k, l) := width no
    (min i k, max j l)

def maxBehind : Nat := Nat.pow 2 32 - 1

/-- Whether everything that is looked back at has one width. -/
def behindFixed : Pattern → Bool
  | .seq a b | .either a b => behindFixed a && behindFixed b
  | .times _ _ _ body | .group _ body | .ahead _ body => behindFixed body
  | .behind _ body => body.width.1 == body.width.2 && body.width.1 ≤ maxBehind && behindFixed body
  | .atomic body => behindFixed body
  | .ifGroup _ yes no => behindFixed yes && behindFixed no
  | _ => true

def hasRepeat : Pattern → Bool
  | .times _ _ _ _ => true
  | .seq a b | .either a b => hasRepeat a || hasRepeat b
  | .group _ body | .ahead _ body | .behind _ body | .atomic body => hasRepeat body
  | .ifGroup _ yes no => hasRepeat yes || hasRepeat no
  | _ => false

end Pattern
end ApiSchema
