import ApiSchema.Text.Digit

/-!
Texts in a given width, written as a short specification: a character to fill with, an alignment,
the least width and the most characters of the text that count.
-/
namespace ApiSchema.Text

inductive Alignment where
  | left
  | center
  | right
deriving DecidableEq, Repr

structure Padding where
  fill : Char := ' '
  alignment : Alignment := .left
  width : Nat := 0
  limit : Option Nat := none
deriving Repr

namespace Padding

def apply (p : Padding) (cs : List Char) : List Char :=
  let cs := match p.limit with
    | some n => cs.take n
    | none => cs
  let missing := p.width - cs.length
  let before := match p.alignment with
    | .left => 0
    | .center => missing / 2
    | .right => missing
  List.replicate before p.fill ++ cs ++ List.replicate (missing - before) p.fill

end Padding

/-- The greatest whole number that counts as a width or position. -/
def maxWhole : Nat := 9223372036854775807

/-- Reads digits of any script up to the first other character; `none` if the number is too large. -/
def readWhole? (acc : Nat) : List Char → Option (Nat × List Char)
  | [] => some (acc, [])
  | c :: rest =>
    match digitValue? c with
    | some d => if maxWhole < 10 * acc + d then none else readWhole? (10 * acc + d) rest
    | none => some (acc, c :: rest)

/-- The alignment that a character stands for. The last one is for numbers only. -/
def alignmentOf? : Char → Option (Option Alignment)
  | '<' => some (some .left)
  | '^' => some (some .center)
  | '>' => some (some .right)
  | '=' => some none
  | _ => none

namespace Padding

/-- What fills the text and how it is aligned, at the start of a specification; the flag says whether
the character to fill with is given. -/
def readAlignment? : List Char → Option (Char × Alignment × Bool × List Char)
  | f :: a :: rest =>
    match alignmentOf? a with
    | some alignment => alignment.map fun x => (f, x, true, rest)
    | none => match alignmentOf? f with
      | some alignment => alignment.map fun x => (' ', x, false, a :: rest)
      | none => some (' ', .left, false, f :: a :: rest)
  | [f] =>
    match alignmentOf? f with
    | some alignment => alignment.map fun x => (' ', x, false, [])
    | none => some (' ', .left, false, [f])
  | [] => some (' ', .left, false, [])

/-- The number of characters that count, after the width. -/
def readLimit? : List Char → Option (Option Nat × List Char)
  | '.' :: c :: rest =>
    if isDecimalDigit c then (readWhole? 0 (c :: rest)).map fun (n, rest) => (some n, rest) else none
  | ['.'] => none
  | rest => some (none, rest)

/-- The padding that a specification asks for, if it is one for texts. -/
def read? (spec : List Char) : Option Padding := do
  let (fill, alignment, filled, rest) ← readAlignment? spec
  let (fill, rest) := match filled, rest with
    | false, '0' :: rest => ('0', rest)
    | _, rest => (fill, rest)
  let (width, rest) ← readWhole? 0 rest
  let (limit, rest) ← readLimit? rest
  if rest == [] || rest == ['s'] then some ⟨fill, alignment, width, limit⟩ else none

end Padding
end ApiSchema.Text
