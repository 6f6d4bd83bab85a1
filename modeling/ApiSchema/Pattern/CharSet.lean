import ApiSchema.Text.Blank
import ApiSchema.Text.Case
import ApiSchema.Text.Digit
import ApiSchema.Text.Word

/-!
Sets of characters, as a pattern writes them: single characters, ranges and the classes of digits,
blanks and word characters. Where case is ignored, characters are compared by their lower case forms,
and a few that share an upper case form count as the same.
-/
namespace ApiSchema

open Text

/-! ## Ignoring case -/

inductive Folding where
  | exact
  /-- Without regard to the case of ASCII letters. -/
  | ascii
  | full
deriving DecidableEq, Repr

/-- Lower case characters that are the same as others when case is ignored. -/
def sameCase : List (List Nat) := [
  [0x69, 0x131], [0x73, 0x17F], [0xB5, 0x3BC], [0x345, 0x3B9, 0x1FBE], [0x390, 0x1FD3],
  [0x3B0, 0x1FE3], [0x3B2, 0x3D0], [0x3B5, 0x3F5], [0x3B8, 0x3D1], [0x3BA, 0x3F0], [0x3C0, 0x3D6],
  [0x3C1, 0x3F1], [0x3C2, 0x3C3], [0x3C6, 0x3D5], [0x432, 0x1C80], [0x434, 0x1C81],
  [0x43E, 0x1C82], [0x441, 0x1C83], [0x442, 0x1C84, 0x1C85], [0x44A, 0x1C86], [0x463, 0x1C87],
  [0x1C88, 0xA64B], [0x1E61, 0x1E9B], [0xFB05, 0xFB06]]

def simpleLower (n : Nat) : Nat :=
  if n == 0x130 then 0x69
  else match lowerRuns.find? (·.covers n) with
    | some r => ((n : Int) + r.shift).toNat
    | none => n

def asciiLower (n : Nat) : Nat := if 0x41 ≤ n && n ≤ 0x5A then n + 32 else n

def Folding.fold : Folding → Nat → Nat
  | .exact, n => n
  | .ascii, n => asciiLower n
  | .full, n => simpleLower n

/-- The lower case characters that count as the same as one of them. -/
def Folding.equivalents : Folding → Nat → List Nat
  | .full, n => (sameCase.find? (·.contains n)).getD [n]
  | _, n => [n]

/-- The code points with a lower case form. -/
def Folding.sources : Folding → Nat → List Nat
  | .exact, n => [n]
  | .ascii, n => (if asciiLower n == n then [n] else []) ++ (if 0x61 ≤ n && n ≤ 0x7A then [n - 32] else [])
  | .full, n =>
    (if simpleLower n == n then [n] else []) ++ (if n == 0x69 then [0x130] else []) ++
      lowerRuns.filterMap fun r =>
        let m := ((n : Int) - r.shift).toNat
        if r.covers m then some m else none

def Folding.same (f : Folding) (a b : Nat) : Bool :=
  (f.equivalents (f.fold a)).contains (f.fold b)

def Folding.isCased (f : Folding) (n : Nat) : Bool := f.fold n != n || f.sources n != [n]

/-! ## Sets -/

inductive CharClass where
  | digit
  | space
  | word
deriving DecidableEq, Repr

def CharClass.has (ascii : Bool) (k : CharClass) (c : Char) : Bool :=
  (!ascii || c.toNat < 128) &&
    match k with
    | .digit => isDecimalDigit c
    | .space => if ascii then " \t\n\r\x0b\x0c".toList.contains c else isBlank c
    | .word => isWordChar c

/-- A member of a set. Characters are code points, since a pattern can name some that no text has. -/
inductive SetItem where
  | char (n : Nat)
  | range (first last : Nat)
  | inClass (ascii : Bool) (k : CharClass)
  | notInClass (ascii : Bool) (k : CharClass)
deriving DecidableEq, Repr

def SetItem.has (f : Folding) (c : Char) : SetItem → Bool
  | .char n => f.same n c.toNat
  | .range a b =>
    match f with
    | .exact => a ≤ c.toNat && c.toNat ≤ b
    | _ => ((f.equivalents (f.fold c.toNat)).flatMap f.sources).any fun n => a ≤ n && n ≤ b
  | .inClass ascii k => k.has ascii c
  | .notInClass ascii k => !k.has ascii c

/-- A set of characters: those that some item has, or those that none has. -/
structure CharSet where
  items : List SetItem
  negated : Bool := false
  folding : Folding := .exact
deriving DecidableEq, Repr

def CharSet.has (s : CharSet) (c : Char) : Bool :=
  s.items.any (·.has s.folding c) != s.negated

/-- Whether an item has the same characters when case is not ignored. -/
def SetItem.isCaseless (f : Folding) : SetItem → Bool
  | .char n => !f.isCased n
  | .range _ _ => f == .exact
  | .inClass _ _ | .notInClass _ _ => true

/-- The code point that a set is, if it is just one and case plays no part. -/
def CharSet.single? (s : CharSet) : Option Nat :=
  match s.items, s.negated with
  | [.char n], false => if s.folding.isCased n then none else some n
  | _, _ => none

/-- Whether a set is told by its items alone: case plays no part, and it is not all but at most one
character. -/
def CharSet.isPlain (s : CharSet) : Bool :=
  s.items.all (·.isCaseless s.folding) &&
    match s.items, s.negated with
    | [], true | [.char _], true => false
    | _, _ => true

def CharSet.any : CharSet := { items := [], negated := true }

def CharSet.notNewline : CharSet := { items := [.char 10], negated := true }

end ApiSchema
