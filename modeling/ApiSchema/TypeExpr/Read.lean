import ApiSchema.Source.Literal
import ApiSchema.TypeExpr.Basic

/-!
Type expressions from the text of an annotation. Arguments that are no types, such as the metadata of
an annotated type, are kept as a mark; a quoted type is read like any other.
-/
namespace ApiSchema.TypeExpr

open Text

/-! ## Words -/

inductive WordKind where
  | string
  | number
  | ellipsis
  | name
  | punctuation
  | other
deriving DecidableEq, Repr

structure Word where
  kind : WordKind
  text : String
deriving DecidableEq, Repr

def isNameStart (c : Char) : Bool := c.isAlpha || c == '_'

def isNamePart (c : Char) : Bool := c.isAlphanum || c == '_'

/-- The length of a quoted text after its opening quote, the closing one included. -/
def quotedLength? (quote : Char) : List Char → Option Nat
  | [] => none
  | '\\' :: c :: rest => if c == '\n' then none else (quotedLength? quote rest).map (· + 2)
  | c :: rest =>
    if c == quote then some 1
    else if c == '\\' then none
    else (quotedLength? quote rest).map (· + 1)

def digitsLength? (cs : List Char) : Option Nat :=
  let whole := (cs.takeWhile isDecimalDigit).length
  if whole == 0 then none
  else match cs.drop whole with
    | '.' :: rest =>
      let fraction := (rest.takeWhile isDecimalDigit).length
      if fraction == 0 then some whole else some (whole + 1 + fraction)
    | _ => some whole

def numberLength? : List Char → Option Nat
  | '-' :: rest => (digitsLength? rest).map (· + 1)
  | cs => digitsLength? cs

/-- The further parts of a dotted name, without the blanks around the dots, and the rest. -/
def moreParts : Nat → List Char → List Char × List Char
  | 0, cs => ([], cs)
  | n + 1, cs =>
    match cs.dropWhile isBlank with
    | '.' :: rest =>
      match rest.dropWhile isBlank with
      | c :: more =>
        if isNameStart c then
          let part := (c :: more).takeWhile isNamePart
          let (parts, left) := moreParts n ((c :: more).dropWhile isNamePart)
          ('.' :: part ++ parts, left)
        else ([], cs)
      | [] => ([], cs)
    | _ => ([], cs)

def word (cs : List Char) : Word × List Char :=
  let cut := fun (kind : WordKind) (n : Nat) => (⟨kind, String.ofList (cs.take n)⟩, cs.drop n)
  match cs with
  | [] => (⟨.other, ""⟩, [])
  | c :: rest =>
    let quoted := if c == '\'' || c == '"' then quotedLength? c rest else none
    match quoted, numberLength? cs with
    | some n, _ => cut .string (n + 1)
    | none, some n => cut .number n
    | none, none =>
      if cs.take 3 == ['.', '.', '.'] then cut .ellipsis 3
      else if isNameStart c then
        let first := cs.takeWhile isNamePart
        let (parts, left) := moreParts cs.length (cs.dropWhile isNamePart)
        (⟨.name, String.ofList (first ++ parts)⟩, left)
      else if "[],|()".toList.contains c then cut .punctuation 1
      else cut .other 1

def wordsFrom : Nat → List Char → List Word
  | 0, _ => []
  | n + 1, cs =>
    match cs.dropWhile isBlank with
    | [] => []
    | c :: rest =>
      let (w, left) := word (c :: rest)
      w :: wordsFrom n left

def words (text : String) : List Word := wordsFrom text.length text.toList

/-! ## Reading -/

inductive ReadError where
  /-- A word that cannot stand where it is; an argument with one is no type. -/
  | unexpected
  /-- A literal without a value, which spoils the whole annotation. -/
  | badLiteral
deriving DecidableEq, Repr

abbrev Reader := StateT (List Word) (Except ReadError)

namespace Reader

def peek : Reader (Option Word) := return (← get).head?

def take : Reader Word := do
  match ← get with
  | w :: rest =>
    set rest
    return w
  | [] => throw .unexpected

def ahead (mark : String) : Reader Bool := do
  return (← peek) == some ⟨.punctuation, mark⟩

def accept (mark : String) : Reader Bool := do
  if ← ahead mark then
    let _ ← take
    return true
  return false

/-- The value of a string or number, whose digits are those of ASCII. -/
def literalOf? (w : Word) : Option Value :=
  match w.kind with
  | .string => do
    let piece ← Source.piece? w.text
    return .str (String.ofList (piece.content.map Char.ofNat))
  | _ =>
    if w.text.toList.any (fun c => 127 < c.toNat) then none
    else match w.text.toList with
      | '-' :: digits => (Source.numberValue? (String.ofList digits)).bind (Source.signed? true)
      | _ => Source.numberValue? w.text

def literal (w : Word) : Reader Value :=
  match literalOf? w with
  | some v => return v
  | none => throw .badLiteral

def skipCall : Nat → Nat → Reader Unit
  | 0, _ => throw .unexpected
  | _, 0 => return ()
  | n + 1, depth + 1 => do
    let w ← take
    if w.text == "(" then skipCall n (depth + 2)
    else if w.text == ")" then skipCall n depth
    else skipCall n (depth + 1)

/-- Skips to the comma or bracket that ends an argument. -/
def skipArgument : Nat → Int → Reader Unit
  | 0, _ => return ()
  | n + 1, depth => do
    match ← peek with
    | none => return ()
    | some w =>
      if depth == 0 && (w.text == "," || w.text == "]") then return ()
      let _ ← take
      if w.text == "[" || w.text == "(" then skipArgument n (depth + 1)
      else if w.text == "]" || w.text == ")" then skipArgument n (depth - 1)
      else skipArgument n depth

def literalName (name : String) : Value :=
  match name with
  | "True" => .bool true
  | "False" => .bool false
  | "None" => .null
  | _ => .str (lastSegment name)

/-- The values of a literal type up to its closing bracket; words that are none are left out. -/
def literalValues : Nat → Reader (List Value)
  | 0 => throw .unexpected
  | n + 1 => do
    if ← accept "]" then return []
    let w ← take
    let vs ← match w.kind with
      | .string | .number => do pure [← literal w]
      | .name => pure [literalName w.text]
      | _ => pure []
    let _ ← accept ","
    return vs ++ (← literalValues n)

def argument (self : Reader TypeExpr) : Reader TypeExpr := do
  let start ← get
  let e ← match self.run start with
    | .ok (e, rest) => do
      set rest
      pure e
    | .error .unexpected => pure (named metadataName)
    | .error .badLiteral => throw .badLiteral
  match ← peek with
  | none => return e
  | some w =>
    if w.text == "," || w.text == "]" then return e
    skipArgument (← get).length 0
    return named metadataName

def arguments (self : Reader TypeExpr) : Nat → Reader (List TypeExpr)
  | 0 => throw .unexpected
  | n + 1 => do
    if (← peek).isNone then throw .unexpected
    if ← accept "]" then return []
    let e ← argument self
    let _ ← accept ","
    return e :: (← arguments self n)

def quotedType (self : Reader TypeExpr) (text : String) : TypeExpr :=
  match self.run (words text) with
  | .ok (e, []) => e
  | _ => named "Any"

/-- A type without bars at its top. -/
def primary (self : Reader TypeExpr) : Reader TypeExpr := do
  let w ← take
  let bound := (← get).length + 1
  match w.kind with
  | .string =>
    match ← literal w with
    | .str s => return quotedType self s
    | _ => throw .badLiteral
  | .ellipsis => return named ellipsisName
  | .number => return .mk "Literal" [] [← literal w]
  | .name =>
    if ← accept "(" then
      skipCall bound 1
      return named w.text
    if ← accept "[" then
      if lastSegment w.text == "Literal" then return .mk w.text [] (← literalValues bound)
      return .mk w.text (← arguments self bound) []
    return named w.text
  | _ =>
    if w == ⟨.punctuation, "["⟩ then return .mk bracketName (← arguments self bound) []
    throw .unexpected

def moreMembers (self : Reader TypeExpr) : Nat → Reader (List TypeExpr)
  | 0 => return []
  | n + 1 => do
    if ← accept "|" then
      let e ← primary self
      return e :: (← moreMembers self n)
    return []

/-- A type, in which brackets and quotes nest at most so deep. -/
def union : Nat → Reader TypeExpr
  | 0 => throw .unexpected
  | depth + 1 => do
    let first ← primary (union depth)
    match ← moreMembers (union depth) (← get).length with
    | [] => return first
    | ms => return .mk barName (first :: ms) []

end Reader

/-- The type that a text writes; none when it is blank or cannot be read. -/
def read? (text : String) : Option TypeExpr :=
  if isBlankText text then none
  else match (Reader.union (text.length + 1)).run (words text) with
    | .ok (e, []) => some e
    | _ => none

end ApiSchema.TypeExpr
