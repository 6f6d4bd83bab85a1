import ApiSchema.Field.Basic
import ApiSchema.Text.Lines
import ApiSchema.Text.Word

/-!
Fields that a docstring declares: lines with a tag, and the entries of a section of attributes. A line
with the type of a field counts more than a type given with the field itself.
-/
namespace ApiSchema.Field

open Text

/-- A field of a docstring: its name, its type if one is given, and what is said of it. -/
structure DocEntry where
  name : String
  typeText : Option String
  description : String

def isWord (cs : List Char) : Bool := !cs.isEmpty && cs.all isWordChar

def afterTag? (tag : String) (line : List Char) : Option (List Char) :=
  if tag.toList.isPrefixOf line then
    match line.drop tag.length with
    | c :: rest => if isBlank c then some (rest.dropWhile isBlank) else none
    | [] => none
  else none

def cutColon? (cs : List Char) : Option (List Char × List Char) :=
  match cutList ':' cs with
  | (head, some tail) => some (head, tail)
  | (_, none) => none

def trimmed (cs : List Char) : String := strip (String.ofList cs)

/-- The last word of a text and what stands before it, blanks between them left out. -/
def lastWord (cs : List Char) : List Char × List Char :=
  let reversed := (dropRightWhile isBlank cs).reverse
  ((reversed.dropWhile (!isBlank ·)).dropWhile isBlank |>.reverse, (reversed.takeWhile (!isBlank ·)).reverse)

/-- A line `:ivar type name: description`, in which the type may be missing. -/
def instanceLine? (line : List Char) : Option DocEntry := do
  let rest ← afterTag? ":ivar" line
  let (head, tail) ← cutColon? rest
  let (type, name) := lastWord head
  if !isWord name then none
  return ⟨String.ofList name, if type.isEmpty then none else some (String.ofList type), trimmed tail⟩

/-- A line `:vartype name: type`. -/
def typeLine? (line : List Char) : Option (String × String) := do
  let rest ← afterTag? ":vartype" line
  let (head, tail) ← cutColon? rest
  let name := dropRightWhile isBlank head
  let type := trimmed tail
  if !isWord name || type.isEmpty then none
  return (String.ofList name, type)

def withoutDollar : List Char → List Char
  | '$' :: rest => rest
  | cs => cs

/-- A line `@property type $name description`, in which the dollar sign and the description may be
missing. -/
def propertyLine? (line : List Char) : Option DocEntry := do
  let rest ← (afterTag? "@property" line).or ((afterTag? "@property-read" line).or (afterTag? "@var" line))
  let type := rest.takeWhile (!isBlank ·)
  let after := (rest.dropWhile (!isBlank ·)).dropWhile isBlank
  let name := withoutDollar (after.takeWhile (!isBlank ·))
  if !isWord name then none
  return ⟨String.ofList name, some (String.ofList type), trimmed (after.dropWhile (!isBlank ·))⟩

def typeInParentheses? : List Char → Option (Option (List Char) × List Char)
  | '(' :: rest =>
    match cutList ')' rest with
    | (c :: cs, some tail) => some (some (c :: cs), tail)
    | _ => none
  | cs => some (none, cs)

/-- An entry `name (type): description` of a section, in which the type may be missing. -/
def sectionLine? (line : List Char) : Option DocEntry := do
  let name := line.takeWhile isWordChar
  if name.isEmpty then none
  let (type, rest) ← typeInParentheses? ((line.dropWhile isWordChar).dropWhile isBlank)
  match rest.dropWhile isBlank with
  | ':' :: tail => return ⟨String.ofList name, type.map String.ofList, trimmed tail⟩
  | _ => none

def isSectionHeader (line : String) : Bool := ["attributes:", "fields:"].contains (lower line)

def markedLine? (line : List Char) : Option DocEntry := (instanceLine? line).or (propertyLine? line)

/-- The entries of some lines; `margin` is the indentation of the header of the current section. -/
def entriesFrom : Option Nat → List String → List DocEntry
  | _, [] => []
  | margin, raw :: rest =>
    let line := strip raw
    let indent := (raw.toList.takeWhile isBlank).length
    let outside := fun () =>
      if isSectionHeader line then entriesFrom (some indent) rest
      else (markedLine? line.toList).toList ++ entriesFrom none rest
    match margin with
    | none => outside ()
    | some m =>
      if line.isEmpty then entriesFrom margin rest
      else if indent ≤ m then outside ()
      else (sectionLine? line.toList).toList ++ entriesFrom margin rest

def firstGiven (a b : Option String) : Option String := (a.filter (!·.isEmpty)).or b

/-- The fields with one more entry; what is already known of a field stays. -/
def withEntry (found : Entries DocEntry) (e : DocEntry) : Entries DocEntry :=
  match found.get? e.name with
  | none => found.set e.name e
  | some old => found.set e.name {
      old with
      typeText := firstGiven old.typeText e.typeText
      description := if old.description.isEmpty then e.description else old.description }

def withTypeLine (found : Entries DocEntry) (line : String × String) : Entries DocEntry :=
  let old := (found.get? line.1).getD ⟨line.1, none, ""⟩
  found.set line.1 { old with typeText := some line.2 }

def inDocstring (docstring : String) : List Declared :=
  let ls := lines docstring
  let found := (entriesFrom none ls).foldl withEntry []
  let types := Entries.ofPairs (ls.filterMap fun l => typeLine? (strip l).toList)
  (types.foldl withTypeLine found).values.map fun e => {
    name := e.name
    origin := .docstring
    typeText := e.typeText
    description := if e.description.isEmpty then none else some (.str e.description) }

end ApiSchema.Field
