import ApiSchema.Entries
import ApiSchema.Number.Decimal
import ApiSchema.Pattern.Basic

/-!
Patterns from their text. `read` gives the pattern that a text writes, or says why it writes none.
Options such as case folding hold for the whole pattern when it starts with them, and for a group
when the group does.
-/
namespace ApiSchema.Pattern

open Text

inductive ReadError where
  | malformed
  /-- A number of repetitions that is too large. -/
  | tooLarge
  /-- Options that exclude each other, or a number with too many digits. -/
  | refused
deriving DecidableEq, Repr

/-! ## Characters of a pattern -/

/-- A character of a pattern, alone or after a backslash. -/
inductive Mark where
  | plain (c : Char)
  | escaped (c : Char)
  | dangling
deriving DecidableEq, Repr

def marks : List Char → List Mark
  | [] => []
  | c :: rest =>
    if c == '\\' then
      match rest with
      | d :: more => .escaped d :: marks more
      | [] => [.dangling]
    else .plain c :: marks rest

def Mark.text : Mark → List Char
  | .plain c => [c]
  | .escaped c => ['\\', c]
  | .dangling => ['\\']

/-! ## Reading -/

structure Options where
  ignoreCase : Bool := false
  multiline : Bool := false
  dotAll : Bool := false
  /-- Blanks and comments in the pattern are skipped. -/
  verbose : Bool := false
  ascii : Bool := false
  unicode : Bool := false
  template : Bool := false

def Options.folding (o : Options) : Folding :=
  if o.ignoreCase then (if o.ascii then .ascii else .full) else .exact

/-- The characters that have names. -/
abbrev Characters := String → Option Nat

def noCharacters : Characters := fun _ => none

structure Reader where
  marks : List Mark
  characters : Characters
  options : Options := {}
  /-- The widths of the groups by number; those still open have none. -/
  groups : List (Option (Nat × Nat)) := [none]
  names : Entries Nat := []
  /-- Inside what is looked back at: the number of groups before it. -/
  behindFrom : Option Nat := none
  /-- Groups that must exist in the end. -/
  awaited : List Nat := []

abbrev Read := StateT Reader (Except ReadError)

namespace Read

def fail {α : Type} : Read α := throw .malformed

def peek : Read (Option Mark) := return (← get).marks.head?

/-- Goes on to the next character. A backslash with nothing after it fails as soon as it is next. -/
def advance : Read Unit := do
  let rest := (← get).marks.tail
  if rest.head? == some .dangling then throw .malformed
  modify fun r => { r with marks := rest }

def next : Read (Option Mark) := do
  let m ← peek
  advance
  return m

def accept (c : Char) : Read Bool := do
  if (← peek) == some (.plain c) then
    advance
    return true
  return false

def expect (c : Char) : Read Unit := do
  unless ← accept c do fail

def takeUpTo (p : Char → Bool) : Nat → Read (List Char)
  | 0 => return []
  | n + 1 => do
    match ← peek with
    | some (.plain c) =>
      if p c then
        advance
        return c :: (← takeUpTo p n)
      else return []
    | _ => return []

def takeAll (p : Char → Bool) : Read (List Char) := do
  takeUpTo p (← get).marks.length

def nameUntil (closing : Char) : Nat → Read (List Char)
  | 0 => fail
  | n + 1 => do
    match ← next with
    | none => fail
    | some m => if m == .plain closing then return [] else return m.text ++ (← nameUntil closing n)

def nonEmptyName (closing : Char) : Read String := do
  let name ← nameUntil closing ((← get).marks.length + 1)
  if name.isEmpty then fail
  return String.ofList name

/-! ## Escapes -/

def hexValue (cs : List Char) : Nat :=
  cs.foldl (fun n c =>
    n * 16 + (if c.isDigit then c.toNat - 48 else if c.toNat < 97 then c.toNat - 55 else c.toNat - 87)) 0

def isHex (c : Char) : Bool :=
  c.isDigit || ('a' ≤ c && c ≤ 'f') || ('A' ≤ c && c ≤ 'F')

def isOctal (c : Char) : Bool := '0' ≤ c && c ≤ '7'

def octalValue (cs : List Char) : Nat := cs.foldl (fun n c => n * 8 + (c.toNat - 48)) 0

def hexEscape (count : Nat) : Read Nat := do
  let digits ← takeUpTo isHex count
  if digits.length != count || 0x10FFFF < hexValue digits then fail
  return hexValue digits

def classOf? (ascii : Bool) : Char → Option SetItem
  | 'd' => some (.inClass ascii .digit)
  | 'D' => some (.notInClass ascii .digit)
  | 's' => some (.inClass ascii .space)
  | 'S' => some (.notInClass ascii .space)
  | 'w' => some (.inClass ascii .word)
  | 'W' => some (.notInClass ascii .word)
  | _ => none

def controlOf? : Char → Option Nat
  | 'a' => some 7
  | 'b' => some 8
  | 'f' => some 12
  | 'n' => some 10
  | 'r' => some 13
  | 't' => some 9
  | 'v' => some 11
  | _ => none

def namedEscape : Read Nat := do
  expect '\x7b'
  match (← get).characters (← nonEmptyName '\x7d') with
  | some n => return n
  | none => fail

/-- A character by its code, by its name or by itself; a letter without a meaning fails. -/
def plainEscape (c : Char) : Read Nat := do
  match c with
  | 'N' => namedEscape
  | 'x' => hexEscape 2
  | 'u' => hexEscape 4
  | 'U' => hexEscape 8
  | _ => if c.isAlphanum then fail else return c.toNat

def setEscape (ascii : Bool) (c : Char) : Read SetItem := do
  match controlOf? c, classOf? ascii c with
  | some n, _ => return .char n
  | none, some k => return k
  | none, none =>
    if isOctal c then
      let value := octalValue (c :: (← takeUpTo isOctal 2))
      if 0o377 < value then fail
      return .char value
    else return .char (← plainEscape c)

def checkReference (i : Nat) : Read Unit := do
  let r ← get
  match r.behindFrom with
  | some n => if (r.groups.getD i none).isNone || n ≤ i then fail
  | none => return ()

def referenceTo (o : Options) (i : Nat) : Read Pattern := do
  match (← get).groups.getD i none with
  | some (least, most) =>
    checkReference i
    return .reference i o.folding least most
  | none => fail

/-! ## Pieces -/

/-- A part of a sequence, and whether it can be repeated. -/
structure Piece where
  pattern : Pattern
  repeatable : Bool := true

def ofSet (o : Options) (items : List SetItem) (negated : Bool) : Pattern :=
  .set { items, negated, folding := o.folding }

def ofChar (o : Options) (n : Nat) : Piece := ⟨ofSet o [.char n] false, true⟩

def ofAnchor (a : Anchor) : Piece := ⟨.anchor a, false⟩

def escape (o : Options) (c : Char) : Read Piece := do
  match c with
  | 'A' => return ofAnchor .textStart
  | 'Z' => return ofAnchor .textEnd
  | 'b' => return ofAnchor (.boundary o.ascii)
  | 'B' => return ofAnchor (.notBoundary o.ascii)
  | '0' => return ofChar o (octalValue (← takeUpTo isOctal 2))
  | _ =>
    match classOf? o.ascii c, controlOf? c with
    | some k, _ => return ⟨ofSet o [k] false, true⟩
    | none, some n => return ofChar o n
    | none, none =>
      if c.isDigit then
        match ← takeUpTo Char.isDigit 1 with
        | [d] =>
          let third ← match ← peek with
            | some (.plain e) => pure (isOctal c && isOctal d && isOctal e)
            | _ => pure false
          if third then
            let value := octalValue ([c, d] ++ (← takeUpTo isOctal 1))
            if 0o377 < value then fail
            return ofChar o value
          else return ⟨← referenceTo o ((c.toNat - 48) * 10 + (d.toNat - 48)), true⟩
        | _ => return ⟨← referenceTo o (c.toNat - 48), true⟩
      else return ofChar o (← plainEscape c)

/-! ## Sets -/

def setItem (o : Options) : Mark → Read SetItem
  | .plain c => return .char c.toNat
  | .escaped c => setEscape o.ascii c
  | .dangling => fail

def setItems (o : Options) : Nat → List SetItem → Read (List SetItem)
  | 0, _ => fail
  | n + 1, items => do
    match ← next with
    | none => fail
    | some m =>
      if m == .plain ']' && !items.isEmpty then return items
      let first ← setItem o m
      if ← accept '-' then
        match ← next with
        | none => fail
        | some m' =>
          if m' == .plain ']' then return items ++ [first, .char 45]
          let last ← setItem o m'
          match first, last with
          | .char a, .char b => if b < a then fail else setItems o n (items ++ [.range a b])
          | _, _ => fail
      else setItems o n (items ++ [first])

def setPiece (o : Options) : Read Piece := do
  let negated ← accept '^'
  let items ← setItems o ((← get).marks.length + 1) []
  return ⟨ofSet o items negated, true⟩

/-! ## Repetitions -/

/-- The least number of repetitions that cannot be asked for. -/
def repeatLimit : Nat := 4294967295

def digitLimit : Nat := 4300

/-- A number of repetitions; `none` for no digits. -/
def repeatNumber (digits : List Char) : Read (Option Nat) := do
  if digits.isEmpty then return none
  if digitLimit < digits.length then throw .refused
  let n := digits.foldl (fun a c => a * 10 + (c.toNat - 48)) 0
  if repeatLimit ≤ n then throw .tooLarge
  return some n

/-- The bounds of a repetition in braces after the opening one; `none`, and nothing taken, when the
brace stands for itself. -/
def braces : Read (Option (Nat × Option Nat)) := do
  let start ← get
  if (← peek) == some (.plain '\x7d') then return none
  let low ← takeAll Char.isDigit
  let high ← if ← accept ',' then takeAll Char.isDigit else pure low
  if ← accept '\x7d' then
    let least := (← repeatNumber low).getD 0
    let most ← repeatNumber high
    if most.any (· < least) then fail
    return some (least, most)
  else
    modify fun _ => start
    return none

def greed : Read Greed := do
  if ← accept '?' then return .lazy
  if ← accept '+' then return .possessive
  return .greedy

def repeated (least : Nat) (most : Option Nat) (pieces : List Piece) : Read (List Piece) := do
  match pieces with
  | p :: rest =>
    if !p.repeatable then fail
    return ⟨.times (← greed) least most p.pattern, false⟩ :: rest
  | [] => fail

/-! ## Options -/

def isFlag (c : Char) : Bool := "iLmsxatu".toList.contains c

def isTypeFlag (c : Char) : Bool := c == 'a' || c == 'u'

/-- The flags up to one of the closing characters, and that character. -/
def flagsUntil (closing : List Char) : Nat → List Char → Read (List Char × Char)
  | 0, _ => fail
  | n + 1, flags => do
    match ← next with
    | some (.plain c) =>
      if closing.contains c && !flags.isEmpty then return (flags, c)
      else if isFlag c && c != 'L' then flagsUntil closing n (flags ++ [c])
      else fail
    | _ => fail

def Options.with (o : Options) (flags : List Char) : Options :=
  flags.foldl (fun o c =>
    match c with
    | 'i' => { o with ignoreCase := true }
    | 'm' => { o with multiline := true }
    | 's' => { o with dotAll := true }
    | 'x' => { o with verbose := true }
    | 'a' => { o with ascii := true }
    | 'u' => { o with unicode := true }
    | 't' => { o with template := true }
    | _ => o) o

def Options.without (o : Options) (flags : List Char) : Options :=
  flags.foldl (fun o c =>
    match c with
    | 'i' => { o with ignoreCase := false }
    | 'm' => { o with multiline := false }
    | 's' => { o with dotAll := false }
    | 'x' => { o with verbose := false }
    | _ => o) o

/-- Options of a group: a type flag takes the place of the one before. -/
def Options.scoped (o : Options) (added removed : List Char) : Options :=
  let base := if added.any isTypeFlag then { o with ascii := false, unicode := false } else o
  Options.without (Options.with base added) removed

inductive Opening where
  | capture (name : Option String)
  | plain (o : Options)
  | atomic
  | ahead (negated : Bool)
  | behind (negated : Bool)
  | condition (index : Nat)
  | reference (p : Pattern)
  | comment
  | options

/-- Flags at the start of a group, of which the first character is taken. -/
def flagOpening (o : Options) (first : Char) : Read Opening := do
  let bound := (← get).marks.length + 1
  if first == 'L' then fail
  let (added, closing) ←
    if first == '-' then pure ([], '-') else flagsUntil [')', '-', ':'] bound [first]
  if added.contains 'a' && added.contains 'u' then fail
  if closing == ')' then
    modify fun r => { r with options := Options.with r.options added }
    return .options
  if added.contains 't' then fail
  let removed ← if closing == '-' then do
      let (flags, _) ← flagsUntil [':'] bound []
      pure flags
    else pure []
  if removed.any (fun c => isTypeFlag c || c == 't') then fail
  if added.any removed.contains then fail
  return .plain (Options.scoped o added removed)

def conditionGroup (name : String) : Read Nat := do
  if isIdentifier name then
    match (← get).names.get? name with
    | some i => return i
    | none => fail
  else
    let (negative, digits) := readSign (strip name).toList
    match readDigits digits with
    | ([], _) => fail
    | (vs, rest) =>
      let i := digitsToNat vs
      if !rest.isEmpty || negative || i == 0 || digitLimit < vs.length then fail
      modify fun r => { r with awaited := i :: r.awaited }
      return i

def skipComment : Nat → Read Unit
  | 0 => fail
  | n + 1 => do
    match ← next with
    | none => fail
    | some m => if m == .plain ')' then return () else skipComment n

def opening (o : Options) : Read Opening := do
  let bound := (← get).marks.length + 1
  unless ← accept '?' do return .capture none
  match ← next with
  | some (.plain c) =>
    match c with
    | 'P' =>
      if ← accept '<' then
        let name ← nonEmptyName '>'
        if !isIdentifier name then fail
        return .capture (some name)
      else if ← accept '=' then
        let name ← nonEmptyName ')'
        if !isIdentifier name then fail
        match (← get).names.get? name with
        | some i => return .reference (← referenceTo o i)
        | none => fail
      else fail
    | ':' => return .plain o
    | '#' =>
      skipComment bound
      return .comment
    | '=' => return .ahead false
    | '!' => return .ahead true
    | '<' =>
      if ← accept '=' then return .behind false
      if ← accept '!' then return .behind true
      fail
    | '(' =>
      let i ← conditionGroup (← nonEmptyName ')')
      checkReference i
      return .condition i
    | '>' => return .atomic
    | _ => if isFlag c || c == '-' then flagOpening o c else fail
  | _ => fail

/-! ## Sequences and groups -/

/-- Reads a sequence. `whole` tells whether options for the whole pattern may still come. -/
abbrev SequenceReader := Bool → Options → Read Pattern

def moreChoices (sequence : SequenceReader) (top : Bool) (o : Options) :
    Nat → List Pattern → Read (List Pattern)
  | 0, _ => fail
  | n + 1, acc => do
    if ← accept '|' then
      let r ← get
      let p ← sequence false (if top then r.options else o)
      moreChoices sequence top o n (acc ++ [p])
    else return acc

def choices (sequence : SequenceReader) (top : Bool) (o : Options) : Read Pattern := do
  let first ← sequence top o
  let r ← get
  return ofChoices (← moreChoices sequence top o (r.marks.length + 1) [first])

/-- The rest of a group after what it starts with; `none` when it is no part of the sequence. -/
def groupPiece (sequence : SequenceReader) (o : Options) : Opening → Read (Option Piece)
  | .comment | .options => return none
  | .reference p => return some ⟨p, true⟩
  | .capture name => do
    let i := (← get).groups.length
    match name with
    | some name =>
      if (← get).names.has name then fail
      modify fun r => { r with groups := r.groups ++ [none], names := r.names.set name i }
    | none => modify fun r => { r with groups := r.groups ++ [none] }
    let body ← choices sequence false o
    expect ')'
    modify fun r => { r with groups := r.groups.set i (some body.width) }
    return some ⟨.group i body, true⟩
  | .plain inner => do
    let body ← choices sequence false inner
    expect ')'
    return some ⟨body, true⟩
  | .atomic => do
    let body ← choices sequence false o
    expect ')'
    return some ⟨.atomic body, true⟩
  | .ahead negated => do
    let body ← choices sequence false o
    expect ')'
    return some ⟨.ahead negated body, true⟩
  | .behind negated => do
    let outer := (← get).behindFrom
    modify fun r => { r with behindFrom := outer.or (some r.groups.length) }
    let body ← choices sequence false o
    modify fun r => { r with behindFrom := outer }
    expect ')'
    return some ⟨.behind negated body, true⟩
  | .condition i => do
    let yes ← sequence false o
    let no ← if ← accept '|' then sequence false o else pure .empty
    expect ')'
    return some ⟨.ifGroup i yes no, true⟩

def skipLine : Nat → Read Unit
  | 0 => return ()
  | n + 1 => do
    match ← next with
    | none => return ()
    | some m => if m == .plain '\n' then return () else skipLine n

def isVerboseBlank (c : Char) : Bool := " \t\n\r\x0b\x0c".toList.contains c

def pieces : Nat → Bool → Options → List Piece → Read (List Piece)
  | 0, _, _, _ => fail
  | n + 1, whole, o, acc => do
    let again := pieces n whole o
    match ← peek with
    | none => return acc
    | some .dangling => fail
    | some (.escaped c) =>
      advance
      again ((← escape o c) :: acc)
    | some (.plain c) =>
      if c == '|' || c == ')' then return acc
      advance
      if o.verbose && isVerboseBlank c then again acc
      else if o.verbose && c == '#' then do
        skipLine ((← get).marks.length + 1)
        again acc
      else match c with
      | '[' => again ((← setPiece o) :: acc)
      | '?' => again (← repeated 0 (some 1) acc)
      | '*' => again (← repeated 0 none acc)
      | '+' => again (← repeated 1 none acc)
      | '\x7b' =>
        match ← braces with
        | some (least, most) => again (← repeated least most acc)
        | none => again (ofChar o c.toNat :: acc)
      | '.' => again (⟨.set (if o.dotAll then .any else .notNewline), true⟩ :: acc)
      | '^' => again (ofAnchor (if o.multiline then .lineStart else .textStart) :: acc)
      | '$' => again (ofAnchor (if o.multiline then .lineEnd else .lastEnd) :: acc)
      | '(' =>
        let start ← opening o
        match start with
        | .options => do
          if !whole || !acc.isEmpty then fail
          pieces n whole (← get).options acc
        | _ =>
          let sequence : SequenceReader := fun w o' => do
            return ofItems ((← pieces n w o' []).reverse.map (·.pattern))
          match ← groupPiece sequence o start with
          | some p => again (p :: acc)
          | none => again acc
      | _ => again (ofChar o c.toNat :: acc)

/-- A sequence with at most so many pieces, at any depth. -/
def sequence (bound : Nat) : SequenceReader := fun whole o => do
  return ofItems ((← pieces bound whole o []).reverse.map (·.pattern))

def pattern (bound : Nat) : Read Pattern := do
  let p ← choices (sequence bound) true {}
  let r ← get
  if r.options.ascii && r.options.unicode then throw .refused
  if !r.marks.isEmpty then fail
  if r.awaited.any (r.groups.length ≤ ·) then fail
  if r.options.template && p.hasRepeat then fail
  if !p.behindFixed then fail
  return p

end Read

def read (text : String) (characters : Characters := noCharacters) : Except ReadError Pattern := do
  let ms := marks text.toList
  if ms.head? == some .dangling then throw .malformed
  return (← (Read.pattern (ms.length + 1)).run { marks := ms, characters }).1

end ApiSchema.Pattern
