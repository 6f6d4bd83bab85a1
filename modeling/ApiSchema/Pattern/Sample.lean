import ApiSchema.Pattern.Match
import ApiSchema.Pattern.Read

/-!
Example texts for patterns. A table holds well-known patterns; for a flat pattern, a row of atoms with
simple repetitions, an example is put together from a sample of each atom. An example is only given
when it matches the pattern as a whole.
-/
namespace ApiSchema.Pattern

open Text

/-! ## Delimiters -/

def delimiters : List Char := ['/', '~', '#', '!', '@']

def isAsciiLetter (c : Char) : Bool := c.isAlpha

/-- The inside of a pattern that is written between two delimiters, with flags after the second. -/
def undelimited? : List Char → Option (List Char)
  | [] => none
  | d :: rest =>
    if delimiters.contains d then
      match rest.reverse.dropWhile isAsciiLetter with
      | e :: inside => if e == d && !inside.isEmpty then some inside.reverse else none
      | [] => none
    else none

/-- A pattern without blanks around it, delimiters and flags. -/
def clean (text : String) : String :=
  let bare := strip text
  ((undelimited? bare.toList).map String.ofList).getD bare

/-! ## Well-known patterns -/

structure Known where
  sample : String
  description : String

def knownPatterns : Entries Known := [
  ("^\\d+$", ⟨"123456", "Must contain only digits."⟩),
  ("^[0-9]+$", ⟨"123456", "Must contain only digits."⟩),
  ("^[a-zA-Z]+$", ⟨"example", "Must contain only letters."⟩),
  ("^[a-zA-Z0-9]+$", ⟨"example123", "Must contain only letters and numbers."⟩),
  ("^[a-zA-Z0-9_-]+$",
    ⟨"example_123", "Must contain only letters, numbers, underscores and hyphens."⟩),
  ("^\\w+$", ⟨"example_123", "Must contain only word characters."⟩),
  ("^.\x7b10\x7d-.\x7b10\x7d$",
    ⟨"abcd123456-xyz7890123", "Must be 10 characters, a hyphen, then 10 characters."⟩),
  ("^[0-9]\x7b2,4\x7d$", ⟨"1234", "Must be 2 to 4 digits."⟩),
  ("^[A-Z]\x7b2,3\x7d$", ⟨"ABC", "Must be 2 to 3 uppercase letters."⟩),
  ("^[a-z]\x7b3,\x7d$", ⟨"example", "Must be at least 3 lowercase letters."⟩),
  ("^\\+?[1-9]\\d\x7b1,14\x7d$", ⟨"+1234567890", "Must be a valid phone number."⟩),
  ("^[a-z0-9]+(?:-[a-z0-9]+)*$", ⟨"example-slug", "Must be a lowercase slug."⟩),
  ("^#?[0-9a-fA-F]\x7b6\x7d$", ⟨"#1a2b3c", "Must be a hex colour."⟩)]

/-! ## Samples of atoms -/

def setSamples : Entries String := [
  ("\\d", "1234567890"),
  ("[0-9]", "1234567890"),
  ("[1-9]", "123456789"),
  ("[a-z]", "abcdefghij"),
  ("[A-Z]", "ABCDEFGHIJ"),
  ("[a-zA-Z]", "abcdefghij"),
  ("[A-Za-z]", "abcdefghij"),
  ("[a-zA-Z0-9]", "abc1234567"),
  ("[A-Za-z0-9]", "abc1234567"),
  ("[A-Z0-9]", "ABC1234567"),
  ("[a-z0-9]", "abc1234567"),
  ("[0-9a-f]", "0123456789abcdef"),
  ("[0-9a-fA-F]", "0123456789abcdef"),
  ("[a-fA-F0-9]", "abcdef0123456789"),
  ("\\w", "abc_123456"),
  (".", "abcdefghij"),
  ("\\s", " ")]

/-- A sample of an atom: of a set without an entry its first character, and of anything else the
character it stands for. -/
def sampleOf? (atom : List Char) (samples : Entries String) : Option (List Char) :=
  match samples.get? (String.ofList atom), atom with
  | some sample, _ => some sample.toList
  | none, ['\\', c] => some [c]
  | none, '[' :: rest =>
    if rest.getLast? == some ']' then
      let inside := rest.dropLast
      if inside.head? == some '^' then none
      else match inside.dropWhile (· == '\\') with
        | c :: _ => some [c]
        | [] => none
    else some atom
  | none, _ => some atom

/-! ## Flat patterns -/

def isSpecial (c : Char) : Bool := "\\[]()\x7b\x7d|*+?^$".toList.contains c

/-- The atom at the start of a pattern, and the rest: a set, an escape or a plain character. -/
def atom? (cs : List Char) : Option (List Char × List Char) :=
  match cs with
  | '[' :: rest =>
    let inside := rest.takeWhile (· != ']')
    match rest.dropWhile (· != ']') with
    | _ :: more => if inside.isEmpty then none else some ('[' :: inside ++ [']'], more)
    | [] => none
  | '\\' :: c :: rest => if c == '\n' then none else some (['\\', c], rest)
  | c :: rest => if isSpecial c then none else some ([c], rest)
  | [] => none

inductive Count where
  | exactly (n : List Nat)
  | atLeast (n : List Nat)
  | between (n m : List Nat)

def digits? (cs : List Char) : Option (List Nat × List Char) :=
  let ds := cs.takeWhile isDecimalDigit
  if ds.isEmpty then none else some (ds.filterMap digitValue?, cs.dropWhile isDecimalDigit)

def bracedCount? (cs : List Char) : Option (Count × List Char) := do
  let (low, rest) ← digits? cs
  match rest with
  | '\x7d' :: more => return (.exactly low, more)
  | ',' :: '\x7d' :: more => return (.atLeast low, more)
  | ',' :: more =>
    let (high, after) ← digits? more
    match after with
    | '\x7d' :: final => return (.between low high, final)
    | _ => none
  | _ => none

def usualCount : Nat := 6

/-- A number; too many digits give none. -/
def countNumber? (ds : List Nat) : Option Nat :=
  if Read.digitLimit < ds.length then none else some (digitsToNat ds)

def Count.value? : Count → Option Nat
  | .exactly n => countNumber? n
  | .atLeast n => do return max (← countNumber? n) usualCount
  | .between n m => do return min (max (← countNumber? n) usualCount) (← countNumber? m)

def count? (cs : List Char) : Option Nat × List Char :=
  match cs with
  | '+' :: rest | '*' :: rest => (some usualCount, rest)
  | '?' :: rest => (some 1, rest)
  | '\x7b' :: rest =>
    match bracedCount? rest with
    | some (c, more) => (c.value?, more)
    | none => (some 1, cs)
  | _ => (some 1, cs)

/-- The first part of a flat pattern: a sample of its atom, the repetitions in an example, and the rest. -/
def part? (samples : Entries String) (cs : List Char) : Option (List Char × Nat × List Char) := do
  let (atom, rest) ← atom? cs
  let sample ← sampleOf? atom samples
  let (count, more) := count? rest
  return (sample, ← count, more)

def buildFrom (samples : Entries String) : Nat → List Char → Except Fault (Option (List Char))
  | _, [] => return some []
  | 0, _ :: _ => return none
  | n + 1, cs =>
    match part? samples cs with
    | some (sample, count, more) => do
      let piece ← cycle sample count
      return (← buildFrom samples n more).map (piece ++ ·)
    | none => return none

/-- The atoms of a pattern, without a mark of the start and of the end. -/
def bodyOf (cs : List Char) : List Char :=
  let inner := if cs.head? == some '^' then cs.tail else cs
  match inner.reverse with
  | '$' :: '\\' :: _ => inner
  | '$' :: rest => rest.reverse
  | _ => inner

/-- An example of a flat pattern; a pattern with groups or alternatives has none. -/
def build? (text : String) (samples : Entries String) : Except Fault (Option String) :=
  let body := bodyOf text.toList
  if body.any (fun c => c == '(' || c == ')' || c == '|') then return none
  else return (← buildFrom samples body.length body).map String.ofList

def firstMatch? (pattern : Pattern) : List String → Except Fault (Option String)
  | [] => .ok none
  | text :: rest => do if ← pattern.fullMatch text then return some text else firstMatch? pattern rest

def ReadError.fault : ReadError → Fault
  | .malformed => .invalid
  | .tooLarge => .overflow
  | .refused => .invalid

/-- What examples of patterns are taken from, and the names that characters have. -/
structure Lexicon where
  known : Entries Known := knownPatterns
  samples : Entries String := setSamples
  characters : Characters := noCharacters

instance : Coe (Entries Known) Lexicon := ⟨fun known => { known }⟩

/-- An example that matches a pattern. A pattern that is malformed has none. -/
def exampleFor (lexicon : Lexicon) (text : String) : Except Fault (Option String) := do
  let cleaned := clean text
  match read cleaned lexicon.characters with
  | .error .malformed => return none
  | .error e => throw e.fault
  | .ok pattern =>
    let built ← build? cleaned lexicon.samples
    firstMatch? pattern (((lexicon.known.get? cleaned).map (·.sample)).toList ++ built.toList)

/-! ## Descriptions -/

/-- The first result that some end of a text gives. -/
def firstIn {α : Type} (f : List Char → Option α) : List Char → Option α
  | [] => none
  | c :: rest =>
    match f (c :: rest) with
    | some a => some a
    | none => firstIn f rest

/-- A repetition in braces at the start of a text: its numbers as they stand. -/
def bracedText? (cs : List Char) : Option (List Char × Option (List Char)) :=
  match cs with
  | '\x7b' :: rest =>
    let low := rest.takeWhile isDecimalDigit
    if low.isEmpty then none
    else match rest.dropWhile isDecimalDigit with
      | '\x7d' :: _ => some (low, none)
      | ',' :: more =>
        let high := more.takeWhile isDecimalDigit
        if (more.dropWhile isDecimalDigit).head? == some '\x7d' then some (low, some high) else none
      | _ => none
  | _ => none

def exactCount? (cs : List Char) : Option String := do
  match ← bracedText? cs with
  | (n, none) => return String.ofList n
  | _ => none

def rangedCount? (cs : List Char) : Option (String × String) := do
  match ← bracedText? cs with
  | (n, some (m :: ms)) => return (String.ofList n, String.ofList (m :: ms))
  | _ => none

def leastCount? (cs : List Char) : Option String := do
  match ← bracedText? cs with
  | (n, some []) => return String.ofList n
  | _ => none

/-- What a pattern asks for, in words: by its first exact number of characters, else by its first
range, else by its first lower bound. -/
def describe (known : Entries Known) (text : String) : String :=
  let cleaned := clean text
  let cs := cleaned.toList
  match known.get? cleaned with
  | some k => k.description
  | none =>
    match firstIn exactCount? cs, firstIn rangedCount? cs, firstIn leastCount? cs with
    | some n, _, _ => "Must be exactly " ++ n ++ " characters matching pattern: " ++ cleaned
    | none, some (n, m), _ =>
      "Must be " ++ n ++ " to " ++ m ++ " characters matching pattern: " ++ cleaned
    | none, none, some n => "Must be at least " ++ n ++ " characters matching pattern: " ++ cleaned
    | none, none, none => "Must match the pattern: " ++ cleaned

end ApiSchema.Pattern
