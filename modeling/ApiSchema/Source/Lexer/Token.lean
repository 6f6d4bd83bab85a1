import ApiSchema.Source.Grammar.Production
import ApiSchema.Source.Lexer.Layout
import ApiSchema.Source.Lexer.Letter

/-!
Tokens. Tokens of layout come first; else blanks are skipped and the longest token is taken that the
parser can use. A word that the grammar names is that word where the parser can use it, or where a
name could stand and the word is reserved; else it is an identifier.

`next` finds the token at an offset, given the tokens that the parser can use as a bit set.
-/
namespace ApiSchema.Source.Lexer

open Grammar

structure Token where
  symbol : Nat
  /-- Offsets: where the last token ended, where this one starts and where it ends. -/
  before : Nat
  start : Nat
  stop : Nat
  layout : Layout
  extra : Bool

/-- The tokens of a grammar as the lexer needs them. -/
structure Vocabulary where
  number : Numbering
  /-- Punctuation, the longest first. -/
  marks : List (List Char × Nat)
  words : Std.HashMap String Nat
  reserved : List Nat

def Vocabulary.of (number : Numbering) : Vocabulary :=
  let all := number.terminals.toList.zipIdx
  let marks := all.filterMap fun (t, i) => match t with
    | .mark s => some (s.toList, i)
    | _ => none
  let words := all.filterMap fun (t, i) => match t with
    | .word s => some (s, i)
    | _ => none
  { number := number
    marks := marks.mergeSort fun a b => b.1.length ≤ a.1.length
    words := Std.HashMap.ofList words
    reserved := words.filterMap fun (s, i) => if Grammar.reserved.contains s then some i else none }

/-! ## Characters -/

def isGap (c : Char) : Bool :=
  c == ' ' || (9 ≤ c.toNat && c.toNat ≤ 13) || c.toNat == 0xFEFF || c.toNat == 0x2060 ||
    c.toNat == 0x200B

def isHexDigit (c : Char) : Bool :=
  c.isDigit || ('a' ≤ c && c ≤ 'f') || ('A' ≤ c && c ≤ 'F')

def skipWhile (cs : Array Char) (p : Char → Bool) (i : Nat) : Nat :=
  if h : i < cs.size then if p cs[i] then skipWhile cs p (i + 1) else i else i
termination_by cs.size - i

/-- The first offset from `i` on that holds one of the given characters or a null character. -/
def skipUntil (cs : Array Char) (stops : List Char) (i : Nat) : Nat :=
  skipWhile cs (fun c => c != '\x00' && !stops.contains c) i

def isAt (cs : Array Char) : List Char → Nat → Bool
  | [], _ => true
  | c :: rest, i => cs[i]? == some c && isAt cs rest (i + 1)

/-! ## Numbers -/

/-- Steps over digits of a class, with single underscores before further digits. -/
def baseDigits (cs : Array Char) (isDigit : Char → Bool) : Nat → Nat → Nat
  | 0, i => i
  | fuel + 1, i =>
    let j := if cs[i]? == some '_' then i + 1 else i
    let k := skipWhile cs isDigit j
    if k == j then i else baseDigits cs isDigit fuel k

def decimalDigits (cs : Array Char) : Nat → Nat → Nat
  | 0, i => i
  | fuel + 1, i =>
    let j := skipWhile cs Char.isDigit i
    if j == i then i
    else if cs[j]? == some '_' then decimalDigits cs fuel (j + 1)
    else j

def skipOne (cs : Array Char) (choices : List Char) (i : Nat) : Nat :=
  match cs[i]? with
  | some c => if choices.contains c then i + 1 else i
  | none => i

def integerEnd? (cs : Array Char) (i : Nat) : Option Nat :=
  let fuel := cs.size + 1
  let decimal :=
    let j := decimalDigits cs fuel i
    if j == i then none else some (skipOne cs ['L', 'l', 'J', 'j'] j)
  let based (isDigit : Char → Bool) : Option Nat :=
    let j := baseDigits cs isDigit fuel (i + 2)
    if j == i + 2 then decimal else some (skipOne cs ['L', 'l'] j)
  if cs[i]? == some '0' then
    match cs[i + 1]? with
    | some 'x' | some 'X' => based isHexDigit
    | some 'o' | some 'O' => based fun c => '0' ≤ c && c ≤ '7'
    | some 'b' | some 'B' => based fun c => c == '0' || c == '1'
    | _ => decimal
  else decimal

def skipExponent (cs : Array Char) (i : Nat) : Nat :=
  if cs[i]? == some 'e' || cs[i]? == some 'E' then
    let j := skipOne cs ['+', '-'] (i + 1)
    let k := decimalDigits cs (cs.size + 1) j
    if k == j then i else k
  else i

/-- Where a number with a point or an exponent that starts at an offset ends. -/
def floatEnd? (cs : Array Char) (i : Nat) : Option Nat :=
  let fuel := cs.size + 1
  let whole := decimalDigits cs fuel i
  let stop? :=
    if cs[whole]? == some '.' then
      let fraction := decimalDigits cs fuel (whole + 1)
      if whole == i && fraction == whole + 1 then none else some (skipExponent cs fraction)
    else
      let j := skipExponent cs whole
      if whole == i || j == whole then none else some j
  stop?.map (skipOne cs ['J', 'j'])

/-! ## Escapes -/

def escapeEnd? (cs : Array Char) (i : Nat) : Option Nat :=
  let hexes (n : Nat) : Option Nat :=
    if (List.range n).all (fun k => ((cs[i + 1 + k]?).map isHexDigit).getD false) then some (i + 1 + n)
    else none
  match cs[i]? with
  | some 'u' => hexes 4
  | some 'U' => hexes 8
  | some 'x' => hexes 2
  | some '\n' => some (i + 1)
  | some '\r' => if cs[i + 1]? == some '\n' then some (i + 2) else none
  | some 'N' =>
    if cs[i + 1]? == some openBrace then
      let j := skipUntil cs [closeBrace] (i + 2)
      if j == i + 2 || cs[j]? != some closeBrace then none else some (j + 1)
    else none
  | some c =>
    if c.isDigit then
      let j := skipWhile cs Char.isDigit i
      some (min j (i + 3))
    else if "'\"abfrntv\\".toList.contains c then some (i + 1)
    else none
  | none => none

/-- Where the line end after a backslash ends, if the line is continued there. -/
def continuationEnd? (cs : Array Char) (i : Nat) : Option Nat :=
  match cs[i]? with
  | some '\n' => some (i + 1)
  | some '\r' => if cs[i + 1]? == some '\n' then some (i + 2) else none
  | some '\x00' => some (i + 1)
  | _ => none

/-! ## The next token -/

/-- What the lexer looks at: a text, the tokens of the grammar, and those that the parser can
use. -/
structure Context where
  chars : Array Char
  vocabulary : Vocabulary
  valid : Nat

namespace Context

def number (x : Context) (t : Terminal) : Nat := x.vocabulary.number.terminal t

def allows (x : Context) (t : Terminal) : Bool := x.valid.testBit (x.number t)

/-- The longest mark at an offset that the parser can use. -/
def mark? (x : Context) (i : Nat) : Option (Nat × Nat) :=
  (x.vocabulary.marks.find? fun (text, n) => x.valid.testBit n && isAt x.chars text i).map
    fun (text, n) => (n, i + text.length)

def wordSymbol (x : Context) (word : String) : Nat :=
  let identifier := x.number .identifier
  match x.vocabulary.words.get? word with
  | some n =>
    if x.valid.testBit n || (x.vocabulary.reserved.contains n && x.valid.testBit identifier) then n
    else identifier
  | none => identifier

def number? (x : Context) (i : Nat) : Option (Nat × Nat) :=
  let integer := if x.allows .integer then integerEnd? x.chars i else none
  let float := if x.allows .float then floatEnd? x.chars i else none
  match integer, float with
  | some a, some b => if a < b then some (x.number .float, b) else some (x.number .integer, a)
  | some a, none => some (x.number .integer, a)
  | none, some b => some (x.number .float, b)
  | none, none => none

def longer (a b : Option (Nat × Nat)) : Option (Nat × Nat) :=
  match a, b with
  | some (n, i), some (m, j) => if i < j then some (m, j) else some (n, i)
  | some a, none => some a
  | none, b => b

/-- The token at an offset where none is skipped: its symbol and where it ends. -/
def plain? (x : Context) (i : Nat) : Option (Nat × Nat) :=
  match x.chars[i]? with
  | none => if x.allows .finish then some (x.number .finish, i) else none
  | some c =>
    if c == '#' then
      some (x.number .comment, skipUntil x.chars ['\n'] i)
    else if c == '\\' then
      (continuationEnd? x.chars (i + 1)).map fun j => (x.number .continuation, j)
    else if isNameStart c then
      let j := skipWhile x.chars isNameContinue i
      some (x.wordSymbol (String.ofList (x.chars.extract i j).toList), j)
    else if c == '!' && x.allows .conversion &&
        ((x.chars[i + 1]?).map fun c => 'a' ≤ c && c ≤ 'z').getD false then
      some (x.number .conversion, i + 2)
    else longer (x.number? i) (x.mark? i)

def backslash (x : Context) (i : Nat) : Nat × Nat :=
  match escapeEnd? x.chars (i + 1) with
  | some j => (x.number .escape, j)
  | none => match continuationEnd? x.chars (i + 1) with
    | some j => (x.number .continuation, j)
    | none => (x.number .backslash, i + 1)

/-- The token at an offset that no layout makes: its symbol, where it starts and where it ends. -/
def internal? (x : Context) (i : Nat) : Option (Nat × Nat × Nat) :=
  if x.allows .escape && x.chars[i]? == some '\\' then
    let (n, j) := x.backslash i
    some (n, i, j)
  else if x.allows .formatText then
    let start := skipWhile x.chars (· == '\n') i
    let stop := skipUntil x.chars [openBrace, closeBrace, '\n'] start
    if start < stop then some (x.number .formatText, start, stop)
    else (x.plain? start).map fun (n, j) => (n, start, j)
  else
    let start := skipWhile x.chars isGap i
    (x.plain? start).map fun (n, j) => (n, start, j)

def wanted (x : Context) : Wanted :=
  { newline := x.allows .newline
    indent := x.allows .indent
    dedent := x.allows .dedent
    stringStart := x.allows .stringStart
    stringText := x.allows .stringText
    braceEscape := x.allows .braceEscape
    closing := x.allows (.mark ")") || x.allows (.mark "]") || x.allows (.mark "\x7d")
    except := x.allows (.word "except") }

end Context

def LayoutToken.terminal : LayoutToken → Terminal
  | .newline => .newline
  | .indent => .indent
  | .dedent => .dedent
  | .stringStart => .stringStart
  | .stringText => .stringText
  | .braceEscape => .braceEscape
  | .stringEnd => .stringEnd

def next? (x : Context) (layout : Layout) (i : Nat) : Option Token :=
  match scan x.chars x.wanted layout i with
  | some found =>
    some ⟨x.number found.token.terminal, i, found.start, found.stop, found.layout, false⟩
  | none =>
    (x.internal? i).map fun (n, start, stop) =>
      ⟨n, i, start, stop, layout, n == x.number .comment || n == x.number .continuation⟩

end ApiSchema.Source.Lexer
