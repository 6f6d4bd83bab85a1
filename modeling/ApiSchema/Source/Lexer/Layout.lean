/-!
Layout: where lines and blocks end, and what lies between quotes. What counts depends on what the
parser can use. The end of a line is a token only where a statement can end, and a deeper line
opens a block only where one can start. A shallower line closes its block, except between brackets that
could be closed there.

`Layout` is what has to be remembered between tokens; `scan` finds the next token of layout.
-/
namespace ApiSchema.Source.Lexer

structure Delimiter where
  quote : Char
  triple : Bool
  raw : Bool
  bytes : Bool
  format : Bool
deriving DecidableEq, Repr

structure Layout where
  /-- Indentation of the open blocks, the innermost first. -/
  indents : List Nat := [0]
  /-- Delimiters of the open string literals, the innermost first. -/
  delimiters : List Delimiter := []
  /-- Whether the literal that was opened last, with none closed since, is a format string. -/
  inFormat : Bool := false
deriving DecidableEq, Repr

structure Wanted where
  newline : Bool
  indent : Bool
  dedent : Bool
  stringStart : Bool
  stringText : Bool
  braceEscape : Bool
  closing : Bool
  except : Bool

inductive LayoutToken where
  | newline
  | indent
  | dedent
  | stringStart
  | stringText
  | braceEscape
  | stringEnd
deriving DecidableEq, Repr

/-- A token of layout with the offsets of its ends, and the layout after it. -/
structure Found where
  token : LayoutToken
  start : Nat
  stop : Nat
  layout : Layout

def backquote : Char := Char.ofNat 96

def openBrace : Char := '\x7b'

def closeBrace : Char := '\x7d'

/-! ## Text between quotes -/

inductive Stretch where
  /-- Text up to an offset. -/
  | text (stop : Nat)
  /-- The closing quotes, which end at an offset. -/
  | closed (stop : Nat)
  /-- No text: something else is to be read first. -/
  | none
  /-- The text ends before the literal does. -/
  | cut (at_ : Nat)

/-- In a raw literal a backslash takes a quote or backslash with it, and a line end. -/
def afterRawBackslash (cs : Array Char) (quote : Char) (i : Nat) : Nat :=
  let i := if cs[i]? == some quote || cs[i]? == some '\\' then i + 1 else i
  if cs[i]? == some '\r' then (if cs[i + 1]? == some '\n' then i + 2 else i + 1)
  else if cs[i]? == some '\n' then i + 1
  else i

/-- Reads text between quotes from an offset on; `any` tells whether plain text was met yet. A line
may end in a literal with single quotes only where no plain text was met. In a bytes literal, a
backslash before `N`, `u` or `U` takes that letter and the next character. -/
def stretch (cs : Array Char) (d : Delimiter) : Nat → Bool → Nat → Stretch
  | 0, _, i => .cut i
  | fuel + 1, any, i =>
    match cs[i]? with
    | .none => .cut i
    | some c =>
      if c == '\x00' then .cut i
      else if d.format && (c == openBrace || c == closeBrace) then
        if any then .text i else .none
      else if c == '\\' then
        if d.raw then stretch cs d fuel any (afterRawBackslash cs d.quote (i + 1))
        else if d.bytes && ((cs[i + 1]?).map fun c => c == 'N' || c == 'u' || c == 'U').getD false then
          stretch cs d fuel true (i + 3)
        else if any then .text i
        else .none
      else if c == d.quote then
        if d.triple then
          if cs[i + 1]? == some d.quote then
            if cs[i + 2]? == some d.quote then (if any then .text i else .closed (i + 3))
            else .text (i + 2)
          else .text (i + 1)
        else if any then .text i
        else .closed (i + 1)
      else if c == '\n' && any && !d.triple then .none
      else stretch cs d fuel true (i + 1)

/-! ## Lines -/

structure Gap where
  stop : Nat
  lineEnd : Bool
  /-- The indentation of the next token, if a line ended. -/
  indent : Nat
  /-- The indentation of the first comment on a line of its own. -/
  comment : Option Nat

def commentEnd (cs : Array Char) : Nat → Nat → Nat
  | 0, i => i
  | fuel + 1, i =>
    match cs[i]? with
    | none => i
    | some c => if c == '\n' || c == '\x00' then i else commentEnd cs fuel (i + 1)

/-- Reads blanks, comments and continued lines; `none` where a comment stands on the line of the
last token, or a backslash continues nothing. Comments count only where `comments` says so. -/
def gap? (cs : Array Char) (comments : Bool) : Nat → Gap → Option Gap
  | 0, g => some g
  | fuel + 1, g =>
    let i := g.stop
    match cs[i]? with
    | none => some { g with indent := 0, lineEnd := true }
    | some c =>
      if c == '\n' then gap? cs comments fuel { g with stop := i + 1, lineEnd := true, indent := 0 }
      else if c == ' ' then gap? cs comments fuel { g with stop := i + 1, indent := g.indent + 1 }
      else if c == '\r' || c == '\x0c' then gap? cs comments fuel { g with stop := i + 1, indent := 0 }
      else if c == '\t' then gap? cs comments fuel { g with stop := i + 1, indent := g.indent + 8 }
      else if c == '#' && comments then
        if g.lineEnd then
          gap? cs comments fuel
            { g with
              stop := commentEnd cs cs.size i + 1
              indent := 0
              comment := g.comment <|> some g.indent }
        else none
      else if c == '\\' then
        let j := if cs[i + 1]? == some '\r' then i + 2 else i + 1
        if cs[j]? == some '\n' || cs.size ≤ j then gap? cs comments fuel { g with stop := j + 1 }
        else none
      else some g

/-- The start of a string literal at an offset: its delimiter, and where its text starts. Any
letters of the known flags may stand before the quote. -/
def delimiterFrom (cs : Array Char) : Nat → Delimiter → Nat → Option (Delimiter × Nat)
  | 0, _, _ => none
  | fuel + 1, d, i =>
    match cs[i]? with
    | none => none
    | some c =>
      if c == 'f' || c == 'F' || c == 't' || c == 'T' then
        delimiterFrom cs fuel { d with format := true } (i + 1)
      else if c == 'r' || c == 'R' then delimiterFrom cs fuel { d with raw := true } (i + 1)
      else if c == 'b' || c == 'B' then delimiterFrom cs fuel { d with bytes := true } (i + 1)
      else if c == 'u' || c == 'U' then delimiterFrom cs fuel d (i + 1)
      else if c == backquote then some ({ d with quote := c }, i + 1)
      else if c == '\'' || c == '"' then
        if cs[i + 1]? == some c && cs[i + 2]? == some c then
          some ({ d with quote := c, triple := true }, i + 3)
        else some ({ d with quote := c }, i + 1)
      else none

def isQuote (c : Char) : Bool := c == '\'' || c == '"' || c == backquote

/-- The token that the end of a line makes after the last token, which ends at `start`. -/
def lineToken? (cs : Array Char) (w : Wanted) (l : Layout) (start : Nat) (g : Gap) : Option Found :=
  let quoteNext := ((cs[g.stop]?).map isQuote).getD false
  let newline? := if w.newline then some ⟨.newline, start, start, l⟩ else none
  match l.indents with
  | [] => newline?
  | current :: outer =>
    let closes := w.dedent || (!w.newline && !(w.stringStart && quoteNext) && !w.closing)
    let commented := ((g.comment).map fun n => decide (current ≤ n)).getD false
    if w.indent && current < g.indent then
      some ⟨.indent, start, start, { l with indents := g.indent :: l.indents }⟩
    else if closes && g.indent < current && !l.inFormat && !commented then
      some ⟨.dedent, start, start, { l with indents := outer }⟩
    else newline?

/-- The token of lines, or the start of a string literal, after the last token. -/
def scanLines (cs : Array Char) (w : Wanted) (l : Layout) (start : Nat) : Option Found :=
  let comments := w.indent || w.dedent || w.newline || w.except
  match gap? cs comments (cs.size + 2) ⟨start, false, 0, none⟩ with
  | none => none
  | some g =>
    match if g.lineEnd then lineToken? cs w l start g else none with
    | some found => some found
    | none =>
      if w.stringStart && g.comment.isNone then
        let plain : Delimiter := ⟨'"', false, false, false, false⟩
        match delimiterFrom cs (cs.size + 1) plain g.stop with
        | some (d, stop) =>
          some ⟨.stringStart, g.stop, stop,
            { l with delimiters := d :: l.delimiters, inFormat := d.format }⟩
        | none => none
      else none

def scan (cs : Array Char) (w : Wanted) (l : Layout) (i : Nat) : Option Found :=
  match l.delimiters with
  | [] => scanLines cs w l i
  | d :: outer =>
    let brace? := (cs[i]?).filter fun c => c == openBrace || c == closeBrace
    if w.braceEscape && d.format && brace?.isSome then
      if cs[i + 1]? == brace? then some ⟨.braceEscape, i, i + 2, l⟩ else none
    else if w.stringText then
      match stretch cs d (cs.size + 1) false i with
      | .text stop => some ⟨.stringText, i, min stop cs.size, l⟩
      | .closed stop => some ⟨.stringEnd, i, stop, { l with delimiters := outer, inFormat := false }⟩
      | .none => none
      | .cut i => scanLines cs w l i
    else scanLines cs w l i

end ApiSchema.Source.Lexer
