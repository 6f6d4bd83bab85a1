import ApiSchema.Source.Tree
import ApiSchema.Text.Utf8
import ApiSchema.Value

/-!
Values of literals. Numbers, strings, signed numbers, constants and containers have a value; every
other expression stands for its own text.
-/
namespace ApiSchema.Source

open Text

/-! ## Numbers -/

def basedDigit? (base : Nat) (c : Char) : Option Nat :=
  let value? :=
    if c.isDigit then some (c.toNat - '0'.toNat)
    else if 'a' ≤ c && c ≤ 'f' then some (c.toNat - 'a'.toNat + 10)
    else if 'A' ≤ c && c ≤ 'F' then some (c.toNat - 'A'.toNat + 10)
    else none
  value?.filter (· < base)

/-- Digits in a base, each after at most one underscore. -/
def readBased? (base : Nat) (acc : Nat) : List Char → Option Nat
  | [] => some acc
  | '_' :: c :: rest | c :: rest => do readBased? base (acc * base + (← basedDigit? base c)) rest

def maxDigits : Nat := 4300

/-- A decimal number: whole, with a fraction or exponent, or imaginary. -/
def decimalValue? (cs : List Char) : Option Value :=
  match readDigits cs with
  | (d :: ds, []) =>
    if d == 0 && ds.any (· != 0) then none
    else if maxDigits < ds.length + 1 then none
    else some (.int (digitsToNat (d :: ds)))
  | _ =>
    match readDecimal? cs with
    | some (d, []) => some (.float (d.clamped.toDouble false))
    | some (d, ['j']) | some (d, ['J']) => some (.complex (.zero false) (d.clamped.toDouble false))
    | _ => none

def numberValue? (text : String) : Option Value :=
  let based := fun (base : Nat) (digits : List Char) =>
    if digits.isEmpty then none else (readBased? base 0 digits).map fun n => Value.int n
  match text.toList with
  | '0' :: 'x' :: cs | '0' :: 'X' :: cs => based 16 cs
  | '0' :: 'o' :: cs | '0' :: 'O' :: cs => based 8 cs
  | '0' :: 'b' :: cs | '0' :: 'B' :: cs => based 2 cs
  | cs => decimalValue? cs

def signed? (minus : Bool) : Value → Option Value
  | .int n => some (.int (if minus then -n else n))
  | .float x => some (.float (if minus then x.negate else x))
  | .complex re im => some (if minus then .complex re.negate im.negate else .complex re im)
  | _ => none

/-! ## Strings -/

def unifyLines : List Char → List Char
  | [] => []
  | '\r' :: '\n' :: rest | '\r' :: rest => '\n' :: unifyLines rest
  | c :: rest => c :: unifyLines rest

/-- What an escape sequence stands for, by its characters after the backslash, and how many of them
it takes. A backslash that starts no sequence stands for itself. -/
def escape? (bytes : Bool) (cs : List Char) : Option (List Nat × Nat) :=
  let hexes := fun (n : Nat) (digits : List Char) =>
    let part := digits.take n
    if part.length == n then
      match part.mapM (basedDigit? 16) with
      | some vs =>
        let value := vs.foldl (fun a v => a * 16 + v) 0
        if value ≤ 0x10FFFF then some ([value], n + 1) else none
      | none => none
    else none
  match cs with
  | [] => none
  | c :: rest =>
    match c with
    | '\n' => some ([], 1)
    | '\\' => some ([92], 1)
    | '\'' => some ([39], 1)
    | '"' => some ([34], 1)
    | 'a' => some ([7], 1)
    | 'b' => some ([8], 1)
    | 'f' => some ([12], 1)
    | 'n' => some ([10], 1)
    | 'r' => some ([13], 1)
    | 't' => some ([9], 1)
    | 'v' => some ([11], 1)
    | 'x' => hexes 2 rest
    | 'u' => if bytes then some ([92], 0) else hexes 4 rest
    | 'U' => if bytes then some ([92], 0) else hexes 8 rest
    | 'N' => if bytes then some ([92], 0) else none
    | _ =>
      let octal := (cs.take 3).takeWhile fun d => '0' ≤ d && d ≤ '7'
      if octal.isEmpty then some ([92], 0)
      else
        let value := octal.foldl (fun a d => a * 8 + (d.toNat - '0'.toNat)) 0
        some ([if bytes then value % 256 else value], octal.length)

/-- The characters that the inside of a literal stands for; the first ones may be taken already. -/
def unescape? (bytes : Bool) : Nat → List Char → Option (List Nat)
  | _, [] => some []
  | n + 1, _ :: rest => unescape? bytes n rest
  | 0, c :: rest =>
    if c == '\\' then do
      let (out, used) ← escape? bytes rest
      return out ++ (← unescape? bytes used rest)
    else do return c.toNat :: (← unescape? bytes 0 rest)

def breaksLine : List Char → Bool
  | [] => false
  | '\\' :: _ :: rest => breaksLine rest
  | c :: rest => c == '\n' || breaksLine rest

structure Piece where
  bytes : Bool
  content : List Nat

/-- One string literal by its text. Format strings have no value, nor has a text with a NUL. -/
def piece? (text : String) : Option Piece := do
  let cs := unifyLines text.toList
  if cs.contains '\x00' then none
  let isQuote := fun (c : Char) => c == '\'' || c == '"'
  let flags := (cs.takeWhile (!isQuote ·)).map Char.toLower
  let quoted := cs.dropWhile (!isQuote ·)
  let (bytes, raw) ← match String.ofList flags with
    | "" | "u" => some (false, false)
    | "r" => some (false, true)
    | "b" => some (true, false)
    | "br" | "rb" => some (true, true)
    | _ => none
  let quote ← quoted.head?
  let triple := 6 ≤ quoted.length && quoted.take 3 == [quote, quote, quote]
  let width := if triple then 3 else 1
  let inside := (quoted.drop width).take (quoted.length - 2 * width)
  if !triple && breaksLine inside then none
  if bytes && inside.any (fun c => 128 ≤ c.toNat) then none
  let content ← if raw then some (inside.map Char.toNat) else unescape? bytes 0 inside
  return ⟨bytes, content⟩

/-- Whether two parts of a literal that stand so far apart are on one line for good: blanks, and
line ends after a backslash. -/
def isInlineGap : List Char → Bool
  | [] => true
  | '\\' :: '\n' :: rest => isInlineGap rest
  | c :: rest => (c == ' ' || c == '\t' || c == '\x0c') && isInlineGap rest

def between (t : Tree) (start stop : Nat) : List Char :=
  unifyLines ((t.text.toList.drop (start - t.span.start)).take (stop - start))

/-- Whether all parts of a literal are on one line for good. -/
def partsJoined (t : Tree) : List Tree → Bool
  | a :: b :: rest => isInlineGap (between t a.span.stop b.span.start) && partsJoined t (b :: rest)
  | _ => true

/-- String literals side by side: all of them are texts, or all bytes. -/
def joinPieces? : List Piece → Option Value
  | [] => none
  | ps@(p :: _) =>
    if ps.all (·.bytes == p.bytes) then
      let content := ps.flatMap (·.content)
      some (if p.bytes then .bytes content else .str (String.ofList (content.map Char.ofNat)))
    else none

def stringLiteral? (t : Tree) : Option Value :=
  match t.form with
  | .string => do joinPieces? [← piece? t.text]
  | .concatenatedString =>
    let parts := t.children.filter fun c => c.form == .string
    if partsJoined t parts then do joinPieces? (← parts.mapM fun c => piece? c.text) else none
  | _ => none

def stringValue? (t : Tree) : Option String :=
  match stringLiteral? t with
  | some (.str s) => some s
  | some (.bytes bs) => some (ofBytes bs)
  | _ => none

/-! ## Values -/

def maxParentheses : Nat := 200

mutual

def enclosedNumber? (limit : Nat) : Tree → Option Value
  | .node form _ _ text children =>
    match form with
    | .integer | .float => numberValue? text
    | .parenthesized => if limit == 0 then none else enclosedNumberIn? (limit - 1) children
    | _ => none

/-- The number among the parts in parentheses; continued lines do not count. -/
def enclosedNumberIn? (limit : Nat) : List Tree → Option Value
  | [] => none
  | t :: ts => if t.form == .lineContinuation then enclosedNumberIn? limit ts else enclosedNumber? limit t

end

def signedNumber? (t : Tree) : Option Value := do
  let operand ← t.child? .argument
  let sign ← t.text.toList.head?
  if sign == '~' then none
  if !isInlineGap (between t (t.span.start + 1) operand.span.start) then none
  signed? (sign == '-') (← enclosedNumber? maxParentheses operand)

/-- The key of an entry: an expression counts as its text. -/
def keyOf : Value → Value
  | .expr text => .str text
  | v => v

mutual

/-- The value of an expression. A dictionary fails on a key that is a list or dictionary. -/
def literalValue : Tree → Except Fault Value
  | .node form role span text children =>
    let self := Tree.node form role span text children
    match form, children with
    | .parenthesized, inner :: _ => literalValue inner
    | .parenthesized, [] => return .null
    | .integer, _ | .float, _ => return (numberValue? text).getD (.expr text)
    | .string, _ | .concatenatedString, _ => return (stringLiteral? self).getD (.expr text)
    | .unaryOperator, _ => return (signedNumber? self).getD (.expr text)
    | .trueLiteral, _ => return .bool true
    | .falseLiteral, _ => return .bool false
    | .noneLiteral, _ => return .null
    | .ellipsis, _ => return .ellipsis
    | .list, cs | .set, cs => return .list (← literalValues cs)
    | .tuple, cs => return .tuple (← literalValues cs)
    | .dictionary, cs => return .dict (← literalEntries [] cs)
    | _, _ => return .expr text

def literalValues : List Tree → Except Fault (List Value)
  | [] => return []
  | t :: ts => return (← literalValue t) :: (← literalValues ts)

def literalEntries (known : List (Value × Value)) : List Tree → Except Fault (List (Value × Value))
  | [] => return known
  | .node .pair _ _ _ parts :: rest => do
    let key := keyOf (← literalIn .key parts)
    let value ← literalIn .value parts
    if key.hashable then literalEntries (Value.setEntry known key value) rest
    else throw .mismatch
  | _ :: rest => literalEntries known rest

/-- The value of the first of some trees in a role; a missing one is nothing. -/
def literalIn (r : Role) : List Tree → Except Fault Value
  | [] => return .null
  | t :: ts => if t.role == some r then literalValue t else literalIn r ts

end

end ApiSchema.Source
