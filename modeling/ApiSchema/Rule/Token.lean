import ApiSchema.Entries
import ApiSchema.Value

/-!
Tokens of validation rules. A rule is written `name:param,param`, and the rules of a field as a list or
as one text with pipes between them. A pipe inside the brackets of a regular expression belongs to the
expression.
-/
namespace ApiSchema.Rule

open Text

structure Token where
  name : String
  params : List String := []
deriving DecidableEq, Repr

/-- Rules whose one parameter may hold commas. -/
def unsplitRules : List String := ["regex", "not_regex", "date_format"]

namespace Token

def parse (raw : String) : Token :=
  match cut ':' (strip raw) with
  | (name, none) => { name := lower (strip name) }
  | (name, some rest) =>
    let name := lower (strip name)
    if unsplitRules.contains name then { name, params := [rest] }
    else { name, params := (split ',' rest).map strip }

def first? (t : Token) : Option String := t.params.head?

def text (t : Token) : String :=
  match t.params with
  | [] => t.name
  | ps => t.name ++ ":" ++ join "," ps

end Token

/-! ## Pipes -/

/-- How many brackets are open after a text. A character after a backslash does not count. -/
def openBrackets (depth : Int) (escaped : Bool) : List Char → Int
  | [] => depth
  | c :: rest =>
    if escaped then openBrackets depth false rest
    else if c == '\\' then openBrackets depth true rest
    else if "([\x7b".toList.contains c then openBrackets (depth + 1) false rest
    else if ")]\x7d".toList.contains c then openBrackets (depth - 1) false rest
    else openBrackets depth false rest

def balanced (text : String) : Bool := openBrackets 0 false text.toList ≤ 0

def startsPattern (segment : String) : Bool :=
  let s := lower (strip segment)
  startsWith s "regex:" || startsWith s "not_regex:"

def isOpen (segment : String) : Bool :=
  startsPattern segment && !balanced ((cut ':' segment).2.getD "")

/-- Segments between pipes, those that go on joined with what follows. -/
def mergeFrom : Option String → List String → List String
  | none, [] => []
  | some s, [] => [s]
  | none, s :: rest => if isOpen s then mergeFrom (some s) rest else s :: mergeFrom none rest
  | some o, s :: rest =>
    let joined := o ++ "|" ++ s
    if isOpen joined then mergeFrom (some joined) rest else joined :: mergeFrom none rest

def splitPipes (raw : String) : List String := mergeFrom none (split '|' raw)

/-! ## Rules of a field -/

inductive Element where
  | text (s : String)
  | token (t : Token)
  | other

inductive Raw where
  | nothing
  | line (s : String)
  | token (t : Token)
  | elements (es : List Element)

def parseLine (s : String) : List Token :=
  ((splitPipes s).filter (!isBlankText ·)).map Token.parse

def Element.token? : Element → Option Token
  | .text s => if isBlankText s then none else some (.parse s)
  | .token t => some t
  | .other => none

/-- The rules of a field in order. The elements of a list are not split at pipes. -/
def parse : Raw → List Token
  | .nothing => []
  | .line s => parseLine s
  | .token t => [t]
  | .elements es => es.filterMap Element.token?

def Element.ofValue : Value → Element
  | .str s => .text s
  | _ => .other

/-- Rules that are a literal value: a text, a container of texts, or nothing. -/
def Raw.ofValue : Value → Except Fault Raw
  | .null => .ok .nothing
  | .str s => .ok (.line s)
  | .list vs | .tuple vs => .ok (.elements (vs.map .ofValue))
  | .dict es => .ok (.elements (es.map fun e => .ofValue e.1))
  | .bytes bs => .ok (.elements (bs.map fun _ => .other))
  | _ => .error .mismatch

/-- The rules of the fields of a literal; expressions are left out. -/
def ofLiteral (entries : List (Value × Value)) : Except Fault (Entries (List Token)) :=
  entries.foldlM (fun acc (path, rules) =>
    if rules.isExpr then return acc
    else do
      let tokens := parse (← Raw.ofValue rules)
      return Entries.set acc (← path.spell) tokens) []

end ApiSchema.Rule
