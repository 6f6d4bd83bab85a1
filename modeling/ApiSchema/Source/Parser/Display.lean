import ApiSchema.Source.Parser.Derivation

/-!
Syntax trees of derivations. A tree shows the forms of a derivation: groups and repetitions give way
to their parts, and tokens without a form are left out. A part has the role that its production gives
it, or else that of the group it lies in.
-/
namespace ApiSchema.Source.Parser

open Grammar

/-- A text with the line of every offset. -/
structure Page where
  chars : Array Char
  lines : Array Nat

namespace Page

def of (chars : Array Char) : Page :=
  let (lines, _) := chars.foldl (fun (lines, n) c =>
    let n := if c == '\n' then n + 1 else n
    (lines.push n, n)) (#[1], 1)
  ⟨chars, lines⟩

def line (p : Page) (i : Nat) : Nat := p.lines.getD i 1

def text (p : Page) (x : Extent) : String :=
  String.ofList (p.chars.extract x.start x.stop).toList

def span (p : Page) (x : Extent) : Span := ⟨x.start, x.stop, p.line x.start, p.line x.stop⟩

end Page

def terminalForm? : Terminal → Option Form
  | .identifier => some .identifier
  | .integer => some .integer
  | .float => some .float
  | .escape => some .escapeSequence
  | .conversion => some .conversion
  | .stringStart => some .stringStart
  | .stringEnd => some .stringEnd
  | .braceEscape => some .braceEscape
  | .continuation => some .lineContinuation
  | .word "True" => some .trueLiteral
  | .word "False" => some .falseLiteral
  | .word "None" => some .noneLiteral
  | .mark "..." => some .ellipsis
  | _ => none

def form? (g : Tables) (symbol : Nat) : Option Form :=
  if symbol < g.number.terminals.size then (g.number.terminals[symbol]?).bind terminalForm?
  else match g.number.names[symbol - g.number.terminals.size]? with
    | some (.form f) => some f
    | _ => none

def isWord (g : Tables) (w : String) (d : Derivation) : Bool :=
  d.symbol == g.number.terminal (.word w)

/-- The form as its tokens tell: what is asynchronous, what yields from another source, and which
operator joins its operands. -/
def refine (g : Tables) (page : Page) (parts : List Derivation) : Form → Form
  | .functionDefinition =>
    if parts.any (isWord g "async") then .asyncFunctionDefinition else .functionDefinition
  | .yield => if parts.any (isWord g "from") then .yieldFrom else .yield
  | .binaryOperator _ =>
    match parts.find? fun d => d.symbol < g.number.terminals.size && !d.isExtra with
    | some d => .binaryOperator (page.text d.extent)
    | none => .binaryOperator ""
  | f => f

def stepsOf (g : Tables) (production : Nat) : List Step :=
  ((g.productions[production]?).map Production.steps).getD []

mutual

/-- The trees that show a derivation in a role, perhaps in another form than its own. -/
def trees (g : Tables) (page : Page) (role : Option Role) (shown : Option Form) :
    Derivation → List Tree
  | .token symbol _ extent =>
    match shown <|> form? g symbol with
    | some f => [.node f role (page.span extent) (page.text extent) []]
    | none => []
  | .node symbol production extent _ parts =>
    match shown <|> form? g symbol with
    | some f =>
      [.node (refine g page parts f) role (page.span extent) (page.text extent)
        (treesOfParts g page none (stepsOf g production) parts)]
    | none => treesOfParts g page role (stepsOf g production) parts

/-- The trees of the parts of a production; extra parts are none of its steps. -/
def treesOfParts (g : Tables) (page : Page) (role : Option Role) :
    List Step → List Derivation → List Tree
  | _, [] => []
  | [], d :: rest => trees g page none none d ++ treesOfParts g page role [] rest
  | s :: steps, d :: rest =>
    if d.isExtra then trees g page none none d ++ treesOfParts g page role (s :: steps) rest
    else trees g page (s.role <|> role) s.shown d ++ treesOfParts g page role steps rest

end
end ApiSchema.Source.Parser
