import ApiSchema.Source.Grammar.State
import ApiSchema.Source.Lexer.Token
import ApiSchema.Source.Parser.Stack

/-!
Runs of the parser. A top of the stack takes the next token: productions that end in front of it are
replaced by their names, which may take several ways, and then the token is put on the stack. All tops go
on side by side; those in front of a token that cannot follow are given up as long as another one
can go on.

`run` gives the derivation of a whole text, or the parts that lie on the stack where no top can go on.
-/
namespace ApiSchema.Source.Parser

open Grammar Lexer

structure Input where
  tables : Tables
  vocabulary : Vocabulary
  chars : Array Char

structure Run where
  stack : Stack
  machine : Machine
  /-- The preferred derivation of the whole text so far. -/
  finished : Option Derivation := none

/-! ## Reductions -/

/-- At most so many tops are kept after a round. -/
def maxTops : Nat := 6

/-- So many more tops may be made within a round. -/
def spareTops : Nat := 4

/-- The extra parts at the end, which belong to what comes after. -/
def splitTrailing (parts : List Derivation) : List Derivation × List Derivation :=
  let trailing := (parts.reverse.takeWhile Derivation.isExtra).reverse
  (parts.take (parts.length - trailing.length), trailing)

structure Landing where
  cell : Nat
  /-- The parts of every way, the first way first. -/
  ways : List (List Derivation)

def addWay (w : Stack.Walk) : List Landing → List Landing
  | [] => [⟨w.cell, [w.parts]⟩]
  | l :: rest =>
    if l.cell == w.cell then ⟨l.cell, l.ways ++ [w.parts]⟩ :: rest else l :: addWay w rest

def preferred (a b : Derivation × List Derivation) : Derivation × List Derivation :=
  if a.1.prefersSecond b.1 then b else a

/-- The preferred derivation of a name among several ways, and the extra parts after it. -/
def preferredWay (p : Production) (production position : Nat) (ways : List (List Derivation)) :
    Derivation × List Derivation :=
  let candidates := ways.map fun parts =>
    let (parts, trailing) := splitTrailing parts
    (Derivation.ofParts p.name production 0 position parts, trailing)
  let best := match candidates with
    | [] => (Derivation.ofParts p.name production 0 position [], [])
    | first :: rest => rest.foldl preferred first
  (Derivation.ofParts p.name production p.weight position best.1.children, best.2)

/-- Merges a new top into the first of the tops before it that it agrees with, `except` apart. -/
def mergeBack (s : Stack) (except w : Nat) : List Nat → Option Stack
  | [] => none
  | v :: rest =>
    if v == except then mergeBack s except w rest
    else match s.merge? v w with
      | some s => some s
      | none => mergeBack s except w rest

/-- Puts a reduced name on new tops, one for each landing; `w` is the first of them. -/
def reduceLandings (input : Input) (p : Production) (production v : Nat) :
    List Landing → Nat → Run → Run
  | [], _, r => r
  | l :: rest, w, r =>
    let halted := (r.stack.heads.toList.filter fun h => h.status == .halted).length
    if maxTops + spareTops + halted < w then
      reduceLandings input p production v rest w { r with stack := r.stack.remove w }
    else
      let (d, trailing) := preferredWay p production (r.stack.cell l.cell).position l.ways
      let (state, machine) := r.machine.move input.tables (r.stack.cell l.cell).state p.name
      let stack := (r.stack.push w d state)
      let stack := trailing.foldl (fun s t => s.push w t state) stack
      match mergeBack stack v w (List.range w) with
      | some stack => reduceLandings input p production v rest w { r with stack, machine }
      | none => reduceLandings input p production v rest (w + 1) { r with stack, machine }

/-- Replaces the symbols of a production on a top by its name. The results are new tops after all
others. -/
def Run.reduce (r : Run) (input : Input) (v production : Nat) : Run :=
  match input.tables.productions[production]? with
  | none => r
  | some p =>
    let landings := (r.stack.walksOver v p.steps.length).foldl (fun ls w => addWay w ls) []
    let w := r.stack.heads.size
    let layout := (r.stack.head v).layout
    let heads := landings.foldl (fun hs l => hs.push ⟨l.cell, layout, .active⟩) r.stack.heads
    reduceLandings input p production v landings w { r with stack := { r.stack with heads } }

/-! ## Whole texts -/

/-- The parts of a whole text in one list: extra parts outside the text are put beside its own. -/
def spliceWhole (symbol : Nat) : List Derivation → List Derivation
  | [] => []
  | d :: rest => if d.symbol == symbol then d.children ++ rest else d :: spliceWhole symbol rest

/-- Keeps the preferred one of the derivations of the whole text. -/
def Run.accept (r : Run) (input : Input) (v : Nat) : Run :=
  let symbol := input.tables.number.name (.form .module)
  let roots := (r.stack.walksToBottom v).map fun w =>
    let production := ((w.parts.find? fun d => d.symbol == symbol).map fun d =>
      match d with
      | .node _ p _ _ _ => p
      | .token _ _ _ => 0).getD 0
    Derivation.ofParts symbol production 0 0 (spliceWhole symbol w.parts)
  let finished := roots.foldl (fun best d =>
    match best with
    | none => some d
    | some b => if b.prefersSecond d then some d else some b) r.finished
  { r with stack := r.stack.setStatus v .halted, finished }

/-! ## Tokens -/

def Run.shift (r : Run) (input : Input) (v : Nat) (t : Token) : Run :=
  let state := (r.stack.top v).state
  let part := Derivation.token t.symbol t.extra ⟨t.before, t.start, t.stop⟩
  if t.extra then { r with stack := r.stack.push v part state }
  else
    let (next, machine) := r.machine.move input.tables state t.symbol
    { r with stack := (r.stack.push v part next).setLayout v t.layout, machine }

inductive Outcome where
  | done
  /-- Productions were replaced; the first new top, if any is left. -/
  | reduced (top : Option Nat)
  | nothing

def Run.perform (input : Input) (v : Nat) (t : Token) : List Action → Run → Outcome → Run × Outcome
  | [], r, outcome => (r, outcome)
  | .shift :: _, r, _ => (r.shift input v t, .done)
  | .accept :: _, r, _ => (r.accept input v, .done)
  | .reduce production :: rest, r, outcome =>
    let size := r.stack.heads.size
    let r := r.reduce input v production
    let last := match outcome with
      | .reduced last => last
      | _ => none
    perform input v t rest r
      (.reduced (if size < r.stack.heads.size then some size else last))

def couldBeName (input : Input) (symbol : Nat) : Bool :=
  match input.tables.number.terminals[symbol]? with
  | some (.word _) => !input.vocabulary.reserved.contains symbol
  | _ => false

/-- Takes a token on a top: reduces in front of it as long as that is possible. -/
def Run.take (input : Input) (v : Nat) : Nat → Token → Run → Run
  | 0, _, r => { r with stack := r.stack.setStatus v .paused }
  | fuel + 1, t, r =>
    if t.extra then r.shift input v t
    else
      let kernel := (r.machine.state (r.stack.top v).state).kernel
      let (r, outcome) := Run.perform input v t (kernel.actions input.tables t.symbol) r .nothing
      match outcome with
      | .done => r
      | .reduced (some w) => take input v fuel t { r with stack := r.stack.replace v w }
      | .reduced none => { r with stack := r.stack.setStatus v .halted }
      | .nothing =>
        let identifier := input.tables.number.terminal .identifier
        if couldBeName input t.symbol && !(kernel.actions input.tables identifier).isEmpty then
          take input v fuel { t with symbol := identifier } r
        else { r with stack := r.stack.setStatus v .paused }

def Run.advance (r : Run) (input : Input) (v : Nat) : Run :=
  let head := r.stack.head v
  let cell := r.stack.cell head.cell
  let context : Context := ⟨input.chars, input.vocabulary, (r.machine.state cell.state).valid⟩
  match next? context head.layout cell.position with
  | none => { r with stack := r.stack.setStatus v .paused }
  | some t => r.take input v ((r.stack.cells.size + 1) * input.tables.number.size) t

/-! ## Rounds -/

/-- Lets a top go on until it is past the offset that was reached, or as far as another top. -/
def advanceTop (input : Input) (v : Nat) : Nat → Nat → Run → Run × Nat
  | 0, last, r => (r, last)
  | fuel + 1, last, r =>
    if r.stack.isActive v then
      let r := r.advance input v
      let position := (r.stack.top v).position
      if last < position || (0 < v && position == last) then (r, position)
      else advanceTop input v fuel last r
    else (r, last)

/-- Lets every top go on, those that are made meanwhile too. -/
def advanceTops (input : Input) (steps : Nat) : Nat → Nat → Nat → Run → Run × Nat
  | 0, _, last, r => (r, last)
  | fuel + 1, v, last, r =>
    if v < r.stack.heads.size then
      let (r, last) := advanceTop input v steps last r
      advanceTops input steps fuel (v + 1) last r
    else (r, last)

/-- How far a top got: whether it is stuck, and its weight. -/
structure Standing where
  stuck : Bool
  weight : Int

def standing (s : Stack) (v : Nat) : Standing := ⟨(s.head v).status == .paused, (s.top v).weight⟩

/-- Compares a top with those before it: a stuck top gives way to one that is not, equal ones are
merged, and of others the heavier comes first. Returns where to go on. -/
def settleTop (mine : Standing) : Nat → Nat → Nat → Stack → Stack × Nat
  | 0, i, _, s => (s, i + 1)
  | fuel + 1, i, j, s =>
    if j < i then
      let theirs := standing s j
      if mine.stuck && !theirs.stuck then (s.remove i, i)
      else if theirs.stuck && !mine.stuck then settleTop mine fuel (i - 1) j (s.remove j)
      else match s.merge? j i with
        | some s => (s, i)
        | none =>
          if theirs.weight < mine.weight then settleTop mine fuel i (j + 1) (s.swap i j)
          else settleTop mine fuel i (j + 1) s
    else (s, i + 1)

/-- Drops tops with nothing left to do and compares the others. -/
def settleTops : Nat → Nat → Stack → Stack
  | 0, _, s => s
  | fuel + 1, i, s =>
    if i < s.heads.size then
      if (s.head i).status == .halted then settleTops fuel i (s.remove i)
      else
        let (s, i) := settleTop (standing s i) (s.heads.size + 1) i 0 s
        settleTops fuel i s
    else s

def condense (s : Stack) : Stack :=
  let s := settleTops (4 * s.heads.size + 4) 0 s
  { s with heads := s.heads.extract 0 maxTops }

inductive Reading where
  | whole (d : Derivation)
  /-- The text cannot be read; these parts of it could be, from its start. -/
  | broken (parts : List Derivation)

def endedProduction? (input : Input) (k : Kernel) : Option Nat :=
  k.findSome? fun (i, _) =>
    let item := input.tables.items.getD i default
    if item.next.isNone && item.name != input.tables.number.name .start then some item.production
    else none

/-- Replaces what is at its end on the first top, whatever comes next. -/
def Run.wrapUp (input : Input) : Nat → Run → Run
  | 0, r => r
  | fuel + 1, r =>
    match endedProduction? input (r.machine.state (r.stack.top 0).state).kernel with
    | none => r
    | some production =>
      let size := r.stack.heads.size
      let r := r.reduce input 0 production
      if size < r.stack.heads.size then wrapUp input fuel { r with stack := r.stack.replace 0 size }
      else r

def Run.parts (input : Input) (r : Run) : List Derivation :=
  let r := Run.wrapUp input ((r.stack.cells.size + 1) * input.tables.number.size)
    { r with stack := { r.stack with heads := r.stack.heads.extract 0 1 } }
  (((r.stack.walksToBottom 0).head?).map Stack.Walk.parts).getD []

/-- Round after round, until no top is left or none can go on. -/
def rounds (input : Input) : Nat → Nat → Run → Reading
  | 0, _, r => .broken (Run.parts input r)
  | fuel + 1, last, r =>
    let (r, last) := advanceTops input (input.chars.size + 64) (2 * maxTops + 64) 0 last r
    let r := { r with stack := condense r.stack }
    if r.stack.heads.any fun h => h.status == .active then rounds input fuel last r
    else match r.finished with
      | some d => .whole d
      | none => .broken (Run.parts input r)

def run (input : Input) : Reading :=
  let marked := input.chars[0]? == some (Char.ofNat 0xFEFF)
  let start := if marked then 1 else 0
  rounds input (8 * input.chars.size + 64) start
    { stack := Stack.initial start, machine := Machine.initial input.tables }

end ApiSchema.Source.Parser
