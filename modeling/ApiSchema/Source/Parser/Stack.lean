import ApiSchema.Source.Lexer.Layout
import ApiSchema.Source.Parser.Derivation

/-!
Stacks with several tops. Where a text can be read in more than one way, the stack has a top for each
of them; they share what lies below. A cell has a link to every cell that can lie below it, with the
part in between. Two tops in one state at one place are merged into one.
-/
namespace ApiSchema.Source.Parser

open Lexer

structure Link where
  cell : Nat
  part : Derivation

structure Cell where
  state : Nat
  /-- The offset that was read up to. -/
  position : Nat
  /-- The weight of the parts from the bottom up to here. -/
  weight : Int
  links : List Link

instance : Inhabited Cell := ⟨⟨0, 0, 0, []⟩⟩

inductive Status where
  | active
  | paused
  | halted
deriving DecidableEq, Repr

structure Head where
  cell : Nat
  layout : Layout
  status : Status

instance : Inhabited Head := ⟨⟨0, {}, .halted⟩⟩

structure Stack where
  cells : Array Cell
  heads : Array Head

namespace Stack

/-- The stack in front of a text that starts at an offset. -/
def initial (position : Nat) : Stack := ⟨#[⟨0, position, 0, []⟩], #[⟨0, {}, .active⟩]⟩

def head (s : Stack) (v : Nat) : Head := s.heads.getD v default

def cell (s : Stack) (i : Nat) : Cell := s.cells.getD i default

def top (s : Stack) (v : Nat) : Cell := s.cell (s.head v).cell

def isActive (s : Stack) (v : Nat) : Bool := v < s.heads.size && (s.head v).status == .active

def setStatus (s : Stack) (v : Nat) (status : Status) : Stack :=
  { s with heads := s.heads.modify v fun h => { h with status := status } }

def setLayout (s : Stack) (v : Nat) (layout : Layout) : Stack :=
  { s with heads := s.heads.modify v fun h => { h with layout := layout } }

def remove (s : Stack) (v : Nat) : Stack := { s with heads := s.heads.eraseIdxIfInBounds v }

def replace (s : Stack) (v w : Nat) : Stack :=
  let h := s.head w
  { s with heads := (s.heads.modify v fun _ => h).eraseIdxIfInBounds w }

def swap (s : Stack) (v w : Nat) : Stack := { s with heads := s.heads.swapIfInBounds v w }

def push (s : Stack) (v : Nat) (part : Derivation) (state : Nat) : Stack :=
  let below := (s.head v).cell
  let cell : Cell :=
    ⟨state, part.extent.stop, (s.cell below).weight + part.weight, [⟨below, part⟩]⟩
  let n := s.cells.size
  { cells := s.cells.push cell
    heads := s.heads.modify v fun h => { h with cell := n } }

/-! ## Merging -/

def maxLinks : Nat := 8

def setPart (part : Derivation) : Nat → List Link → List Link
  | _, [] => []
  | 0, l :: rest => ⟨l.cell, part⟩ :: rest
  | n + 1, l :: rest => l :: setPart part n rest

inductive LinkChoice where
  /-- The link is as good as one of the cell. -/
  | drop
  /-- The part takes the place of that of the `n`th link. -/
  | improve (n : Nat)
  /-- The cells below are merged. -/
  | mergeBelow (cell : Nat)
  | append

/-- Looks for a link of a cell that a further one agrees with. -/
def chooseLink (s : Stack) (link : Link) : Nat → List Link → LinkChoice
  | _, [] => .append
  | n, l :: rest =>
    if l.part.isLike link.part then
      if l.cell == link.cell then
        if l.part.weight < link.part.weight then .improve n else .drop
      else
        let a := s.cell l.cell
        let b := s.cell link.cell
        if a.state == b.state && a.position == b.position then .mergeBelow l.cell
        else chooseLink s link (n + 1) rest
    else chooseLink s link (n + 1) rest

/-- Adds a link to a cell. A link with a like part is not added again: between the same cells the
heavier part stays, and else the cells below are merged where they agree. -/
def addLink : Nat → Stack → Nat → Link → Stack
  | 0, s, _, _ => s
  | fuel + 1, s, i, link =>
    if link.cell == i then s
    else
      let c := s.cell i
      let weight := (s.cell link.cell).weight + link.part.weight
      match s.chooseLink link 0 c.links with
      | .drop => s
      | .improve n =>
        { s with cells := s.cells.modify i fun c =>
            { c with links := setPart link.part n c.links, weight := weight } }
      | .mergeBelow below =>
        let s := (s.cell link.cell).links.foldl (fun s l => addLink fuel s below l) s
        { s with cells := s.cells.modify i fun c => { c with weight := max c.weight weight } }
      | .append =>
        if c.links.length == maxLinks then s
        else
          { s with cells := s.cells.modify i fun c =>
              { c with links := c.links ++ [link], weight := max c.weight weight } }

def canMerge (s : Stack) (v w : Nat) : Bool :=
  let a := s.head v
  let b := s.head w
  a.status == .active && b.status == .active && (s.cell a.cell).state == (s.cell b.cell).state &&
    (s.cell a.cell).position == (s.cell b.cell).position && a.layout == b.layout

/-- Merges the second top into the first, if they agree. -/
def merge? (s : Stack) (v w : Nat) : Option Stack :=
  if s.canMerge v w then
    let i := (s.head v).cell
    let links := (s.top w).links
    some ((links.foldl (fun s l => addLink s.cells.size s i l) s).remove w)
  else none

/-! ## Paths down -/

/-- A way down from a top: the parts that were met, the lowest first. -/
structure Walk where
  cell : Nat
  parts : List Derivation
  count : Nat

def Walk.through (w : Walk) (l : Link) : Walk :=
  ⟨l.cell, l.part :: w.parts, if l.part.isExtra then w.count else w.count + 1⟩

def maxWalks : Nat := 64

/-- One step of every way: those that are at their goal are found; the others go on with the first
link, and their further links become ways of their own. -/
def walkStep (s : Stack) (goal : Walk → Cell → Bool) :
    List Walk → Nat → List Walk × List Walk × List Walk
  | [], _ => ([], [], [])
  | w :: rest, size =>
    let c := s.cell w.cell
    if goal w c then
      let (found, walks, more) := walkStep s goal rest (size - 1)
      (w :: found, walks, more)
    else match c.links with
      | [] => walkStep s goal rest (size - 1)
      | l :: others =>
        let further := (others.take (maxWalks - size)).map w.through
        let (found, walks, more) := walkStep s goal rest (size + further.length)
        (found, w.through l :: walks, further ++ more)

def walks (s : Stack) (goal : Walk → Cell → Bool) : Nat → List Walk → List Walk
  | 0, _ | _, [] => []
  | fuel + 1, ws =>
    let (found, next, more) := s.walkStep goal ws ws.length
    found ++ s.walks goal fuel (next ++ more)

/-- The ways down from a top over so many parts, extra ones not counted. -/
def walksOver (s : Stack) (v count : Nat) : List Walk :=
  s.walks (fun w _ => w.count == count) (s.cells.size + 1) [⟨(s.head v).cell, [], 0⟩]

def walksToBottom (s : Stack) (v : Nat) : List Walk :=
  s.walks (fun _ c => c.links.isEmpty) (s.cells.size + 1) [⟨(s.head v).cell, [], 0⟩]

end Stack
end ApiSchema.Source.Parser
