import ApiSchema.Source.Grammar.Item

/-!
States of a parser. A state is the set of items that the text read so far can be in, each with the
tokens that can follow its production. What else the items open is looked up when a symbol is read,
so that a state is made only when a text leads to it; `Machine` keeps the states that were met.

`actions` says what to do at a token. Where a production could end or go on, precedence decides,
then associativity; where neither does, both are done.
-/
namespace ApiSchema.Source.Grammar

abbrev Kernel := List (Nat × Nat)

namespace Kernel

def add (item lookahead : Nat) : Kernel → Kernel
  | [] => [(item, lookahead)]
  | (i, l) :: rest =>
    if item < i then (item, lookahead) :: (i, l) :: rest
    else if item == i then (i, l ||| lookahead) :: rest
    else (i, l) :: add item lookahead rest

def advance (g : Tables) (k : Kernel) (symbol : Nat) : Kernel :=
  k.foldl (fun result (i, lookahead) =>
    let item := g.items.getD i default
    match item.next with
    | none => result
    | some next =>
      let result := if next == symbol then result.add item.advanced lookahead else result
      if next < g.number.terminals.size then result
      else
        let follow := item.follow.getD lookahead
        ((g.openings.getD (next - g.number.terminals.size) #[]).getD symbol []).foldl
          (fun result o =>
            result.add o.item (if o.carries then o.lookahead ||| follow else o.lookahead)) result)
    []

/-- Whether nothing of a production is shown by the tree, and it is a single symbol. -/
def isPlainUnit (p : Production) : Bool :=
  match p.steps with
  | [s] => s.role.isNone && s.shown.isNone && p.weight == 0
  | _ => false

/-- The name that all items of a state make up of one symbol, if they all do. -/
def unit? (g : Tables) (k : Kernel) : Option Nat :=
  match k with
  | [] => none
  | (i, _) :: _ =>
    let name := (g.items.getD i default).name
    let isUnit (i : Nat) : Bool :=
      let item := g.items.getD i default
      item.next.isNone && item.name == name &&
        ((g.productions[item.production]?).map isPlainUnit).getD false
    if g.transparent.getD name false && k.all (fun e => isUnit e.1) then some name else none

/-- The items after a symbol was read, or after the name that the symbol alone makes up. -/
def target (g : Tables) (k : Kernel) : Nat → Nat → Kernel
  | 0, symbol => k.advance g symbol
  | n + 1, symbol =>
    let next := k.advance g symbol
    match next.unit? g with
    | some name => k.target g n name
    | none => next

def valid (g : Tables) (k : Kernel) : Nat :=
  k.foldl (fun tokens (i, lookahead) =>
    match (g.items.getD i default).next with
    | none => tokens ||| lookahead
    | some next => tokens ||| g.first.getD next 0) 0

end Kernel

/-! ## Actions -/

inductive Action where
  | shift
  | reduce (production : Nat)
  | accept
deriving DecidableEq, Repr

/-- The items that end at a token: those of the highest precedence. -/
def endingItems (g : Tables) (k : Kernel) (token : Nat) : List Item :=
  k.foldl (fun found (i, lookahead) =>
    let item := g.items.getD i default
    if item.next.isNone && lookahead.testBit token then
      match found with
      | [] => [item]
      | best :: _ =>
        if best.precedence < item.precedence then [item]
        else if item.precedence < best.precedence then found
        else found ++ [item]
    else found) []

def continuingItems (g : Tables) (k : Kernel) (token : Nat) : List Item :=
  k.filterMap fun (i, _) =>
    let item := g.items.getD i default
    match item.next with
    | some next => if (g.first.getD next 0).testBit token then some item else none
    | none => none

def allEndingItems (g : Tables) (k : Kernel) (token : Nat) : List Item :=
  k.filterMap fun (i, lookahead) =>
    let item := g.items.getD i default
    if item.next.isNone && lookahead.testBit token then some item else none

def isRepetition (g : Tables) (name : Nat) : Bool :=
  match g.number.names[name - g.number.terminals.size]? with
  | some (.repetition _) => true
  | _ => false

/-- Whether all items are those of one repetition, which ends after each part. -/
def areOfOneRepetition (g : Tables) : List Item → Bool
  | [] => false
  | item :: rest => isRepetition g item.name && rest.all fun other => other.name == item.name

def endAction (g : Tables) (item : Item) : Action :=
  if item.name == g.number.name .start then .accept else .reduce item.production

def Kernel.actions (g : Tables) (k : Kernel) (token : Nat) : List Action :=
  let ending := endingItems g k token
  let continuing := continuingItems g k token
  let reductions := ending.map (endAction g)
  match continuing, ending with
  | [], _ => reductions
  | _, [] => [.shift]
  | _, best :: _ =>
    let started := continuing.filter fun i => 0 < i.dot
    if areOfOneRepetition g (started ++ allEndingItems g k token) then reductions
    else
      let isMore := started.any fun i => best.precedence < i.precedence
      let isLess := started.any fun i => i.precedence < best.precedence
      if isMore && !isLess then [.shift]
      else if isLess && !isMore then reductions
      else if isMore && isLess then reductions ++ [.shift]
      else if ending.all fun i => i.associativity == some .left then reductions
      else if ending.all fun i => i.associativity == some .right then [.shift]
      else reductions ++ [.shift]

/-! ## States that were met -/

structure State where
  kernel : Kernel
  valid : Nat
deriving Inhabited

structure Machine where
  states : Array State
  numbers : Std.HashMap Kernel Nat
  moves : Std.HashMap (Nat × Nat) Nat

namespace Machine

/-- The machine in front of a text; its only state is that of number zero. -/
def initial (g : Tables) : Machine :=
  { states := #[⟨g.start, Kernel.valid g g.start⟩]
    numbers := Std.HashMap.ofList [(g.start, 0)]
    moves := {} }

def state (m : Machine) (s : Nat) : State := m.states.getD s default

def intern (m : Machine) (g : Tables) (k : Kernel) : Nat × Machine :=
  match m.numbers.get? k with
  | some s => (s, m)
  | none =>
    let s := m.states.size
    (s, { m with
      states := m.states.push ⟨k, Kernel.valid g k⟩
      numbers := m.numbers.insert k s })

def move (m : Machine) (g : Tables) (s symbol : Nat) : Nat × Machine :=
  match m.moves.get? (s, symbol) with
  | some t => (t, m)
  | none =>
    let (t, m) := m.intern g ((m.state s).kernel.target g g.number.names.size symbol)
    (t, { m with moves := m.moves.insert (s, symbol) t })

end Machine
end ApiSchema.Source.Grammar
