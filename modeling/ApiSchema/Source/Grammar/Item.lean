import ApiSchema.Source.Grammar.Production

/-!
Items: a production with a dot between what was read of it and what is to come. Two items that agree
in what is to come, and in what the tree shows of what was read, are one; their order is the order
in which their reductions are tried.

`Tables` holds what a parser needs to know of a grammar. Sets of tokens are bit sets.
-/
namespace ApiSchema.Source.Grammar

structure Item where
  /-- A production that the item belongs to. -/
  production : Nat
  name : Nat
  dot : Nat
  next : Option Nat
  /-- What can come after the next symbol, unless the production ends there. -/
  follow : Option Nat
  /-- The item with the next symbol read. -/
  advanced : Nat
  precedence : Int
  associativity : Option Associativity
deriving Repr, Inhabited

structure Opening where
  item : Nat
  /-- Tokens that can follow it whatever follows the name. -/
  lookahead : Nat
  /-- Whether what follows the name can follow it. -/
  carries : Bool
deriving Repr

structure Tables where
  number : Numbering
  productions : Array Production
  items : Array Item
  first : Array Nat
  /-- For a name and a symbol, the items that start the name with that symbol read. -/
  openings : Array (Array (List Opening))
  /-- Names that are replaced at once when they are made up of one symbol. -/
  transparent : Array Bool
  /-- The items of an empty start: a whole text, and an empty one. -/
  start : List (Nat × Nat)

/-! ## First tokens -/

def bit (i : Nat) : Nat := 1 <<< i

/-- Applies a function until nothing changes, at most so many times. -/
def settle {α : Type} [BEq α] (f : α → α) : Nat → α → α
  | 0, x => x
  | n + 1, x =>
    let y := f x
    if y == x then x else settle f n y

/-- One round: what a name can start with is what its productions can start with. -/
def firstRound (productions : Array Production) (first : Array Nat) : Array Nat :=
  productions.foldl (fun first p =>
    match p.steps with
    | [] => first
    | s :: _ => first.modify p.name (· ||| first.getD s.symbol 0)) first

/-- The tokens that each symbol can start with. No name but the whole text can be empty. -/
def firstSets (number : Numbering) (productions : Array Production) : Array Nat :=
  let initial := (Array.range number.size).map fun i => if i < number.terminals.size then bit i else 0
  settle (firstRound productions) number.size initial

/-! ## Items -/

def associativityCode : Option Associativity → Int
  | none => 0
  | some .left => 1
  | some .right => 2

structure StepCodes where
  steps : Std.HashMap Step Nat
  frames : Std.HashMap (Option Role × Option Form) Nat

def StepCodes.of (productions : Array Production) : StepCodes :=
  productions.foldl (fun codes p =>
    p.steps.foldl (fun codes s =>
      { steps := codes.steps.insertIfNew s codes.steps.size
        frames := codes.frames.insertIfNew (s.role, s.shown) codes.frames.size }) codes) ⟨{}, {}⟩

def stepBefore? (p : Production) : Nat → Option Step
  | 0 => none
  | dot + 1 => p.steps[dot]?

/-- What tells an item apart; keys are in the order of their items. -/
def itemKey (codes : StepCodes) (p : Production) (dot : Nat) : List Int :=
  let before := stepBefore? p dot
  let precedence : List Int := match before.bind Step.precedence with
    | none => [0, 0]
    | some n => [1, n]
  let read := (p.steps.take dot).map fun s => Int.ofNat (codes.frames.getD (s.role, s.shown) 0)
  let toCome := (p.steps.drop dot).map fun s => Int.ofNat (codes.steps.getD s 0)
  [Int.ofNat dot, Int.ofNat p.name, p.weight, Int.ofNat p.steps.length] ++ precedence ++
    [associativityCode (before.bind Step.associativity)] ++ read ++ toCome

def keyLE : List Int → List Int → Bool
  | [], _ => true
  | _ :: _, [] => false
  | a :: as, b :: bs => if a < b then true else if b < a then false else keyLE as bs

def distinctKeys : List (List Int × Nat × Nat) → List (List Int × Nat × Nat)
  | [] => []
  | [x] => [x]
  | x :: y :: rest => if x.1 == y.1 then distinctKeys (x :: rest) else x :: distinctKeys (y :: rest)
termination_by xs => xs.length

/-- The keys of all items in order, each with a production and dot that has it. -/
def itemKeys (codes : StepCodes) (productions : Array Production) : List (List Int × Nat × Nat) :=
  let all := productions.toList.zipIdx.flatMap fun (p, i) =>
    (List.range (p.steps.length + 1)).map fun dot => (itemKey codes p dot, i, dot)
  distinctKeys (all.mergeSort fun a b => keyLE a.1 b.1)

def itemOf (codes : StepCodes) (numbers : Std.HashMap (List Int) Nat) (first : Array Nat)
    (p : Production) (i dot : Nat) : Item :=
  let before := stepBefore? p dot
  { production := i
    name := p.name
    dot := dot
    next := (p.steps[dot]?).map Step.symbol
    follow := (p.steps[dot + 1]?).map fun s => first.getD s.symbol 0
    advanced := numbers.getD (itemKey codes p (dot + 1)) 0
    precedence := (before.bind Step.precedence).getD 0
    associativity := before.bind Step.associativity }

/-! ## What can start a name -/

/-- Lookahead of a name at the start of another one: tokens, and whether what follows the other
name counts. -/
abbrev Ahead := Option (Nat × Bool)

def Ahead.join (a : Ahead) (tokens : Nat) (carries : Bool) : Ahead :=
  match a with
  | none => some (tokens, carries)
  | some (ts, c) => some (ts ||| tokens, c || carries)

/-- For every name, the names that its productions start with and what can come after them there. -/
def leadingNames (number : Numbering) (productions : Array Production) (first : Array Nat) :
    Array (List (Nat × Option Nat)) :=
  let terminals := number.terminals.size
  productions.foldl (fun edges p =>
    match p.steps with
    | [] => edges
    | s :: rest =>
      if s.symbol < terminals then edges
      else
        let edge := (s.symbol - terminals, rest.head?.map fun r => first.getD r.symbol 0)
        edges.modify (p.name - terminals) fun es => if es.contains edge then es else edge :: es)
    (Array.replicate number.names.size [])

/-- One round: what starts a name starts all that starts with the name. -/
def aheadRound (leading : Array (List (Nat × Option Nat))) (ahead : Array Ahead) : Array Ahead :=
  (List.range leading.size).foldl (fun ahead i =>
    match ahead.getD i none with
    | none => ahead
    | some (tokens, carries) =>
      (leading.getD i []).foldl (fun ahead (j, follow) =>
        match follow with
        | some ts => ahead.modify j fun a => a.join ts false
        | none => ahead.modify j fun a => a.join tokens carries) ahead) ahead

def aheadOf (leading : Array (List (Nat × Option Nat))) (name : Nat) : Array Ahead :=
  let initial := (Array.replicate leading.size none).modify name fun _ => some (0, true)
  settle (aheadRound leading) leading.size initial

/-- Adds an opening to those with other items, or to the one with the same item. -/
def addOpening (o : Opening) : List Opening → List Opening
  | [] => [o]
  | p :: rest =>
    if p.item == o.item then ⟨p.item, p.lookahead ||| o.lookahead, p.carries || o.carries⟩ :: rest
    else p :: addOpening o rest

/-- For every symbol, the items that start a name with that symbol read. -/
def openingsOf (number : Numbering) (leading : Array (List (Nat × Option Nat)))
    (byName : Array (List (Nat × Nat))) (name : Nat) : Array (List Opening) :=
  let ahead := aheadOf leading name
  (List.range ahead.size).foldl (fun table i =>
    match ahead.getD i none with
    | none => table
    | some (tokens, carries) =>
      (byName.getD i []).foldl (fun table (symbol, item) =>
        table.modify symbol (addOpening ⟨item, tokens, carries⟩)) table)
    (Array.replicate number.size [])

/-! ## Tables -/

/-- Names that are not shown, are never shown as something else, and do not stand for forms that
can replace one another. -/
def transparentNames (number : Numbering) (productions : Array Production) : Array Bool :=
  let shownAs := productions.foldl (fun table p =>
    p.steps.foldl (fun table s => if s.shown.isSome then table.modify s.symbol fun _ => true else table)
      table) (Array.replicate number.size false)
  (Array.range number.size).map fun i =>
    if i < number.terminals.size then false
    else match number.names[i - number.terminals.size]? with
      | some (.group g) => !families.contains g && !shownAs.getD i false
      | some (.repetition _) => !shownAs.getD i false
      | _ => false

def Tables.of (given : List (Name × Rule)) : Tables :=
  let expanded := expandedRules given
  let number := Numbering.of expanded
  let productions := (productionsOfRules number expanded).toArray
  let first := firstSets number productions
  let codes := StepCodes.of productions
  let keys := itemKeys codes productions
  let numbers : Std.HashMap (List Int) Nat := Std.HashMap.ofList (keys.mapIdx fun n (k, _, _) => (k, n))
  let items := keys.map fun (_, i, dot) =>
    itemOf codes numbers first (productions.getD i ⟨0, [], 0⟩) i dot
  let itemNumber (p : Production) (dot : Nat) : Nat := numbers.getD (itemKey codes p dot) 0
  let leading := leadingNames number productions first
  let byName := productions.foldl (fun table p =>
    match p.steps with
    | [] => table
    | s :: _ =>
      let entry := (s.symbol, itemNumber p 1)
      table.modify (p.name - number.terminals.size) fun es =>
        if es.contains entry then es else entry :: es)
    (Array.replicate number.names.size [])
  let starts := productions.toList.filter fun p =>
    p.name == number.name .start || p.steps.isEmpty
  { number := number
    productions := productions
    items := items.toArray
    first := first
    openings := (Array.range number.names.size).map (openingsOf number leading byName)
    transparent := transparentNames number productions
    start := (starts.map fun p => (itemNumber p 0, bit 0)).mergeSort fun a b => a.1 ≤ b.1 }

def tables : Tables := Tables.of rules

end ApiSchema.Source.Grammar
