import ApiSchema.Text.Told

/-!
Sentences with places to fill in, written as a name in braces. A doubled brace is a brace. After the
name may come parts and elements of what it stands for, then a conversion and a specification, which
may have places of its own.
-/
namespace ApiSchema.Text

structure Place where
  /-- A name, with parts and elements. -/
  field : List Char
  conversion : Option Char := none
  spec : List Char := []
  /-- Whether the specification has places. -/
  nested : Bool := false

/-! ## Reading a place -/

/-- Reads what stands in braces up to the character that ends the field, which is given with the rest.
Elements may hold any character but a bracket. -/
def readField : Nat → List Char → List Char → Except Fault (List Char × Char × List Char)
  | 0, _, _ | _, _, [] => .error .invalid
  | n + 1, acc, c :: rest =>
    if c == '\x7b' then .error .invalid
    else if c == '\x7d' || c == ':' || c == '!' then .ok (acc, c, rest)
    else if c == '[' then
      readField n (acc ++ c :: rest.takeWhile (· != ']')) (rest.dropWhile (· != ']'))
    else readField n (acc ++ [c]) rest

/-- Reads a specification up to the brace that closes its place; `depth` braces are open in it. -/
def readSpec : Nat → List Char → Bool → List Char → Except Fault (List Char × Bool × List Char)
  | _, _, _, [] => .error .invalid
  | depth, acc, nested, c :: rest =>
    if c == '\x7b' then readSpec (depth + 1) (acc ++ [c]) true rest
    else if c == '\x7d' then
      match depth with
      | 0 => .ok (acc, nested, rest)
      | depth + 1 => readSpec depth (acc ++ [c]) nested rest
    else readSpec depth (acc ++ [c]) nested rest

def readPlace (cs : List Char) : Except Fault (Place × List Char) := do
  let (field, stop, rest) ← readField (cs.length + 1) [] cs
  let withSpec (conversion : Option Char) (rest : List Char) : Except Fault (Place × List Char) := do
    let (spec, nested, rest) ← readSpec 0 [] false rest
    return (⟨field, conversion, spec, nested⟩, rest)
  if stop == '\x7d' then return (⟨field, none, [], false⟩, rest)
  else if stop == ':' then withSpec none rest
  else match rest with
    | conversion :: '\x7d' :: rest => return (⟨field, some conversion, [], false⟩, rest)
    | conversion :: ':' :: rest => withSpec (some conversion) rest
    | _ => throw .invalid

/-! ## Filling a place -/

def position? (cs : List Char) : Except Fault (Option Nat) :=
  match cs, readWhole? 0 cs with
  | [], _ => .ok none
  | _, some (n, []) => .ok (some n)
  | _, some (_, _ :: _) => .ok none
  | _, none => .error .invalid

def follow : Nat → Told → List Char → Except Fault Told
  | 0, t, _ | _, t, [] => .ok t
  | n + 1, t, '.' :: rest =>
    let name := rest.takeWhile fun c => c != '.' && c != '['
    if name.isEmpty then .error .invalid
    else do follow n (← t.part (String.ofList name)) (rest.drop name.length)
  | n + 1, t, '[' :: rest => do
    let key := rest.takeWhile (· != ']')
    match rest.drop key.length with
    | [] => throw .invalid
    | _ :: more =>
      let i ← position? key
      if key.isEmpty then throw .invalid
      match i with
      | some i => follow n (← t.element i) more
      | none => throw .mismatch
  | _, _, _ :: _ => .error .invalid

/-- What a field stands for: the text of the one name that is known. No position is known. -/
def fieldValue (name text field : List Char) : Except Fault Told := do
  let first := field.takeWhile fun c => c != '.' && c != '['
  let i ← position? first
  if first.isEmpty || i.isSome then throw .noPosition
  else if first != name then throw .noName
  else follow (field.length + 1) (.text text) (field.drop first.length)

def escapeWide (c : Char) : List Char :=
  let n := c.toNat
  if n < 0x80 then [c]
  else if n < 0x100 then '\\' :: 'x' :: hex 2 n
  else if n < 0x10000 then '\\' :: 'u' :: hex 4 n
  else '\\' :: 'U' :: hex 8 n

def convert (t : Told) : Option Char → Except Fault Told
  | none => .ok t
  | some 's' => .ok (.text t.shown)
  | some 'r' => .ok (.text t.literal)
  | some 'a' => .ok (.text (t.literal.flatMap escapeWide))
  | some _ => .error .invalid

/-- A sentence with a text put in for a name. Specifications are filled in too, down to a depth. -/
def fillFrom (name text : List Char) (depth fuel : Nat) (cs : List Char) : Except Fault (List Char) :=
  match depth, fuel, cs with
  | 0, _, _ => .error .invalid
  | _ + 1, 0, _ | _ + 1, _ + 1, [] => .ok []
  | depth + 1, n + 1, '\x7b' :: '\x7b' :: rest => do
    return '\x7b' :: (← fillFrom name text (depth + 1) n rest)
  | depth + 1, n + 1, '\x7d' :: '\x7d' :: rest => do
    return '\x7d' :: (← fillFrom name text (depth + 1) n rest)
  | depth + 1, n + 1, c :: rest =>
    if c == '\x7d' then .error .invalid
    else if c == '\x7b' then do
      let (place, rest) ← readPlace rest
      let value ← convert (← fieldValue name text place.field) place.conversion
      let spec ← if place.nested then fillFrom name text depth (place.spec.length + 1) place.spec
        else pure place.spec
      return (← value.render spec) ++ (← fillFrom name text (depth + 1) n rest)
    else do return c :: (← fillFrom name text (depth + 1) n rest)
termination_by (depth, fuel)

/-- The sentence with the text in place of every occurrence of the name in braces. -/
def fill (sentence name text : String) : Except Fault String :=
  (fillFrom name.toList text.toList 2 (sentence.length + 1) sentence.toList).map String.ofList

end ApiSchema.Text
