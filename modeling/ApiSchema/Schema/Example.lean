import ApiSchema.Pattern.Sample
import ApiSchema.Problem

/-!
Example values. Every scalar of a tree gets one example: an explicit one is kept, and otherwise the
enumeration, the format, the name of the field, the bounds and the kind are asked in this order. A value
for a field with a pattern has to match it.
-/
namespace ApiSchema

open Text

/-- An example for fields whose names, in lower case, are listed, hold a marker or end in one. -/
structure NameHint where
  value : Value
  markers : List String := []
  exact : List String := []
  ends : List String := []

def NameHint.fits (h : NameHint) (name : String) : Bool :=
  let name := lower name
  h.exact.contains name || h.markers.any (contains name) || h.ends.any (endsWith name)

/-! ## Tables -/

def formatExamples : Entries Value := [
  ("email", .str "user@example.com"),
  ("uuid", .str "550e8400-e29b-41d4-a716-446655440000"),
  ("date", .str "2025-01-15"),
  ("date-time", .str "2025-01-15T10:30:00Z"),
  ("time", .str "10:30:00"),
  ("uri", .str "https://example.com"),
  ("url", .str "https://example.com"),
  ("ipv4", .str "192.168.1.1"),
  ("ipv6", .str "2001:0db8:85a3::8a2e:0370:7334"),
  ("ip", .str "192.168.1.1"),
  ("password", .str "password123"),
  ("ulid", .str "01ARZ3NDEKTSV4RRFFQ69G5FAV"),
  ("duration", .str "P1D")]

def kindExamples : List (Kind × Value) := [
  (.string, .str "string"), (.integer, .int 1), (.number, .float (.zero false)), (.boolean, .bool true)]

/-- A decimal with two places or four, as a number. -/
def decimal (negative : Bool) (digits : Nat) (places : Nat) : Value :=
  .float (Double.ofRatio negative digits (Nat.pow 10 places))

/-- The order counts: a country is no count, and a time is no date. -/
def nameHints : List NameHint := [
  { value := .str "user@example.com", markers := ["email"] },
  { value := .str "password123", markers := ["password"] },
  { value := .str "abc123def456", markers := ["token"] },
  { value := .str "+1-555-555-5555", markers := ["phone"] },
  { value := .str "https://example.com/image.jpg", markers := ["image", "avatar", "photo"] },
  { value := .str "https://example.com", markers := ["url", "link", "href"] },
  { value := .str "example-slug", markers := ["slug"] },
  { value := .str "#3B82F6", markers := ["color", "colour"] },
  { value := .str "2025-01-15T10:30:00Z", ends := ["_at", "datetime"] },
  { value := .str "2025-01-15", markers := ["date"] },
  { value := .str "123 Main St", markers := ["address"] },
  { value := .str "New York", markers := ["city"] },
  { value := .str "US", markers := ["country"] },
  { value := .str "10001", markers := ["zip", "postal"] },
  { value := decimal false 9999 2, markers := ["amount", "price", "cost"] },
  { value := decimal false 407128 4, markers := ["latitude"], exact := ["lat"] },
  { value := decimal true 74006 3, markers := ["longitude", "lng"], exact := ["lon"] },
  { value := .int 25, exact := ["age"] },
  { value := .int 1, exact := ["page"] },
  { value := .int 15, exact := ["per_page", "limit"] },
  { value := .int 1, markers := ["count", "quantity"] },
  { value := .int 1, exact := ["id"], ends := ["_id"] },
  { value := .str "active", markers := ["status"] },
  { value := .str "default", exact := ["type"] },
  { value := .str "asc", markers := ["sort", "order"] },
  { value := .str "Example title", markers := ["title"] },
  { value := .str "Example name", markers := ["name"] },
  { value := .str "A description", markers := ["description"] }]

structure ExampleTables where
  formats : Entries Value := formatExamples
  kinds : List (Kind × Value) := kindExamples
  hints : List NameHint := nameHints
  patterns : Pattern.Lexicon := {}

def Value.isOfKind (v : Value) : Kind → Bool
  | .scalar .string => match v with | .str _ => true | _ => false
  | .scalar .integer => match v with | .int _ => true | _ => false
  | .scalar .number => match v with | .int _ => true | .float _ => true | _ => false
  | .scalar .boolean => match v with | .bool _ => true | _ => false
  | _ => false

/-! ## Patterns -/

def patternText : Value → Except Fault String
  | .str s => .ok s
  | .bytes _ => .error .mismatch
  | _ => .error .noPart

/-- Whether a value matches a pattern. A malformed pattern matches nothing. -/
def matchesPattern (characters : Pattern.Characters) (pattern : String) (v : Value) : Except Fault Bool := do
  let text ← v.spell
  match Pattern.read (Pattern.clean pattern) characters with
  | .ok p => p.fullMatch text
  | .error .malformed => return false
  | .error e => throw e.fault

/-! ## Bounds -/

/-- A number that takes part in arithmetic; truth values count as one and zero. -/
inductive Operand where
  | whole (n : Int)
  | real (x : Double)

def Value.operand? : Value → Option Operand
  | .bool b => some (.whole (if b then 1 else 0))
  | .int n => some (.whole n)
  | .float x => some (.real x)
  | _ => none

def toDouble (n : Int) : Except Fault Double :=
  match Double.ofInt? n with
  | some x => .ok x
  | none => .error .overflow

def halfOf (n : Int) : Except Fault Double :=
  match Double.ofRatio (n < 0) n.natAbs 2 with
  | .finite s m e => .ok (.finite s m e)
  | _ => .error .overflow

def middle (low high : Value) : Except Fault Double :=
  match low.operand?, high.operand? with
  | some (.whole a), some (.whole b) => halfOf (a + b)
  | some (.whole a), some (.real y) => do return ((← toDouble a).add y).half
  | some (.real x), some (.whole b) => do return (x.add (← toDouble b)).half
  | some (.real x), some (.real y) => .ok (x.add y).half
  | _, _ => .error .mismatch

def wholeFault : Double.WholeError → Fault
  | .infinite => .overflow
  | .notANumber => .invalid

/-- A text as a whole number: digits with an optional sign and blanks around. -/
def wholeOfText? (s : String) : Option Int :=
  let (negative, body) := readSign (strip s).toList
  match readDigits body with
  | ([], _) => none
  | (vs, rest) =>
    if rest.isEmpty then (Pattern.countNumber? vs).map fun n => if negative then -(n : Int) else n else none

def wholeOf : Value → Except Fault Int
  | .bool b => .ok (if b then 1 else 0)
  | .int n => .ok n
  | .float x => x.truncate.mapError wholeFault
  | .str s => match wholeOfText? s with | some n => .ok n | none => .error .invalid
  | .bytes bs =>
    -- A character that is blank in a text need not be one as a byte.
    if bs.any fun b => 28 ≤ b && b ≤ 31 || 127 < b then .error .invalid
    else match wholeOfText? (String.ofList (bs.map Char.ofNat)) with | some n => .ok n | none => .error .invalid
  | _ => .error .mismatch

def boundExample (kind : Kind) (low high : Option Value) : Except Fault (Option Value) := do
  match low, high with
  | some a, some b =>
    let x ← middle a b
    if kind == .integer then return some (.int (← x.round.mapError wholeFault))
    return some (.float (x.roundPlaces 2))
  | some a, none | none, some a =>
    if kind == .integer then return some (.int (← wholeOf a))
    return some a
  | none, none => return none

/-! ## Lengths -/

def Operand.less : Operand → Operand → Bool
  | .whole a, .whole b => a < b
  | .whole a, .real y => y.aboveInt a
  | .real x, .whole b => x.belowInt b
  | .real x, .real y => x.less y

def usualLength : Nat := 6

def lengthOperand (v : Value) : Except Fault Operand :=
  match v.operand? with
  | some o => .ok o
  | none => .error .mismatch

/-- The length of an example between two bounds. A missing or empty lower bound is zero. -/
def exampleLength (least most : Option Value) : Except Fault Int := do
  let low ← match least with
    | some v => if v.truthy then lengthOperand v else pure (.whole 0)
    | none => pure (.whole 0)
  let usual := Operand.whole usualLength
  let length := if low.less usual then usual else low
  let length ← match most with
    | some v => do
      let high ← lengthOperand v
      pure (if high.less length then high else length)
    | none => pure length
  match length with
  | .whole n => return n
  | .real _ => throw .mismatch

def textOfLength (n : Int) : Except Fault String := do return String.ofList (← cycle "string".toList n)

/-! ## Examples -/

def formatExample (tables : ExampleTables) (kind : Kind) (format : Option Value) :
    Except Fault (Option Value) :=
  match format with
  | some f =>
    if !f.truthy then .ok none
    else if !f.hashable then .error .mismatch
    else .ok ((f.str?.bind tables.formats.get?).filter (·.isOfKind kind))
  | none => .ok none

/-- The example of a name: that of the first hint that fits, if it is of the kind. -/
def nameExample (tables : ExampleTables) (kind : Kind) (field : Option String) : Option Value := do
  let name ← field
  if name.isEmpty then none
  let hint ← tables.hints.find? (·.fits name)
  if hint.value.isOfKind kind then some hint.value else none

def isSet (v : Option Value) : Bool := v.any Value.truthy

def constraintExample (kind : Kind) (c : Constraints) : Except Fault (Option Value) :=
  if kind.isNumeric then boundExample kind c.minimum c.maximum
  else if kind == .string && !isSet c.pattern && (isSet c.minLength || isSet c.maxLength) then do
    return some (.str (← textOfLength (← exampleLength c.minLength c.maxLength)))
  else .ok none

def candidate (tables : ExampleTables) (kind : Kind) (f : Facets) (field : Option String) :
    Except Fault (Option Value) := do
  match f.enumValues with
  | some (v :: _) => return some v
  | _ =>
    match ← formatExample tables kind f.format with
    | some v => return some v
    | none =>
      if f.format.any (Value.same · (.str "binary")) then return none
      match nameExample tables kind field with
      | some v => return some v
      | none =>
        let bounded ← match f.constraints with
          | some c => constraintExample kind c
          | none => pure none
        match bounded with
        | some v => return some v
        | none => return tables.kinds.lookup kind

def something (v : Option Value) : Option Value := v.filter (!·.isNull)

/-- The example of a scalar. One that does not match the pattern is replaced by an example of the
pattern, and for other kinds than strings by none. -/
def valueFor (tables : ExampleTables) (kind : Kind) (f : Facets) (field : Option String) :
    Attempt (Option Value) := do
  let value := something (← (candidate tables kind f field : Except Fault (Option Value)))
  match value, f.constraints.bind (·.pattern) with
  | some v, some p =>
    if !p.truthy then return some v
    let pattern ← (patternText p : Except Fault String)
    if ← matchesPattern tables.patterns.characters pattern v then return some v
    if kind != .string then return none
    let found ← Pattern.exampleFor tables.patterns pattern
    return found.map .str
  | _, _ => return value

mutual

def synthesize (tables : ExampleTables) (field : Option String) : Node → Attempt Node
  | .scalar s f =>
    if f.circularRef.isSome || f.sample.isSome then return .scalar s f
    else do
      match ← valueFor tables (.scalar s) f field with
      | some v => return .scalar s { f with sample := some v }
      | none => return .scalar s f
  | .array f items =>
    if f.circularRef.isSome then return .array f items
    else do
      let items ← synthesize tables none items
      match f.sample, items.facets.sample with
      | none, some v => return .array { f with sample := some (.list [v]) } items
      | _, _ => return .array f items
  | .object f props =>
    if f.circularRef.isSome then return .object f props
    else do return .object f (← synthesizeProperties tables props)
  | .union f v vs =>
    if f.circularRef.isSome then return .union f v vs
    else do return .union f (← synthesize tables field v) (← synthesizeAll tables field vs)

def synthesizeProperties (tables : ExampleTables) :
    List (String × Node) → Attempt (List (String × Node))
  | [] => return []
  | (name, n) :: rest =>
    return (name, ← synthesize tables (some name) n) :: (← synthesizeProperties tables rest)

def synthesizeAll (tables : ExampleTables) (field : Option String) : List Node → Attempt (List Node)
  | [] => return []
  | n :: rest => return (← synthesize tables field n) :: (← synthesizeAll tables field rest)

end

end ApiSchema
