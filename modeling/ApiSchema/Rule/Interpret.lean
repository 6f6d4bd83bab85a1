import ApiSchema.Pattern.Sample
import ApiSchema.Problem
import ApiSchema.Rule.Table
import ApiSchema.Rule.Token
import ApiSchema.Text.Template

/-!
The shape of a field from its rules. Of kind, format, enumeration and bounds the last rule counts;
that a field is required, nullable or deprecated is never taken back; a requirement under a condition
does not make a field required.
-/
namespace ApiSchema.Rule

open Text

structure State where
  kind : Option Kind := none
  format : Option String := none
  required : Bool := false
  nullable : Bool := false
  deprecated : Bool := false
  enumValues : Option (List Value) := none
  lower : Option Value := none
  upper : Option Value := none
  pattern : Option String := none
  sample : Option String := none
  descriptions : List String := []
  requirements : List Requirement := []

namespace State

/-- Another kind brings its own format; the same kind only a format that it has. -/
def withKind (s : State) (kind : Option Kind) (format : Option String) : State :=
  match kind with
  | some k => if s.kind != some k then { s with kind := some k, format } else { s with format := format <|> s.format }
  | none => { s with format := format <|> s.format }

def describe (s : State) (text : String) : State :=
  if text.isEmpty || s.descriptions.contains text then s
  else { s with descriptions := s.descriptions ++ [text] }

end State

def number? (text : String) : Option Value := do
  let x ← Double.ofText? text
  match x.toInt? with
  | some n => return .int n
  | none => return .float x

abbrev EnumLookup (m : Type → Type) := Option (String → m (Option (List Value)))

structure Interpreter (m : Type → Type) where
  table : Table := {}
  patterns : Pattern.Lexicon := {}
  enums : EnumLookup m := none

section

variable {m : Type → Type} [Monad m]

def withRequirement (s : State) (t : Token) : State :=
  match t.params with
  | [] => s
  | first :: rest =>
    let valued := t.name == "required_if" || t.name == "required_unless"
    let value := join ", " rest
    let requirement : Requirement := {
      kind := t.name
      fields := if valued then [first] else t.params
      value := if valued && !value.isEmpty then some (.str value) else none
      description := conditionText t.name t.params }
    { s with requirements := s.requirements ++ [requirement] }

def enumSentence : String := "Must be a valid enum value."

def withEnum (s : State) (values : List Value) : State :=
  let s := { s with enumValues := some values }
  match values.head? with
  | some (.int _) => s.withKind (some .integer) none
  | _ => if s.kind.isNone then s.withKind (some .string) none else s

def withPattern (patterns : Pattern.Lexicon) (s : State) (raw : String) : Attempt State := do
  let pattern := Pattern.clean raw
  let s := { s with pattern := some pattern }.describe (Pattern.describe patterns.known pattern)
  match ← Pattern.exampleFor patterns pattern with
  | some sample => return { s with sample := some sample }
  | none => return s

def timeMarkers : List String := ["H", "h", "i", "s", "%H", "%M", "%S", "T"]

/-- The state after a rule whose effect is in the table; other rules say nothing. -/
def withEffect (table : Table) (s : State) (t : Token) : Attempt State := do
  match table.types.get? t.name with
  | some effect =>
    let s := s.withKind effect.kind effect.format
    let s := match effect.pattern with
      | some p => if p.isEmpty then s else { s with pattern := some p }
      | none => s
    match effect.description with
    | some d =>
      if d.isEmpty then return s
      return s.describe (← (fill d "params" (join ", " t.params) : Except Fault String))
    | none => return s
  | none => return s

def given? (t : Token) : Option String := t.first?.filter (!·.isEmpty)

/-- The state after a rule that looks nothing up. -/
def applyPlain (table : Table) (patterns : Pattern.Lexicon) (s : State) (t : Token) : Attempt State := do
  let firstNumber := t.first?.bind number?
  match t.name with
  | "required" => return { s with required := true }
  | "nullable" => return { s with nullable := true }
  | "deprecated" => return { s with deprecated := true }
  | "sometimes" => return s.describe "Optional field that is validated only when present."
  | "min" | "gt" | "gte" => return { s with lower := firstNumber <|> s.lower }
  | "max" | "lt" | "lte" => return { s with upper := firstNumber <|> s.upper }
  | "size" => return { s with lower := firstNumber, upper := firstNumber }
  | "in" => return { s with enumValues := some (t.params.map .str) }
  | "regex" =>
    match given? t with
    | some raw => withPattern patterns s raw
    | none => return s
  | "date_format" =>
    let format := t.first?.getD ""
    let timed := timeMarkers.any (Text.contains format)
    return (s.withKind (some .string) (some (if timed then "date-time" else "date"))).describe
      ("Must match the date format " ++ format ++ ".")
  | "between" =>
    match t.params with
    | low :: high :: _ => return { s with lower := number? low, upper := number? high }
    | _ => withEffect table s t
  | "digits" =>
    match given? t with
    | some n =>
      let s := s.withKind (some .string) none
      return { s with pattern := some ("^\\d\x7b" ++ n ++ "\x7d$") }.describe
        ("Must be exactly " ++ n ++ " digits.")
    | none => withEffect table s t
  | "digits_between" =>
    match t.params with
    | low :: high :: _ =>
      let s := s.withKind (some .string) none
      return { s with pattern := some ("^\\d\x7b" ++ low ++ "," ++ high ++ "\x7d$") }.describe
        ("Must be between " ++ low ++ " and " ++ high ++ " digits.")
    | _ => withEffect table s t
  | name =>
    if conditionalRules.contains name then return withRequirement s t else withEffect table s t

variable [MonadLiftT Attempt m]

def apply (i : Interpreter m) (s : State) (t : Token) : m State := do
  if t.name == "enum" then
    match i.enums, given? t with
    | some lookup, some name =>
      match ← lookup name with
      | some (v :: vs) => return withEnum s (v :: vs)
      | _ => return s.describe enumSentence
    | _, _ => return s.describe enumSentence
  else applyPlain i.table i.patterns s t

/-! ## The node of a field -/

def wholeBound : Option Value → Except Fault (Option Value)
  | some (.float x) =>
    match x.truncate with
    | .ok n => .ok (some (.int n))
    | .error .infinite => .error .overflow
    | .error .notANumber => .error .invalid
  | v => .ok v

def numberOrSelf (v : Value) : Value := (number? v.text).getD v

def boundsOf (kind : Kind) (s : State) : Except Fault Constraints := do
  let base : Constraints := { pattern := s.pattern.map .str }
  match kind with
  | .scalar .integer | .scalar .number => return { base with minimum := s.lower, maximum := s.upper }
  | .array => return { base with minItems := ← wholeBound s.lower, maxItems := ← wholeBound s.upper }
  | .scalar .string =>
    if s.format == some "binary" then return base
    return { base with minLength := ← wholeBound s.lower, maxLength := ← wholeBound s.upper }
  | _ => return base

def sizeSentence (most : Value) : String := "Maximum size: " ++ most.text ++ " kilobytes."

def State.sized (s : State) (kind : Kind) : State :=
  match kind, s.upper with
  | .scalar .string, some most => if s.format == some "binary" then s.describe (sizeSentence most) else s
  | _, _ => s

def State.facets (s : State) (kind : Kind) (c : Constraints) : Facets where
  required := s.required
  nullable := s.nullable
  deprecated := s.deprecated
  enumValues := if kind.isNumeric then s.enumValues.map (·.map numberOrSelf) else s.enumValues
  constraints := if c.isEmpty then none else some c
  description := if (join " " s.descriptions).isEmpty then none else some (.str (join " " s.descriptions))
  requirements := s.requirements
  sample := if kind == .string then s.sample.map .str else none
  format := if kind == .object || kind == .array then none else s.format.map .str

def State.draft (s : State) (kind : Kind) (c : Constraints) : Draft where
  kind
  facets := (s.sized kind).facets kind c
  items := if kind == .array then some Node.string else none

/-- Whether the enumerated values of a kind can be written out, where they may stand for numbers. -/
def State.isSpelled (s : State) (kind : Kind) : Bool := !kind.isNumeric || s.enumValues.all Value.areSpelled

def State.node (s : State) : Attempt Node := do
  let kind := s.kind.getD .string
  let constraints ← (boundsOf kind s : Except Fault Constraints)
  if s.isSpelled kind then ((s.draft kind constraints).build : Except DraftError Node)
  else throw (.fault .invalid)

def interpretTokens (i : Interpreter m) (tokens : List Token) : m Node := do
  let s ← tokens.foldlM (apply i) {}
  s.node

def interpret (i : Interpreter m) (rules : Raw) : m Node := interpretTokens i (parse rules)

def confirmation (path : String) (n : Node) : Node :=
  let facets : Facets := {
    required := n.facets.required
    description := some (.str ("Must match " ++ lastSegment path ++ ".")) }
  match n with
  | .scalar k f => .scalar k { facets with format := f.format }
  | .array _ _ => .array facets Node.string
  | .object _ _ => .object facets []
  | .union _ v vs => .union { facets with format := n.facets.format } v vs

/-- The nodes of the fields of a rule set, in order. A confirmed field brings its twin, unless that is
there already. -/
def interpretSet (i : Interpreter m) (ruleSet : Entries Raw) : m (Entries Node) :=
  ruleSet.foldlM (fun (acc : Entries Node) (path, rules) => do
    let tokens := parse rules
    let n ← interpretTokens i tokens
    let acc := acc.set path n
    if tokens.any (·.name == "confirmed") then
      return acc.setDefault (path ++ "_confirmation") (confirmation path n)
    return acc) []

end

end ApiSchema.Rule
