import ApiSchema.Settings.Basic
import ApiSchema.Entries
import ApiSchema.Text.Identifier
import ApiSchema.Value

/-!
Settings from values that are given by name, as arguments or, with less weight, by the environment.
Numbers and truth values may be written as texts, and a list of names as one text with commas. All
values that do not fit are reported, in the order of the settings.
-/
namespace ApiSchema

open Text

namespace Settings

inductive Flaw where
  | notANumber
  | notWhole
  | notFinite
  | tooLarge
  | numberExpected
  | tooSmall
  | notATruthValue
  | truthValueExpected
  | textExpected
  | listExpected
  | notAnIdentifier
deriving DecidableEq, Repr

/-- A setting that a value does not fit; an element of a list is named by its position. -/
structure Misfit where
  place : String
  flaw : Flaw
deriving DecidableEq, Repr

abbrev Checked := Except (List Misfit)

/-! ## Numbers -/

def isMargin (c : Char) : Bool := isBlank c && !(28 ≤ c.toNat && c.toNat ≤ 31)

/-- What follows the zeros at the start of a number; underscores between and after them count as
zeros, and the last character stays if nothing else does. -/
def afterZeros (last : Char) : List Char → Option (List Char)
  | [] => some [last]
  | c :: rest =>
    if c == '0' || c == '_' then afterZeros c rest
    else if c == '.' then some (last :: c :: rest)
    else if c.isDigit then some (c :: rest)
    else none

def dropZeros : List Char → Option (List Char)
  | [] => none
  | c :: rest => if c == '0' then afterZeros c rest else if c.isDigit then some (c :: rest) else none

/-- A number without a fraction that is zeros only. -/
def dropZeroFraction (cs : List Char) : List Char :=
  match cutList '.' cs with
  | (whole, some (f :: fraction)) => if (f :: fraction).all (· == '0') then whole else cs
  | _ => cs

def areUnderscoresSingle : List Char → Bool
  | [] => true
  | ['_'] | '_' :: '_' :: _ => false
  | _ :: rest => areUnderscoresSingle rest

/-- A number without underscores, if they stand where they may. -/
def dropUnderscores (cs : List Char) : List Char :=
  if cs.head? != some '_' && areUnderscoresSingle cs then cs.filter (· != '_') else cs

/-- A sign and what comes after it. A second sign is none of a number. -/
def readSign? : List Char → Option (Bool × List Char)
  | '+' :: rest => if rest.head? == some '+' || rest.head? == some '-' then none else some (false, rest)
  | '-' :: rest => if rest.head? == some '+' || rest.head? == some '-' then none else some (true, rest)
  | cs => some (false, cs)

def maxNumberLength : Nat := 4300

/-- A whole number as a text; a fraction of zeros does not matter. -/
def wholeOfText (text : String) : Except Flaw Int :=
  match readSign? (stripOf isMargin text).toList with
  | none => .error .notANumber
  | some (negative, cs) =>
    match dropZeros cs with
    | none => .error .notANumber
    | some cs =>
      let cs := dropUnderscores (dropZeroFraction cs)
      let digits := cs.takeWhile Char.isDigit
      if maxNumberLength < digits.length + (if negative then 1 else 0) then .error .tooLarge
      else if digits.isEmpty || digits.length < cs.length then .error .notANumber
      else
        let n := digits.foldl (fun n c => 10 * n + (c.toNat - '0'.toNat)) 0
        .ok (if negative then -(n : Int) else n)

/-- The largest number of 64 bits with a sign, and one more. -/
def wordLimit : Nat := Nat.pow 2 63

def fitsWord (n : Int) : Bool := n.natAbs < wordLimit

def wholeOfDouble (x : Double) : Except Flaw Int :=
  match x.truncate with
  | .error _ => .error .notFinite
  | .ok n => if !x.sameInt n then .error .notWhole else if fitsWord n then .ok n else .error .tooLarge

def whole : Value → Except Flaw Int
  | .bool b => .ok (if b then 1 else 0)
  | .int n => .ok n
  | .float x => wholeOfDouble x
  | .str s => wholeOfText s
  | _ => .error .numberExpected

def positive (v : Value) : Except Flaw Int := do
  let n ← whole v
  if n < 1 then .error .tooSmall else .ok n

/-! ## Truth values -/

def trueWords : List String := ["1", "t", "y", "on", "yes", "true"]

def falseWords : List String := ["0", "f", "n", "no", "off", "false"]

def truthOfInt (n : Int) : Except Flaw Bool :=
  if n == 0 then .ok false else if n == 1 then .ok true else .error .notATruthValue

def truth : Value → Except Flaw Bool
  | .bool b => .ok b
  | .str s =>
    let word := s.map Char.toLower
    if trueWords.contains word then .ok true
    else if falseWords.contains word then .ok false
    else .error .notATruthValue
  | .int n => if -(wordLimit : Int) ≤ n && n < wordLimit then truthOfInt n else .error .truthValueExpected
  | .float x =>
    match wholeOfDouble x with
    | .ok n => truthOfInt n
    | .error _ => .error .truthValueExpected
  | _ => .error .truthValueExpected

/-! ## Texts -/

def textOf : Value → Except Flaw String
  | .str s => .ok s
  | _ => .error .textExpected

def identifier (v : Value) : Except Flaw String := do
  let s ← textOf v
  if isIdentifier s then .ok s else .error .notAnIdentifier

/-- The misfits of the elements of a list, each under its position. -/
def elementMisfits (name : String) (vs : List Value) : List Misfit :=
  vs.zipIdx.filterMap fun (v, i) =>
    match textOf v with
    | .ok _ => none
    | .error flaw => some ⟨name ++ "." ++ toString i, flaw⟩

/-- A list of texts, or one text with commas. -/
def names (name : String) (v : Value) : Checked (List String) :=
  match v with
  | .str s => .ok (((split ',' s).map strip).filter (!·.isEmpty))
  | _ =>
    match v.elements? with
    | none => .error [⟨name, .listExpected⟩]
    | some vs =>
      match elementMisfits name vs with
      | [] => .ok (vs.filterMap Value.str?)
      | misfits => .error misfits

/-! ## All settings -/

def setting (given : Entries Value) (name : String) (usual : α) (read : Value → Except Flaw α) : Checked α :=
  match given.get? name with
  | none => .ok usual
  | some v =>
    match read v with
    | .ok a => .ok a
    | .error flaw => .error [⟨name, flaw⟩]

def andAlso (f : Checked (α → β)) (x : Checked α) : Checked β :=
  match f, x with
  | .ok f, .ok a => .ok (f a)
  | .ok _, .error ms | .error ms, .ok _ => .error ms
  | .error ms, .error more => .error (ms ++ more)

/-- The settings of values that are given by name; other names do not matter. -/
def ofValues (given : Entries Value) : Checked Settings :=
  let usual : Settings := {}
  let methods := match given.get? "serializer_methods" with
    | none => .ok usual.serializerMethods
    | some v => names "serializer_methods" v
  andAlso (andAlso (andAlso (andAlso (andAlso (andAlso (andAlso (.ok Settings.mk)
    (setting given "max_depth" usual.maxDepth positive))
    (setting given "synthesize_examples" usual.synthesizeExamples truth))
    (setting given "allow_partial_parse" usual.allowPartialParse truth))
    (setting given "max_file_size_bytes" usual.maxFileSize whole))
    methods)
    (setting given "rules_method" usual.rulesMethod identifier))
    (setting given "cache_enabled" usual.cacheEnabled truth)

/-- Values by name, where the case of a name does not matter; of two values the last counts. -/
def byName {α : Type} (given : Entries α) : Entries α :=
  given.foldl (fun (acc : Entries α) e => acc.set (lower e.1) e.2) []

/-- The settings of arguments and, where there is no argument, of the environment. -/
def ofSources (arguments : Entries Value) (environment : Entries String) : Checked Settings :=
  ofValues ((byName environment).foldl (fun (acc : Entries Value) e => acc.setDefault e.1 (.str e.2))
    (byName arguments))

/-! ## Shared settings -/

/-- The settings that a process shares are read once, from its environment, until they are reset. -/
structure Shared where
  /-- What the names of the variables of these settings start with, in lower case. -/
  start : String
  environment : Entries String := []
  settings : Option Settings := none

namespace Shared

def environmentValues (s : Shared) : Entries String :=
  s.environment.filterMap fun (name, value) =>
    if startsWith (lower name) s.start then some (drop s.start.length (lower name), value) else none

def withArguments (s : Shared) (arguments : Entries Value) : Checked Settings :=
  ofSources arguments s.environmentValues

/-- The shared settings; those that do not fit are not kept. -/
def get (s : Shared) : Checked Settings × Shared :=
  match s.settings with
  | some settings => (.ok settings, s)
  | none =>
    match s.withArguments [] with
    | .ok settings => (.ok settings, { s with settings := some settings })
    | .error ms => (.error ms, s)

def reset (s : Shared) : Shared := { s with settings := none }

def setVariable (s : Shared) (name value : String) : Shared :=
  { s with environment := s.environment.set name value }

end Shared
end Settings
end ApiSchema
