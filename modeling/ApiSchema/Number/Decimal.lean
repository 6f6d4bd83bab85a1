import ApiSchema.Number.Double
import ApiSchema.Text.Blank
import ApiSchema.Text.Case
import ApiSchema.Text.Digit

/-!
Decimal text of double precision numbers. Writing takes the fewest digits that read back as the
same number and, of those, the ones nearest to it. Reading rounds the exact decimal once.
-/
namespace ApiSchema

/-- Digits and scale: the number is `digits * 10 ^ scale`. -/
structure Decimal where
  digits : Nat
  scale : Int
deriving DecidableEq, Repr

namespace Decimal

def toDouble (negative : Bool) (d : Decimal) : Double :=
  if 0 ≤ d.scale then Double.ofRatio negative (d.digits * Nat.pow 10 d.scale.toNat) 1
  else Double.ofRatio negative d.digits (Nat.pow 10 (-d.scale).toNat)

/-- The fraction `num / den` in units of `10 ^ scale`. -/
def inUnits (num den : Nat) (scale : Int) : Nat × Nat :=
  if 0 ≤ scale then (num, den * Nat.pow 10 scale.toNat) else (num * Nat.pow 10 (-scale).toNat, den)

/-- The number of digits before the decimal point of the fraction, counted from the first digit
that is not zero: `10 ^ (p - 1) ≤ num / den < 10 ^ p`. The search starts at `p` and moves up. -/
def pointFrom (num den : Nat) : Nat → Int → Int
  | 0, p => p
  | fuel + 1, p =>
    let (n, d) := inUnits num den p
    if n < d then p else pointFrom num den fuel (p + 1)

/-- A start below the point of the fraction; it is at most three too low. -/
def pointEstimate (num den : Nat) : Int :=
  Int.fdiv (((num.log2 : Int) - den.log2 - 1) * 30103) 100000 - 1

def point (num den : Nat) : Int := pointFrom num den 8 (pointEstimate num den)

/-- The two neighbours of the fraction in units of `10 ^ scale`, the nearer one first; a tie
prefers the even one. -/
def neighbours (num den : Nat) (scale : Int) : List Nat :=
  let (n, d) := inUnits num den scale
  let q := n / d
  let r := n % d
  if 2 * r < d || (2 * r == d && q % 2 == 0) then [q, q + 1] else [q + 1, q]

/-- The first decimal that reads back, trying `count` digits and then more. -/
def shortestFrom (target : Double) (num den : Nat) (p : Int) : Nat → Nat → Decimal
  | 0, count => ⟨Double.roundDiv (inUnits num den (p - count)).1 (inUnits num den (p - count)).2,
      p - count⟩
  | more + 1, count =>
    let scale := p - count
    match (neighbours num den scale).find? fun q => Decimal.toDouble false ⟨q, scale⟩ == target with
    | some q => ⟨q, scale⟩
    | none => shortestFrom target num den p more (count + 1)

/-- The shortest decimal that reads back as a finite number, without its sign. -/
def shortest (significand : Nat) (exponent : Int) : Decimal :=
  if significand == 0 then ⟨0, 0⟩
  else
    let (num, den) := Double.magnitude significand exponent
    shortestFrom (.finite false significand exponent) num den (point num den) 16 1

end Decimal

/-! ## Writing -/

structure NumberFormat where
  /-- Least and greatest point position written without an exponent. -/
  positionalFrom : Int
  positionalTo : Int
  wholeMark : Bool

/-- Exponents start at 10^16 and below 10^-4, and a whole number keeps `.0`. -/
def NumberFormat.plain : NumberFormat := ⟨-3, 16, true⟩

/-- The same without the mark of a whole number. -/
def NumberFormat.bare : NumberFormat := ⟨-3, 16, false⟩

/-- The exponent part: a sign and at least two digits. -/
def exponentText (e : Int) : List Char :=
  let digits := Nat.toDigits 10 e.natAbs
  ['e', if e < 0 then '-' else '+'] ++ List.replicate (2 - digits.length) '0' ++ digits

/-- Digits of a decimal without zeros at the end; zero itself is one digit. -/
def Decimal.digitChars (d : Decimal) : List Char :=
  match ((Nat.toDigits 10 d.digits).reverse.dropWhile (· == '0')).reverse with
  | [] => ['0']
  | cs => cs

def NumberFormat.write (f : NumberFormat) (d : Decimal) : List Char :=
  let digits := d.digitChars
  let count := digits.length
  let point : Int := if d.digits == 0 then 1 else (Nat.toDigits 10 d.digits).length + d.scale
  if f.positionalFrom ≤ point && point ≤ f.positionalTo then
    if point ≤ 0 then '0' :: '.' :: List.replicate (-point).toNat '0' ++ digits
    else
      let whole := point.toNat
      let head := digits.take whole ++ List.replicate (whole - count) '0'
      let tail := digits.drop whole
      if tail.isEmpty then head ++ (if f.wholeMark then ['.', '0'] else [])
      else head ++ '.' :: tail
  else
    let tail := digits.drop 1
    digits.take 1 ++ (if tail.isEmpty then [] else '.' :: tail) ++ exponentText (point - 1)

def Double.textIn (f : NumberFormat) : Double → String
  | .finite s m e => String.ofList ((if s then ['-'] else []) ++ f.write (Decimal.shortest m e))
  | .infinite s => if s then "-inf" else "inf"
  | .nan => "nan"

def Double.text (x : Double) : String := x.textIn .plain

/-! ## Reading -/

/-- Digits of every script as a list of values, and the rest of the text; a single underscore may
stand between two digits. `started` tells whether a digit stands right before the text. -/
def readDigitsFrom (started : Bool) : List Char → List Nat × List Char
  | [] => ([], [])
  | c :: rest =>
    match Text.digitValue? c with
    | some v =>
      let (vs, left) := readDigitsFrom true rest
      (v :: vs, left)
    | none =>
      if started && c == '_' && rest.head?.any Text.isDecimalDigit then readDigitsFrom false rest
      else ([], c :: rest)

def readDigits (cs : List Char) : List Nat × List Char := readDigitsFrom false cs

def digitsToNat (vs : List Nat) : Nat := vs.foldl (fun n v => n * 10 + v) 0

/-- An optional sign: whether it is a minus, and the rest. -/
def readSign : List Char → Bool × List Char
  | '-' :: rest => (true, rest)
  | '+' :: rest => (false, rest)
  | cs => (false, cs)

/-- An exponent at the start of the text; zero, and the text as it is, when there is none. -/
def readExponent (cs : List Char) : Int × List Char :=
  match cs with
  | c :: rest =>
    if c == 'e' || c == 'E' then
      let (negative, body) := readSign rest
      match readDigits body with
      | ([], _) => (0, cs)
      | (vs, left) => (if negative then -(digitsToNat vs : Int) else digitsToNat vs, left)
    else (0, cs)
  | [] => (0, cs)

/-- An unsigned decimal at the start of the text: digits on at least one side of the point. -/
def readDecimal? (cs : List Char) : Option (Decimal × List Char) :=
  let (whole, afterWhole) := readDigits cs
  let (fraction, afterFraction) :=
    match afterWhole with
    | '.' :: rest => readDigits rest
    | _ => ([], afterWhole)
  if whole.isEmpty && fraction.isEmpty then none
  else
    let (e, left) := readExponent afterFraction
    some (⟨digitsToNat (whole ++ fraction), e - fraction.length⟩, left)

/-- A decimal whose exponent is so large that only its sign matters is brought into range before
it is expanded. -/
def Decimal.clamped (d : Decimal) : Decimal :=
  let width : Int := (Nat.toDigits 10 d.digits).length
  if d.digits == 0 then ⟨0, 0⟩
  else if 400 < width + d.scale then ⟨1, 400⟩
  else if width + d.scale < -400 then ⟨1, -400⟩
  else d

/-- A number from its text: a decimal, an infinity or a NaN, with an optional sign and blanks
around it. -/
def Double.ofText? (s : String) : Option Double :=
  let (negative, body) := readSign (Text.strip s).toList
  match Text.lower (String.ofList body) with
  | "inf" | "infinity" => some (.infinite negative)
  | "nan" => some .nan
  | _ =>
    match readDecimal? body with
    | some (d, []) => some (d.clamped.toDouble negative)
    | _ => none

end ApiSchema
